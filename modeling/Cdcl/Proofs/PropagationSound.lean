import Cdcl.Proofs.Attachment
import Cdcl.Proofs.PropagationEffects
import Cdcl.Proofs.WatchVisits

/-!
# Propagation is sound

Every visit of a clause keeps the engine sound, and a reported conflict is a stored clause whose
literals are all false, the literal just visited among them.

## Main results

`propagate_sound`: propagation keeps the engine sound and only extends it.
-/

namespace Cdcl

namespace Engine

/-! ### Lists under visit -/

theorem long_withList (e : Engine) (p : Lit) (ws : Array Watcher) (q : Lit) :
    (e.withList p ws).watches.long.get q = if p = q then ws else e.watches.long.get q :=
  Watches.long_setLong ..

theorem clause_withList (e : Engine) (p : Lit) (ws : Array Watcher) (id : ClauseId) :
    (e.withList p ws).clause id = e.clause id := rfl

theorem withList_withList (e : Engine) (p : Lit) (ws vs : Array Watcher) :
    (e.withList p ws).withList p vs = e.withList p vs := by
  simp only [withList, modifyWatches, Watches.setLong, DenseMap.insert_insert]

theorem entriesOf_withList {e : Engine} {p : Lit} {vs : Array Watcher}
    (same : ∀ id, entriesOf id vs = entriesOf id (e.watches.long.get p)) (id : ClauseId) (q : Lit) :
    entriesOf id ((e.withList p vs).watches.long.get q) = entriesOf id (e.watches.long.get q) := by
  rw [long_withList]
  split
  next here => rw [same, here]
  next => rfl

section Relist

variable {aside : List ClauseId} {e : Engine} {p : Lit} {vs : Array Watcher}

theorem tracks_relist (h : e.watches.Tracks e.clause aside)
    (same : ∀ id, entriesOf id vs = entriesOf id (e.watches.long.get p)) :
    (e.withList p vs).watches.Tracks (e.withList p vs).clause aside :=
  h.congr (fun _ => rfl) (fun _ _ _ => rfl) (entriesOf_withList same) rfl rfl

theorem inside_relist (h : ∀ q, ∀ w ∈ e.watches.long.get q, w.clause.slot < e.arena.clauses.size)
    (same : ∀ id, entriesOf id vs = entriesOf id (e.watches.long.get p)) :
    ∀ q, ∀ w ∈ (e.withList p vs).watches.long.get q, w.clause.slot < e.arena.clauses.size := by
  intro q w member
  have some := entriesOf_pos_iff.mpr ⟨w, member, rfl⟩
  rw [entriesOf_withList same] at some
  obtain ⟨v, old, sameClause⟩ := entriesOf_pos_iff.mp some
  rw [← sameClause]
  exact h q v old

end Relist

/-- Another list takes the place of one with as many entries of every clause. -/
theorem Sound.relist {aside : List ClauseId} {e : Engine} {p : Lit} (h : e.Sound aside)
    (vs : Array Watcher) (same : ∀ id, entriesOf id vs = entriesOf id (e.watches.long.get p))
    (blockers : ∀ w ∈ vs, w ∈ e.watches.long.get p ∨ w.blocker ∈ (e.clause w.clause).lits) :
    (e.withList p vs).Sound aside := by
  refine
    { h with
      tracked := tracks_relist h.tracked same
      inside := inside_relist h.inside same
      blockers := ?_
      blank := Watches.blank_setLong.mpr h.blank }
  · intro q w member attached
    rw [long_withList] at member
    split at member
    next here =>
      subst here
      rcases blockers w member with old | fresh
      · exact h.blockers p w old attached
      · exact .inl fresh
    next => exact h.blockers q w member attached

theorem FrozenApart.relist {e : Engine} {p : Lit} (h : e.FrozenApart) (vs : Array Watcher)
    (same : ∀ id, entriesOf id vs = entriesOf id (e.watches.long.get p)) :
    (e.withList p vs).FrozenApart :=
  { h with
    unwatched := fun id used frozen q =>
      (entriesOf_withList same id q).trans (h.unwatched id used frozen q) }

theorem reordered_orient {e : Engine} {id : ClauseId} (used : (e.clause id).isRemoved = false)
    (f : Lit) (other : ClauseId) :
    (e.clause other).Reordered ((e.arena.modify id (orient f)).get other) := by
  change (e.clause other).Reordered ((e.modifyClause id (orient f)).clause other)
  rw [clause_modifyClause used]
  split
  · exact orient_reordered f _
  · exact .refl _

/-- Turning a clause does not change which literals it watches. -/
theorem tracks_orient {aside : List ClauseId} {e : Engine} (h : e.watches.Tracks e.clause aside)
    {id : ClauseId} (used : (e.clause id).isRemoved = false) (size : 2 ≤ (e.clause id).lits.size)
    (f : Lit) : e.watches.Tracks (e.modifyClause id (orient f)).clause aside := by
  refine h.congr (fun other => (reordered_orient used f other).attached) (fun other _ p => ?_)
    (fun _ _ => rfl) rfl rfl
  rw [clause_modifyClause used]
  split
  next same =>
    subst same
    exact orient_watchCount size p
  next => rfl

/-- Turning a clause whose first literal is false keeps the engine sound. -/
theorem Sound.orient {aside : List ClauseId} {e : Engine} (h : e.Sound aside) {id : ClauseId}
    (used : (e.clause id).isRemoved = false) {f : Lit} (fails : e.trail.isTrue f = false) :
    (e.modifyClause id (orient f)).Sound aside := by
  have clauses := reordered_orient used f
  have get (other : ClauseId) : (e.arena.modify id (Engine.orient f)).get other =
      if id = other then Engine.orient f (e.clause other) else e.clause other :=
    clause_modifyClause used _ other
  refine h.rearranged rfl ?_ (fun other => (clauses other).continues) ?_
    (tracks_orient h.tracked used (Nat.le_of_succ_le (h.proper id used).size) f) ?_ h.blank
  · intro p w member
    simp only [ClauseArena.modify, Array.size_modify]
    exact h.inside p w member
  · intro other _
    rw [get]
    split
    · refine (orient_lit_zero f _).imp_right fun isFirst => ?_
      rw [isFirst]
      exact fails
    · exact .inl rfl
  · intro p w member attached
    rw [(clauses w.clause).attached] at attached
    rw [(clauses w.clause).mem]
    exact h.blockers p w member attached

theorem reordered_swap {e : Engine} {id : ClauseId} (used : (e.clause id).isRemoved = false)
    (i j : Nat) (other : ClauseId) :
    (e.clause other).Reordered ((e.arena.modify id (·.swap i j)).get other) := by
  change (e.clause other).Reordered ((e.modifyClause id (·.swap i j)).clause other)
  rw [clause_modifyClause used]
  split
  · exact Clause.reordered_swap _ _ _
  · exact .refl _

/-- Make the literal at position `k` the second of a clause, and drop the clause's entry from a list
for one in the list of the new literal. -/
def moveWatch (e : Engine) (id : ClauseId) (k : Nat) (p : Lit) (ws : Array Watcher) : Engine :=
  ((e.modifyClause id (·.swap 1 k)).modifyWatches
    (·.pushLong ((e.clause id).lit k).neg ⟨id, (e.clause id).lit 0⟩)).withList p ws

section Move

variable {aside : List ClauseId} {e : Engine} {p : Lit} {kept : Array Watcher}
  {rest : List Watcher} {id : ClauseId} {blocker : Lit} {k : Nat}

theorem tracks_moveWatch {n : Nat}
    (h : (e.withList p (kept ++ (⟨id, blocker⟩ :: rest).toArray)).watches.Tracks e.clause aside)
    (proper : (e.clause id).Proper n)
    (attached : (e.clause id).isAttached = true) (notAside : id ∉ aside)
    (second : (e.clause id).lit 1 = p.neg) (low : 2 ≤ k) (high : k < (e.clause id).lits.size) :
    (e.moveWatch id k p (kept ++ rest.toArray)).watches.Tracks
      (e.moveWatch id k p (kept ++ rest.toArray)).clause aside := by
  have used := isRemoved_of_isAttached attached
  have size := proper.size
  -- No two of the three literals are the same.
  have apart {i j : Nat} (iBound : i < (e.clause id).lits.size)
      (jBound : j < (e.clause id).lits.size) (differ : i ≠ j) :
      ((e.clause id).lit i).neg ≠ ((e.clause id).lit j).neg := fun same =>
    differ (proper.lit_inj iBound jBound (congrArg Lit.var (Lit.neg_inj.mp same)))
  have key : ((e.clause id).lit 1).neg = p := by rw [second, Lit.neg_neg]
  have first_ne := apart (i := 0) (j := 1) (by omega) (by omega) (by omega)
  have first_ne_new := apart (i := 0) (by omega) high (by omega)
  have old_ne_new := apart (i := 1) (by omega) high (by omega)
  rw [key] at first_ne old_ne_new
  have moved (other : ClauseId) (q : Lit) :=
    e.watches.entriesOf_move id other blocker kept rest old_ne_new.symm ((e.clause id).lit 0) q
  have others {other : ClauseId} (ne : id ≠ other) (q : Lit) :
      entriesOf other ((e.moveWatch id k p (kept ++ rest.toArray)).watches.long.get q) =
        entriesOf other ((e.withList p (kept ++ (⟨id, blocker⟩ :: rest).toArray)).watches.long.get q)
      := by
    have := moved other q
    simp only [ne, and_false, if_false, Nat.add_zero] at this
    exact this
  have clause (other : ClauseId) : (e.moveWatch id k p (kept ++ rest.toArray)).clause other =
      if id = other then (e.clause other).swap 1 k else e.clause other :=
    clause_modifyClause used (·.swap 1 k) other
  have same (other : ClauseId) : ((e.moveWatch id k p (kept ++ rest.toArray)).clause other).isAttached
      = (e.clause other).isAttached := by
    rw [clause]
    split <;> rfl
  exact
    { exact := by
        intro other otherAttached otherNotAside q
        rw [same] at otherAttached
        by_cases ne : id = other
        · subst ne
          have before := h.exact id otherAttached otherNotAside q
          have after := moved id q
          change _ = entriesOf id ((e.withList p _).watches.long.get q) + _ at after
          rw [clause, if_pos rfl]
          simp only [Clause.watchCount, key, Clause.lit_zero_swap_one low high,
            Clause.lit_one_swap_one low high] at before ⊢
          change entriesOf id ((e.moveWatch id k p _).watches.long.get q) + _ = _ at after
          rw [before] at after
          grind
        · rw [others ne, clause, if_neg ne]
          exact h.exact other otherAttached otherNotAside q
      aside := by
        intro other member q
        rw [others fun same => notAside (same ▸ member)]
        exact h.aside other member q
      usable := fun other member => (same other).trans (h.usable other member)
      stale := by
        intro other detached q some
        rw [same] at detached
        have ne : id ≠ other := by
          rintro rfl
          rw [attached] at detached
          cases detached
        rw [others ne] at some
        exact h.stale other detached q some
      listed := h.listed }

/-- Another literal becomes the second of a clause in place of the one visited. -/
theorem Sound.moveWatch
    (h : (e.withList p (kept ++ (⟨id, blocker⟩ :: rest).toArray)).Sound aside)
    (attached : (e.clause id).isAttached = true) (notAside : id ∉ aside)
    (second : (e.clause id).lit 1 = p.neg) (low : 2 ≤ k) (high : k < (e.clause id).lits.size) :
    (e.moveWatch id k p (kept ++ rest.toArray)).Sound aside := by
  have used := isRemoved_of_isAttached attached
  have size := (h.proper id used).size
  rw [clause_withList] at size
  have clauses := reordered_swap used 1 k
  refine h.rearranged rfl ?_ (fun other => (clauses other).continues) ?_
    (tracks_moveWatch h.tracked (h.proper id used) attached notAside second low high) ?_ ?_
  · intro q w member
    change w.clause.slot < (e.arena.modify id _).clauses.size
    simp only [ClauseArena.modify, Array.size_modify]
    rcases Watches.mem_move member with old | rfl
    · exact h.inside q w old
    · exact slot_lt used
  · intro other _
    change ((e.modifyClause id _).clause other).lit 0 = _ ∨ _
    rw [clause_modifyClause used]
    split
    next same =>
      subst same
      exact .inl (Clause.lit_zero_swap_one low high)
    next => exact .inl rfl
  · intro q w member isAttached
    change _ ∈ ((e.arena.modify id _).get w.clause).lits ∨ _
    change ((e.arena.modify id _).get w.clause).isAttached = true at isAttached
    rw [(clauses w.clause).mem]
    rw [(clauses w.clause).attached] at isAttached
    rcases Watches.mem_move member with old | rfl
    · exact h.blockers q w old isAttached
    · exact .inl (Clause.lit_mem (c := e.clause id) (i := 0) (by omega))
  · exact Watches.blank_setLong.mpr ((Watches.blank_setLong.mp h.blank).pushLong _ _)

theorem FrozenApart.moveWatch
    (h : (e.withList p (kept ++ (⟨id, blocker⟩ :: rest).toArray)).FrozenApart)
    (attached : (e.clause id).isAttached = true) (ne : (e.clause id).lit k ≠ p.neg) :
    (e.moveWatch id k p (kept ++ rest.toArray)).FrozenApart := by
  have used := isRemoved_of_isAttached attached
  have clauses := reordered_swap used 1 k
  refine h.rearranged (fun other => (clauses other).continues) ?_ rfl
  intro other _ frozen q
  have differ : id ≠ other := by
    rintro rfl
    have thawed := (clauses id).frozen.trans (isFrozen_of_isAttached attached)
    exact absurd (frozen.symm.trans thawed) nofun
  have key_ne : ((e.clause id).lit k).neg ≠ p := fun same => ne (by rw [← same, Lit.neg_neg])
  have moved := e.watches.entriesOf_move id other blocker kept rest key_ne ((e.clause id).lit 0) q
  simp only [differ, and_false, if_false, Nat.add_zero] at moved
  exact moved

end Move

/-! ### A visit and the loop over a list -/

/-- The conflict is a stored clause of false literals, this one among them. -/
def Falsifies (e : Engine) (falseLit : Lit) : Conflict → Prop
  | .binary a b => b = falseLit ∧ a ∈ e.watches.binary.get b.neg ∧ e.trail.isFalse a = true ∧
      e.trail.isFalse b = true
  | .clause id => (e.clause id).isRemoved = false ∧ falseLit ∈ (e.clause id).lits ∧
      ∀ l ∈ (e.clause id).lits, e.trail.isFalse l = true

section Listed

variable {aside : List ClauseId} {e : Engine} {p : Lit} {ws : Array Watcher} {w : Watcher}

theorem attached_of_mem (h : (e.withList p ws).watches.Tracks e.clause aside)
    (clean : e.watches.dirty.get p = false) (member : w ∈ ws) :
    (e.clause w.clause).isAttached = true ∧ w.clause ∉ aside := by
  have here : w ∈ (e.withList p ws).watches.long.get p := by
    rw [long_withList, if_pos rfl]
    exact member
  refine ⟨h.attached clean here, fun inAside => ?_⟩
  have none := h.aside w.clause inAside p
  have some := entriesOf_pos_iff.mpr ⟨w, here, rfl⟩
  omega

theorem watched_of_mem (h : (e.withList p ws).watches.Tracks e.clause aside)
    (clean : e.watches.dirty.get p = false) (member : w ∈ ws) :
    p.neg = (e.clause w.clause).lit 0 ∨ p.neg = (e.clause w.clause).lit 1 := by
  obtain ⟨attached, notAside⟩ := attached_of_mem h clean member
  have count := h.exact w.clause attached notAside p
  have some : 0 < entriesOf w.clause ((e.withList p ws).watches.long.get p) := by
    rw [long_withList, if_pos rfl]
    exact entriesOf_pos_iff.mpr ⟨w, member, rfl⟩
  rw [count, Clause.watchCount] at some
  split at some
  next watches =>
    refine watches.imp ?_ ?_
    · intro same
      rw [same, Lit.neg_neg]
    · intro same
      rw [same, Lit.neg_neg]
  next => omega

end Listed

/-- The list of `p` is being visited: `ws` holds the entries that stay and those to come. -/
structure Visiting (aside : List ClauseId) (p : Lit) (ws : Array Watcher) (e : Engine) : Prop where
  sound : (e.withList p ws).Sound aside
  apart : (e.withList p ws).FrozenApart
  clean : e.watches.dirty.get p = false
  latest : e.trail.Latest p

namespace Visiting

variable {aside : List ClauseId} {p : Lit} {ws : Array Watcher} {e : Engine}

theorem holds (h : Visiting aside p ws e) : e.trail.isTrue p = true :=
  (h.sound.trail.isTrue_iff p).mpr h.latest.mem

theorem attached (h : Visiting aside p ws e) {w : Watcher} (member : w ∈ ws) :
    (e.clause w.clause).isAttached = true ∧ w.clause ∉ aside :=
  attached_of_mem h.sound.tracked h.clean member

/-- The clause of an entry watches the opposite of `p`. -/
theorem watched (h : Visiting aside p ws e) {w : Watcher} (member : w ∈ ws) :
    p.neg = (e.clause w.clause).lit 0 ∨ p.neg = (e.clause w.clause).lit 1 :=
  watched_of_mem h.sound.tracked h.clean member

/-- Turning the clause of an entry, so that the literal visited comes second. -/
theorem orient (h : Visiting aside p ws e) {w : Watcher} (member : w ∈ ws) :
    Visiting aside p ws (e.modifyClause w.clause (Engine.orient p.neg)) ∧
      e.Extends (e.modifyClause w.clause (Engine.orient p.neg)) ∧
      ((e.modifyClause w.clause (Engine.orient p.neg)).clause w.clause).lit 1 = p.neg := by
  have used := isRemoved_of_isAttached (h.attached member).1
  have size := (h.sound.proper w.clause used).size
  rw [clause_withList] at size
  have clauses := reordered_orient used p.neg
  have fails : e.trail.isTrue p.neg = false := by
    have coherent := h.sound.trail
    refine Bool.eq_false_iff.mpr fun holds => ?_
    exact coherent.not_mem_neg h.latest.mem ((coherent.isTrue_iff _).mp holds)
  refine ⟨⟨h.sound.orient used fails, ?_, h.clean, h.latest⟩, ?_, ?_⟩
  · exact h.apart.rearranged (fun other => (clauses other).continues) (fun _ _ _ _ => rfl) rfl
  · exact .of_clauses (fun other => (clauses other).continues) rfl
  · rw [clause_modifyClause used, if_pos rfl]
    exact orient_lit_one (by omega) (h.watched member)

/-- Another blocker takes the place of the old one. -/
theorem reblock {kept : Array Watcher} {rest : List Watcher} {id : ClauseId} {blocker : Lit}
    (h : Visiting aside p (kept ++ (⟨id, blocker⟩ :: rest).toArray) e) {l : Lit}
    (inside : l ∈ (e.clause id).lits) : Visiting aside p (kept.push ⟨id, l⟩ ++ rest.toArray) e := by
  have here : (e.withList p (kept ++ (⟨id, blocker⟩ :: rest).toArray)).watches.long.get p =
      kept ++ (⟨id, blocker⟩ :: rest).toArray := by rw [long_withList, if_pos rfl]
  have same (other : ClauseId) : entriesOf other (kept.push ⟨id, l⟩ ++ rest.toArray) =
      entriesOf other (kept ++ (⟨id, blocker⟩ :: rest).toArray) := by
    rw [entriesOf_append, entriesOf_append, entriesOf_push, entriesOf_cons]
    exact Nat.add_assoc ..
  have sound := h.sound.relist (p := p) (kept.push ⟨id, l⟩ ++ rest.toArray)
  have apart := h.apart.relist (p := p) (kept.push ⟨id, l⟩ ++ rest.toArray)
  rw [here, withList_withList] at sound apart
  refine ⟨sound same ?_, apart same, h.clean, h.latest⟩
  intro w member
  simp only [Array.mem_append, Array.mem_push, List.mem_toArray, List.mem_cons] at member ⊢
  rcases member with (old | rfl) | later
  · exact .inl (.inl old)
  · exact .inr inside
  · exact .inl (.inr (.inr later))

theorem rescored (h : Visiting aside p ws e) {f : Engine} (r : e.Rescored f) :
    Visiting aside p ws f := by
  have lists : (e.withList p ws).Rescored (f.withList p ws) :=
    { r with watches := by simp only [withList, modifyWatches, r.watches] }
  refine ⟨lists.sound h.sound, lists.frozenApart h.apart, ?_, ?_⟩
  · rw [r.watches]
    exact h.clean
  · rw [r.trail]
    exact h.latest

/-- The other literals of a clause explain the first one if they are all false. -/
theorem explains (h : Visiting aside p ws e) {id : ClauseId}
    (attached : (e.clause id).isAttached = true) (second : (e.clause id).lit 1 = p.neg)
    (others : ∀ k, 2 ≤ k → k < (e.clause id).lits.size →
      e.trail.isFalse ((e.clause id).lit k) = true) :
    e.Explains (.clause id) e.trail.lits.size ((e.clause id).lit 0) := by
  have size := (h.sound.proper id (isRemoved_of_isAttached attached)).size
  rw [clause_withList] at size
  refine ⟨attached, rfl, fun q inTail => ?_,
    p.neg, Clause.mem_tail_iff.mpr ⟨1, by omega, by omega, second⟩, ?_⟩
  case refine_2 =>
    rw [Lit.neg_neg]
    exact h.sound.trail.beside_end h.latest
  obtain ⟨i, positive, inside, rfl⟩ := Clause.mem_tail_iff.mp inTail
  rw [← Trail.mem_iff_before]
  refine (h.sound.trail.isFalse_iff _).mp ?_
  by_cases one : i = 1
  · rw [one, second, Trail.isFalse_neg]
    exact h.holds
  · exact others i (by omega) inside

theorem assign (h : Visiting aside p ws e) {l : Lit} {why : Reason}
    (undecided : e.trail.value l.var = .undecided) (bound : l.var.index < e.numVars)
    (explained : e.Explains why e.trail.lits.size l) : Visiting aside p ws (e.assign l why) where
  sound := h.sound.assign undecided bound explained
  apart := { h.apart with }
  clean := h.clean
  latest :=
    { mem := Array.mem_push_of_mem _ h.latest.mem
      level := by
        change (e.trail.assign l why).levelOf p.var = _
        rw [Trail.levelOf_assign, if_neg (h.sound.trail.var_ne undecided h.latest.mem).symm]
        exact h.latest.level }

/-- Every visit keeps the engine sound, and only extends it. -/
theorem visit {kept kept' : Array Watcher} {rest : List Watcher} {entry : Watcher} {f : Engine}
    {conflict : Option Conflict} (h : Visiting aside p (kept ++ (entry :: rest).toArray) e)
    (visited : Visited p.neg entry kept e (f, kept', conflict)) :
    Visiting aside p (kept' ++ rest.toArray) f ∧ e.Extends f ∧
      ∀ c, conflict = some c → f.Falsifies p.neg c := by
  have member : entry ∈ kept ++ (entry :: rest).toArray := by simp
  have turn := h.orient member
  -- The clause is turned first, so that its false literal comes second.
  generalize turning : e.modifyClause entry.clause (Engine.orient p.neg) = o at turn
  obtain ⟨turned, extends_o, second⟩ := turn
  have isAttached := (turned.attached member).1
  have used := isRemoved_of_isAttached isAttached
  have proper : (o.clause entry.clause).Proper o.numVars := turned.sound.proper entry.clause used
  have size := proper.size
  have first_mem : (o.clause entry.clause).lit 0 ∈ (o.clause entry.clause).lits :=
    Clause.lit_mem (by omega)
  have fails : o.trail.isFalse p.neg = true := by
    rw [Trail.isFalse_neg]
    exact turned.holds
  cases visited with
  | skipped holds =>
    refine ⟨?_, .refl e, nofun⟩
    rw [show kept.push entry ++ rest.toArray = kept ++ (entry :: rest).toArray by simp]
    exact h
  | satisfied oriented holds =>
    cases oriented.trans turning
    exact ⟨turned.reblock first_mem, extends_o, nofun⟩
  | @moved _ oriented k low high usable =>
    cases oriented.trans turning
    have ne : (o.clause entry.clause).lit k ≠ p.neg := fun same => by
      rw [same, fails] at usable
      cases usable
    have clauses := reordered_swap used 1 k
    refine ⟨⟨?_, ?_, turned.clean, turned.latest⟩, extends_o.trans ?_, nofun⟩
    · exact turned.sound.moveWatch isAttached (turned.attached member).2 second low high
    · exact turned.apart.moveWatch isAttached ne
    · exact .of_clauses (fun other => (clauses other).continues) rfl
  | implied oriented others undecided rescored =>
    cases oriented.trans turning
    -- All other literals are false, so that the clause is a reason for its first one.
    have explained := turned.explains isAttached second others
    have assigned := (turned.reblock first_mem).assign undecided (proper.bounded _ first_mem)
      explained
    have absent := fun m => turned.sound.trail.var_ne undecided (m := m)
    have grown := Extends.assign o absent (nofun : Reason.clause entry.clause ≠ .decision)
    exact ⟨assigned.rescored rescored, (extends_o.trans grown).trans (.of_rescored rescored), nofun⟩
  | falsified oriented others isFalse =>
    cases oriented.trans turning
    refine ⟨turned.reblock first_mem, extends_o, ?_⟩
    rintro c ⟨⟩
    refine ⟨used, ?_, fun l inside => ?_⟩
    · rw [← second]
      exact Clause.lit_mem (by omega)
    · -- Each literal is false: the first, the second, or one that was passed in search of a watch.
      obtain ⟨i, bound, rfl⟩ := Array.mem_iff_getElem.mp inside
      rw [← Clause.lit_eq_getElem bound]
      by_cases zero : i = 0
      · rw [zero]
        exact isFalse
      · by_cases one : i = 1
        · rw [one, second]
          exact fails
        · exact others i (by omega) bound

/-- Visiting a list of entries keeps the engine sound. -/
theorem visitWatched {rest : List Watcher} {kept kept' : Array Watcher} {f : Engine}
    {conflict : Option Conflict} (h : Visiting aside p (kept ++ rest.toArray) e)
    (result : Engine.visitWatched p.neg rest kept e = (f, kept', conflict)) :
    Visiting aside p kept' f ∧ e.Extends f ∧ ∀ c, conflict = some c → f.Falsifies p.neg c := by
  induction rest generalizing kept e with
  | nil =>
    cases result
    rw [Array.append_empty] at h
    exact ⟨h, .refl _, nofun⟩
  | cons entry rest ih =>
    have member : entry ∈ kept ++ (entry :: rest).toArray := by simp
    have visited := visitEntry_cases p.neg entry kept
      (isRemoved_of_isAttached (h.attached member).1)
    rw [visitWatched_cons] at result
    generalize visitEntry p.neg entry kept e = step at result visited
    obtain ⟨g, between, _ | c⟩ := step
    · obtain ⟨visiting, extends_g, _⟩ := h.visit visited
      obtain ⟨final, extends_f, falsifies⟩ := ih visiting result
      exact ⟨final, extends_g.trans extends_f, falsifies⟩
    · cases result
      exact h.visit visited

end Visiting

variable {aside : List ClauseId} {p : Lit} {e f : Engine} {conflict : Option Conflict}

/-- Once its list is cleaned, the visit of a literal may begin. -/
theorem visiting_cleaned (h : e.Sound aside) (apart : e.FrozenApart) (latest : e.trail.Latest p) :
    (e.modifyWatches (·.cleanIfDirty e.arena p)).Sound aside ∧
      Visiting aside p
        (#[] ++ ((e.modifyWatches (·.cleanIfDirty e.arena p)).watches.long.get p).toList.toArray)
        (e.modifyWatches (·.cleanIfDirty e.arena p)) := by
  have cleaned := Watches.cleanIfDirty_cleaned e.watches e.arena p
  have listed : ∀ q, (e.watches.cleanIfDirty e.arena p).dirty.get q = true →
      q ∈ (e.watches.cleanIfDirty e.arena p).dirtyKeys := by
    intro q dirty
    rw [Watches.dirtyKeys_cleanIfDirty]
    exact h.tracked.listed q (cleaned.dirty q dirty)
  have sound := h.cleaned (f := (·.cleanIfDirty e.arena p)) cleaned listed
  have stillApart := apart.cleaned (f := (·.cleanIfDirty e.arena p)) cleaned
  have clean : (e.modifyWatches (·.cleanIfDirty e.arena p)).watches.dirty.get p = false :=
    Watches.dirty_cleanIfDirty e.watches e.arena p
  simp only [Array.toArray_toList, Array.empty_append]
  exact ⟨sound, sound.relist _ (fun _ => rfl) (fun w member => .inl member),
    stillApart.relist _ (fun _ => rfl), clean, latest⟩

/-- Visiting the watched clauses of a literal means cleaning its list, and visiting the entries that
are left. -/
theorem propagateWatched_visits (h : e.Sound aside) (apart : e.FrozenApart)
    (latest : e.trail.Latest p) (result : e.propagateWatched p = (f, conflict)) :
    ∃ g k kept, Visiting aside p (#[] ++ (g.watches.long.get p).toList.toArray) g ∧ e.Extends g ∧
      g.trail = e.trail ∧ g.arena = e.arena ∧ g.Sound aside ∧
      visitWatched p.neg (g.watches.long.get p).toList #[] g = (k, kept, conflict) ∧
      f = k.withList p kept := by
  have cleaned := Watches.cleanIfDirty_cleaned e.watches e.arena p
  generalize run : visitWatched p.neg
    ((e.modifyWatches (·.cleanIfDirty e.arena p)).watches.long.get p).toList #[]
    (e.modifyWatches (·.cleanIfDirty e.arena p)) = final
  obtain ⟨k, kept, outcome⟩ := final
  unfold propagateWatched at result
  dsimp only at result
  rw [run] at result
  cases result
  obtain ⟨sound, visiting⟩ := visiting_cleaned h apart latest
  exact ⟨_, k, kept, visiting, .of_clauses (fun _ => .refl _) cleaned.binary, rfl, rfl, sound, run, rfl⟩

theorem propagateWatched_sound (h : e.Sound aside) (apart : e.FrozenApart)
    (latest : e.trail.Latest p) (result : e.propagateWatched p = (f, conflict)) :
    f.Sound aside ∧ f.FrozenApart ∧ e.Extends f ∧ ∀ c, conflict = some c → f.Falsifies p.neg c := by
  obtain ⟨g, k, kept, visiting, extends_g, _, _, _, run, rfl⟩ :=
    propagateWatched_visits h apart latest result
  obtain ⟨final, extends_k, falsifies⟩ := visiting.visitWatched run
  refine ⟨final.sound, final.apart, (extends_g.trans extends_k).trans ?_, falsifies⟩
  exact .of_clauses (fun _ => .refl _) rfl

/-! ### Clauses of two literals -/

theorem visitBinary_sound {others : List Lit} (h : e.Sound aside) (apart : e.FrozenApart)
    (latest : e.trail.Latest p) (stored : ∀ q ∈ others, q ∈ e.watches.binary.get p)
    (result : visitBinary p.neg others e = (f, conflict)) :
    f.Sound aside ∧ f.FrozenApart ∧ e.Extends f ∧ ∀ c, conflict = some c → f.Falsifies p.neg c := by
  induction others generalizing e with
  | nil =>
    cases result
    exact ⟨h, apart, .refl _, nofun⟩
  | cons q others ih =>
    have here := stored q List.mem_cons_self
    have later := fun r member => stored r (List.mem_cons_of_mem _ member)
    unfold visitBinary at result
    split at result
    next => exact ih h apart latest later result
    next fails =>
      cases result
      refine ⟨h, apart, .refl _, ?_⟩
      rintro c ⟨⟩
      refine ⟨rfl, ?_, (Trail.valueLit_eq_no_iff _ _).mp fails, ?_⟩
      · rw [Lit.neg_neg]
        exact here
      · rw [Trail.isFalse_neg]
        exact (h.trail.isTrue_iff p).mpr latest.mem
    next undecided =>
      rw [Trail.valueLit_eq_undecided_iff] at undecided
      have absent := fun m => h.trail.var_ne undecided (m := m)
      have explained : e.Explains (.binary p.neg) e.trail.lits.size q := by
        refine ⟨?_, ?_⟩
        · rw [Lit.neg_neg]
          exact here
        · rw [Lit.neg_neg]
          exact h.trail.beside_end latest
      have assigned := h.assign undecided (h.binary_bounded p q here).2 explained
      -- The literal is implied by the pair, and `p` remains the one that is visited.
      have grown := Extends.assign e absent (nofun : Reason.binary p.neg ≠ .decision)
      have stillLatest := grown.latest h.trail assigned.trail latest
      obtain ⟨sound, stillApart, extends_f, falsifies⟩ := ih assigned { apart with } stillLatest later result
      exact ⟨sound, stillApart, grown.trans extends_f, falsifies⟩

/-! ### Frozen clauses -/

theorem Sound.frozenLists (h : e.Sound aside) {w : Watches} (long : w.long = e.watches.long)
    (dirty : w.dirty = e.watches.dirty) (dirtyKeys : w.dirtyKeys = e.watches.dirtyKeys)
    (binary : w.binary = e.watches.binary) (fallback : w.frozen.fallback = #[]) :
    ({ e with watches := w } : Engine).Sound aside := by
  refine h.rearranged binary (long ▸ h.inside) (fun _ => .refl _) (fun _ _ => .inl rfl) ?_
    (long ▸ h.blockers) ?_
  · exact
      { exact := long ▸ h.tracked.exact
        usable := h.tracked.usable
        aside := long ▸ h.tracked.aside
        stale := by rw [long, dirty]; exact h.tracked.stale
        listed := by rw [dirty, dirtyKeys]; exact h.tracked.listed }
  · exact ⟨long ▸ h.blank.long, dirty ▸ h.blank.dirty, binary ▸ h.blank.binary, fallback⟩

theorem sound_pushFrozen (h : e.Sound aside) (key : Lit) (x : Watcher) :
    (e.modifyWatches (·.pushFrozen key x)).Sound aside :=
  h.frozenLists rfl rfl rfl rfl (by simp [Watches.pushFrozen, h.blank.frozen])

theorem frozenApart_pushFrozen (apart : e.FrozenApart) {id : ClauseId} {l m : Lit}
    (inside : l ∈ (e.clause id).lits) (other : m ∈ (e.clause id).lits) :
    (e.modifyWatches (·.pushFrozen l.neg ⟨id, m⟩)).FrozenApart :=
  { apart with
    entries := by
      intro q w member used frozen
      rcases Watches.mem_pushFrozen.mp member with old | ⟨rfl, rfl⟩
      · exact apart.entries q w old used frozen
      · rw [Lit.neg_neg]
        exact ⟨inside, other⟩ }

theorem FrozenApart.rehung {entries : List Watcher} {lists : DenseMap Lit (Array Watcher)}
    (apart : e.FrozenApart) (rehung : Rehung p.neg entries e lists)
    (watch : ∀ w ∈ entries, (e.clause w.clause).isRemoved = false →
      (e.clause w.clause).isFrozen = true →
      p.neg ∈ (e.clause w.clause).lits ∧ w.blocker ∈ (e.clause w.clause).lits) :
    (e.withFrozen lists).FrozenApart where
  unwatched := apart.unwatched
  entries := by
    intro q w member used frozen
    rcases rehung.moved q w member with old | ⟨entry, listed, live, isFrozen, rfl, inside⟩
    · exact apart.entries q w old used frozen
    · obtain ⟨here, blocker⟩ := watch entry listed live isFrozen
      rcases inside with same | inside
      · exact ⟨same ▸ blocker, here⟩
      · exact ⟨inside, here⟩

theorem bringHighest_perm (t : Trail) (i : Nat) (lits : Array Lit) :
    (t.bringHighest i lits).toList.Perm lits.toList :=
  Clause.swapIfInBounds_perm ..

/-- What thawing a falsified clause makes of it. -/
def thawedByConflict (t : Trail) (c : Clause) : Clause :=
  (c.setLits (t.bringHighest 1 (t.bringHighest 0 c.lits))).setFrozen false

theorem continues_thawedByConflict (t : Trail) (c : Clause) : c.Continues (thawedByConflict t c) where
  lits := (bringHighest_perm ..).trans (bringHighest_perm ..)
  removed := rfl
  learnt := Clause.isLearnt_setFrozen ..
  frozen := by simp [thawedByConflict, Clause.isFrozen_setFrozen]
  relocated := rfl

theorem isFrozen_thawedByConflict (t : Trail) (c : Clause) :
    (thawedByConflict t c).isFrozen = false := by
  simp [thawedByConflict, Clause.isFrozen_setFrozen]

/-- But for the counts, thawing a clause means to change it and to watch it. -/
theorem rescored_thawFalsified (e : Engine) (id : ClauseId) :
    ((e.modifyClause id (thawedByConflict e.trail)).attach id).Rescored (e.thawFalsified id) := by
  have counted (k : Engine) (tally : Tally → Tally) (stats : Statistics → Statistics) :
      k.Rescored ((k.modifyTally tally).modifyStats stats) := { Rescored.refl k with }
  unfold thawFalsified
  exact counted ((e.modifyClause id (thawedByConflict e.trail)).attach id) _ _

theorem trail_thawFalsified (e : Engine) (id : ClauseId) : (e.thawFalsified id).trail = e.trail := by
  dsimp only [thawFalsified, modifyStats, modifyTally, attach, modifyWatches, modifyClause]

theorem extends_thawFalsified {id : ClauseId} (used : (e.clause id).isRemoved = false) :
    e.Extends (e.thawFalsified id) := by
  have changed : e.Extends ((e.modifyClause id (thawedByConflict e.trail)).attach id) := by
    refine .of_clauses (fun other => ?_) rfl
    change (e.clause other).Continues ((e.modifyClause id (thawedByConflict e.trail)).clause other)
    rw [clause_modifyClause used]
    split
    · exact continues_thawedByConflict _ _
    · exact .refl _
  exact changed.trans (.of_rescored (rescored_thawFalsified e id))

theorem FrozenApart.thawFalsified (apart : e.FrozenApart) {id : ClauseId}
    (used : (e.clause id).isRemoved = false) : (e.thawFalsified id).FrozenApart :=
  (rescored_thawFalsified e id).frozenApart
    (apart.thaw used (continues_thawedByConflict _ _) (isFrozen_thawedByConflict _ _))

/-- A falsified frozen clause is put back to work. -/
theorem Sound.thawFalsified (h : e.Sound aside) (apart : e.FrozenApart) {id : ClauseId}
    (used : (e.clause id).isRemoved = false) (frozen : (e.clause id).isFrozen = true)
    (fails : ∀ l ∈ (e.clause id).lits, e.trail.isFalse l = true) :
    (e.thawFalsified id).Sound aside := by
  have size := (h.proper id used).size
  have first := Trail.isTrue_of_isFalse (fails _ (Clause.lit_mem (i := 0) (by omega)))
  exact (rescored_thawFalsified e id).sound
    (h.thaw used frozen (apart.unwatched id used frozen) (continues_thawedByConflict _ _)
      (isFrozen_thawedByConflict _ _) (.inr first))

theorem extends_withFrozen (e : Engine) (lists : DenseMap Lit (Array Watcher)) :
    e.Extends (e.withFrozen lists) := .of_clauses (fun _ => .refl _) rfl

/-- The clause that is thawed is falsified. -/
theorem falsifies_thawFalsified {id : ClauseId} (used : (e.clause id).isRemoved = false)
    (here : p.neg ∈ (e.clause id).lits)
    (fails : ∀ l ∈ (e.clause id).lits, e.trail.isFalse l = true) :
    (e.thawFalsified id).Falsifies p.neg (.clause id) := by
  have continues := (extends_thawFalsified used).clauses id
  refine ⟨continues.removed.trans used, (continues.mem _).mpr here, fun l inside => ?_⟩
  rw [trail_thawFalsified]
  exact fails l ((continues.mem l).mp inside)

/-- What the visit of the frozen clauses of a literal can come to. -/
inductive PropagatedFrozen (p : Lit) (e : Engine) : Engine × Option Conflict → Prop
  | moved (lists : DenseMap Lit (Array Watcher)) (apart : (e.withFrozen lists).FrozenApart)
    (fallback : lists.fallback = e.watches.frozen.fallback) (emptied : lists.get p = #[])
    (others : ∀ q, e.trail.isTrue q = true → q ≠ p → lists.get q = e.watches.frozen.get q) :
    PropagatedFrozen p e (e.withFrozen lists, none)
  | falsified (lists : DenseMap Lit (Array Watcher)) (apart : (e.withFrozen lists).FrozenApart)
    (fallback : lists.fallback = e.watches.frozen.fallback) {id : ClauseId}
    (used : (e.clause id).isRemoved = false) (frozen : (e.clause id).isFrozen = true)
    (here : p.neg ∈ (e.clause id).lits)
    (fails : ∀ l ∈ (e.clause id).lits, e.trail.isFalse l = true) :
    PropagatedFrozen p e ((e.withFrozen lists).thawFalsified id, some (.clause id))

/-- Entries that were in the list of `p` may be left in it. -/
theorem FrozenApart.insert {lists : DenseMap Lit (Array Watcher)}
    (apart : (e.withFrozen lists).FrozenApart) {left : Array Watcher}
    (watch : ∀ w ∈ left, (e.clause w.clause).isRemoved = false →
      (e.clause w.clause).isFrozen = true →
      p.neg ∈ (e.clause w.clause).lits ∧ w.blocker ∈ (e.clause w.clause).lits) :
    (e.withFrozen (lists.insert p left)).FrozenApart where
  unwatched := apart.unwatched
  entries := by
    intro q w member used frozen
    change w ∈ (lists.insert p left).get q at member
    rw [DenseMap.get_insert] at member
    split at member
    next here => exact here ▸ watch w member used frozen
    next => exact apart.entries q w member used frozen

/-- Thawing a clause leaves the lists of frozen clauses alone. -/
theorem setFrozen_thawFalsified (e : Engine) (lists : DenseMap Lit (Array Watcher)) (id : ClauseId)
    (p : Lit) (left : Array Watcher) :
    ((e.withFrozen lists).thawFalsified id).modifyWatches (·.setFrozen p left) =
      (e.withFrozen (lists.insert p left)).thawFalsified id := by
  dsimp only [thawFalsified, modifyStats, modifyTally, attach, modifyWatches, modifyClause, withFrozen,
    clause, Watches.watch, Watches.pushLong, Watches.setFrozen]

theorem propagateFrozen_cases (apart : e.FrozenApart) (p : Lit) :
    PropagatedFrozen p e (e.propagateFrozen p) := by
  have watch : ∀ w ∈ (e.watches.frozen.get p).toList, (e.clause w.clause).isRemoved = false →
      (e.clause w.clause).isFrozen = true →
      p.neg ∈ (e.clause w.clause).lits ∧ w.blocker ∈ (e.clause w.clause).lits :=
    fun w member => apart.entries p w (Array.mem_toList_iff.mp member)
  unfold propagateFrozen
  dsimp only
  split
  next empty =>
    exact .moved e.watches.frozen apart rfl (Array.isEmpty_iff.mp empty) fun _ _ _ => rfl
  next =>
    have visited := visitFrozen_cases p.neg (e.watches.frozen.get p).toList e
    generalize visitFrozen p.neg (e.watches.frozen.get p).toList e = final at visited
    cases visited with
    | @moved lists rehung =>
      refine .moved (lists.insert p #[]) ?_ ?_ ?_ fun q holds ne => ?_
      · exact (apart.rehung rehung watch).insert nofun
      · exact (DenseMap.fallback_insert ..).trans rehung.fallback
      · rw [DenseMap.get_insert, if_pos rfl]
      · rw [DenseMap.get_insert, if_neg ne.symm]
        exact rehung.visited q holds
    | @falsified lists rehung entry member left later used frozen fails =>
      rw [setFrozen_thawFalsified]
      refine .falsified (lists.insert p left.toArray) ?_ ?_ used frozen
        (watch entry member used frozen).1 fails
      · refine (apart.rehung rehung watch).insert fun w listed => ?_
        exact watch w (later w (List.mem_toArray.mp listed))
      · exact (DenseMap.fallback_insert ..).trans rehung.fallback

theorem Sound.withFrozen (h : e.Sound aside) {lists : DenseMap Lit (Array Watcher)}
    (fallback : lists.fallback = e.watches.frozen.fallback) : (e.withFrozen lists).Sound aside :=
  h.frozenLists rfl rfl rfl rfl (fallback.trans h.blank.frozen)

theorem propagateFrozen_sound (h : e.Sound aside) (apart : e.FrozenApart)
    (result : e.propagateFrozen p = (f, conflict)) :
    f.Sound aside ∧ f.FrozenApart ∧ e.Extends f ∧ ∀ c, conflict = some c → f.Falsifies p.neg c := by
  have visited := propagateFrozen_cases apart p
  rw [result] at visited
  cases visited with
  | moved lists apart fallback => exact ⟨h.withFrozen fallback, apart, extends_withFrozen e _, nofun⟩
  | falsified lists apart fallback used frozen here fails =>
    refine ⟨(h.withFrozen fallback).thawFalsified apart used frozen fails, apart.thawFalsified used,
      (extends_withFrozen e _).trans (extends_thawFalsified used), ?_⟩
    rintro c ⟨⟩
    exact falsifies_thawFalsified used here fails

/-! ### Propagation -/

theorem propagateLit_sound (h : e.Sound aside) (apart : e.FrozenApart)
    (latest : e.trail.Latest p) (result : e.propagateLit p = (f, conflict)) :
    f.Sound aside ∧ f.FrozenApart ∧ e.Extends f ∧ ∀ c, conflict = some c → f.Falsifies p.neg c := by
  have stored : ∀ q ∈ (e.watches.binary.get p).toList, q ∈ e.watches.binary.get p := fun q member =>
    Array.mem_toList_iff.mp member
  cases propagateLit_cases result with
  | binary first => exact visitBinary_sound h apart latest stored first
  | watched first second =>
    obtain ⟨sound_g, apart_g, extends_g, -⟩ := visitBinary_sound h apart latest stored first
    have latest_g := extends_g.latest h.trail sound_g.trail latest
    obtain ⟨sound, stillApart, grown, falsifies⟩ := propagateWatched_sound sound_g apart_g latest_g second
    exact ⟨sound, stillApart, extends_g.trans grown, falsifies⟩
  | frozen first second third =>
    obtain ⟨sound_g, apart_g, extends_g, -⟩ := visitBinary_sound h apart latest stored first
    have latest_g := extends_g.latest h.trail sound_g.trail latest
    obtain ⟨sound_k, apart_k, extends_k, -⟩ := propagateWatched_sound sound_g apart_g latest_g second
    obtain ⟨sound, stillApart, grown, falsifies⟩ := propagateFrozen_sound sound_k apart_k third
    exact ⟨sound, stillApart, (extends_g.trans extends_k).trans grown, falsifies⟩

/-- The position that propagation has reached is not moved by visits. -/
theorem VisitEffect.head (effect : VisitEffect e f) : f.trail.head = e.trail.head := by
  cases effect with
  | assign | orient | swap | watch => rfl
  | refresh id => rw [(rescored_refreshLbd e id).trail]
  | thaw id => rw [trail_thawFalsified]

theorem head_propagateLit (result : e.propagateLit p = (f, conflict)) :
    f.trail.head = e.trail.head := by
  have effects := propagateLit_effects result
  clear result
  induction effects with
  | refl => rfl
  | tail _ effect ih => exact effect.head.trans ih

/-- The conflict is a stored clause of false literals, one of the current level among them. -/
def IsConflict (e : Engine) (c : Conflict) : Prop :=
  ∃ p, p ∈ e.trail.lits ∧ e.trail.levelOf p.var = e.trail.level ∧ e.Falsifies p.neg c

/-- The next literal of the queue is one of the last level. -/
theorem dequeue_sound (h : e.Sound aside) (apart : e.FrozenApart)
    (at_head : e.trail.lits[e.trail.head]? = some p) :
    e.dequeue.Sound aside ∧ e.dequeue.FrozenApart ∧ e.Extends e.dequeue ∧
      e.dequeue.trail.Latest p := by
  have waiting : e.trail.head < e.trail.lits.size := (Array.getElem?_eq_some_iff.mp at_head).1
  have latest := h.trail.latest_of_head_le (Nat.le_refl _) at_head
  exact ⟨{ h with trail := h.trail.advance waiting }, { apart with }, { Extends.refl e with },
    ⟨latest.mem, latest.level⟩⟩

theorem skipQueue_sound (h : e.Sound aside) (apart : e.FrozenApart) :
    (e.modifyTrail Trail.skipQueue).Sound aside ∧ (e.modifyTrail Trail.skipQueue).FrozenApart ∧
      e.Extends (e.modifyTrail Trail.skipQueue) :=
  ⟨{ h with trail := h.trail.skipQueue }, { apart with }, { Extends.refl e with }⟩

theorem propagateFrom_sound {n : Nat} (h : e.Sound aside) (apart : e.FrozenApart)
    (result : propagateFrom n e = (f, conflict)) :
    f.Sound aside ∧ f.FrozenApart ∧ e.Extends f ∧
      (conflict = none → f.trail.head = f.trail.lits.size ∨ e.trail.head + n ≤ f.trail.head) ∧
      ∀ c, conflict = some c → f.IsConflict c := by
  have run := propagates result
  clear result
  induction run with
  | spent => exact ⟨h, apart, .refl _, fun _ => .inr (Nat.le_refl _), nofun⟩
  | idle done =>
    have all := Array.getElem?_eq_none_iff.mp done
    exact ⟨h, apart, .refl _, fun _ => .inl (Nat.le_antisymm h.trail.head_le all), nofun⟩
  | @next n e g f p conflict at_head run _ ih =>
    obtain ⟨sound_a, apart_a, extends_a, latest⟩ := dequeue_sound h apart at_head
    obtain ⟨sound_g, apart_g, extends_g, -⟩ := propagateLit_sound sound_a apart_a latest run
    obtain ⟨sound, stillApart, grown, done, isConflict⟩ := ih sound_g apart_g
    refine ⟨sound, stillApart, (extends_a.trans extends_g).trans grown, fun none => ?_, isConflict⟩
    have head := head_propagateLit run
    rw [head_dequeue] at head
    exact (done none).imp_right fun le => by omega
  | @clash n e g p c at_head run =>
    obtain ⟨sound_a, apart_a, extends_a, latest⟩ := dequeue_sound h apart at_head
    obtain ⟨sound_g, apart_g, extends_g, falsifies⟩ := propagateLit_sound sound_a apart_a latest run
    obtain ⟨sound, stillApart, extends_s⟩ := skipQueue_sound sound_g apart_g
    refine ⟨sound, stillApart, (extends_a.trans extends_g).trans extends_s, nofun, ?_⟩
    rintro _ ⟨⟩
    -- The literal propagated is still of the last level, and the conflict has its opposite.
    have stillLatest := (extends_g.trans extends_s).latest sound_a.trail sound.trail latest
    refine ⟨p, stillLatest.mem, stillLatest.level, ?_⟩
    have old := falsifies c rfl
    cases c <;> exact old

/-- Propagation keeps the engine sound and only extends it. Without a conflict nothing is left to
propagate. -/
theorem propagate_sound (h : e.Sound aside) (apart : e.FrozenApart)
    (result : e.propagate = (f, conflict)) :
    f.Sound aside ∧ f.FrozenApart ∧ e.Extends f ∧
      (conflict = none → f.trail.head = f.trail.lits.size) ∧
      ∀ c, conflict = some c → f.IsConflict c := by
  obtain ⟨sound, stillApart, grown, done, isConflict⟩ := propagateFrom_sound h apart result
  refine ⟨sound, stillApart, grown, fun none => ?_, isConflict⟩
  have bound := sound.trail.size_le
  have head_le := sound.trail.head_le
  rw [grown.numVars] at bound
  rcases done none with all | exhausted <;> omega

end Engine

end Cdcl
