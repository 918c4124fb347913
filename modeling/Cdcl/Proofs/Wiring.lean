import Cdcl.Proofs.PropagationSound

/-!
# Wired engines

What propagation needs, apart from levels and reasons: the values say what is on the trail, and the
watch lists match the clauses. A blocker need not be a literal of its clause, as long as it cannot
become true before the clause does.

## Main results

- `Assigns.flat`: a trail whose values say what is on it is coherent, taken as one of facts.
- `Wired.moveWatch`, `Wired.assign`, `Wired.thawFalsified`: the steps of propagation keep an engine
  wired.
-/

namespace Cdcl

namespace Trail

/-- The values say what is on the trail, where no variable is twice; levels and reasons are left
open. -/
structure Assigns (n : Nat) (t : Trail) : Prop where
  bounded : ∀ l ∈ t.lits, l.var.index < n
  distinct : ∀ {i j : Nat} {l m : Lit},
    t.lits[i]? = some l → t.lits[j]? = some m → l.var = m.var → i = j
  isTrue_iff : ∀ l, t.isTrue l = true ↔ l ∈ t.lits
  head_le : t.head ≤ t.lits.size

/-- The trail with all of it at level zero. -/
def flat (t : Trail) : Trail := { lits := t.lits, head := t.head, values := t.values }

theorem Coherent.assigns {n : Nat} {t : Trail} (h : t.Coherent n) : t.Assigns n :=
  ⟨h.bounded, h.distinct, h.isTrue_iff, h.head_le⟩

namespace Assigns

variable {n : Nat} {t : Trail}

theorem flat (h : t.Assigns n) : t.flat.Coherent n where
  bounded := h.bounded
  distinct := h.distinct
  isTrue_iff := h.isTrue_iff
  sorted := .nil
  marks_le := fun m member => by cases Array.not_mem_empty m member
  head_le := h.head_le
  level_eq := fun _ => rfl

theorem isFalse_iff (h : t.Assigns n) (l : Lit) : t.isFalse l = true ↔ l.neg ∈ t.lits :=
  h.flat.isFalse_iff l

theorem not_mem_neg (h : t.Assigns n) {l : Lit} (member : l ∈ t.lits) : l.neg ∉ t.lits :=
  h.flat.not_mem_neg member

theorem var_ne (h : t.Assigns n) {l m : Lit} (unassigned : t.value l.var = .undecided)
    (member : m ∈ t.lits) : m.var ≠ l.var :=
  h.flat.var_ne unassigned member

theorem size_le (h : t.Assigns n) : t.lits.size ≤ n := h.flat.size_le

theorem assign (h : t.Assigns n) {l : Lit} (why : Reason)
    (unassigned : t.value l.var = .undecided) (bound : l.var.index < n) :
    (t.assign l why).Assigns n :=
  have assigned := (h.flat.assign why unassigned bound).assigns
  ⟨assigned.bounded, assigned.distinct, assigned.isTrue_iff, assigned.head_le⟩

end Assigns

end Trail

namespace Engine

variable {aside : List ClauseId} {e f g : Engine} {id : ClauseId} {p : Lit}

theorem isSatisfied_iff :
    e.isSatisfied id = true ↔ ∃ l ∈ (e.clause id).lits, e.trail.isTrue l = true := by
  rw [isSatisfied, Trail.satisfies, Array.any_eq_true']

namespace Extends

variable {n m : Nat}

theorem isTrue_of_assigns (h : e.Extends f) (before : e.trail.Assigns n) (after : f.trail.Assigns m)
    {l : Lit} (holds : e.trail.isTrue l = true) : f.trail.isTrue l = true :=
  (after.isTrue_iff l).mpr (h.mem ((before.isTrue_iff l).mp holds))

theorem isFalse_of_assigns (h : e.Extends f) (before : e.trail.Assigns n) (after : f.trail.Assigns m)
    {l : Lit} (fails : e.trail.isFalse l = true) : f.trail.isFalse l = true := by
  rw [← Trail.isTrue_neg] at *
  exact h.isTrue_of_assigns before after fails

theorem isSatisfied (h : e.Extends f) (before : e.trail.Assigns n) (after : f.trail.Assigns m)
    (satisfied : e.isSatisfied id = true) : f.isSatisfied id = true := by
  obtain ⟨l, inside, holds⟩ := isSatisfied_iff.mp satisfied
  exact isSatisfied_iff.mpr
    ⟨l, ((h.clauses id).mem l).mpr inside, h.isTrue_of_assigns before after holds⟩

end Extends

/-- Propagation without a conflict: as in `Extends`, but no clause is thawed. -/
structure Unthawed (e f : Engine) : Prop extends e.Extends f where
  attached : ∀ id, (f.clause id).isAttached = (e.clause id).isAttached

namespace Unthawed

theorem refl (e : Engine) : e.Unthawed e := ⟨.refl e, fun _ => rfl⟩

theorem trans (h : e.Unthawed f) (k : f.Unthawed g) : e.Unthawed g :=
  ⟨h.toExtends.trans k.toExtends, fun id => (k.attached id).trans (h.attached id)⟩

theorem of_rescored (h : e.Rescored f) : e.Unthawed f :=
  ⟨.of_rescored h, fun id => (h.alike id).reordered.attached⟩

theorem of_clauses {arena : ClauseArena} {watches : Watches}
    (clauses : ∀ id, (e.clause id).Reordered (arena.get id))
    (binary : watches.binary = e.watches.binary) : e.Unthawed { e with arena, watches } :=
  ⟨.of_clauses (fun id => (clauses id).continues) binary, fun id => (clauses id).attached⟩

theorem assign {l : Lit} {why : Reason} (unassigned : ∀ m ∈ e.trail.lits, m.var ≠ l.var)
    (implied : why ≠ .decision) : e.Unthawed (e.assign l why) :=
  ⟨.assign e unassigned implied, fun _ => rfl⟩

theorem isFrozen (h : e.Unthawed f) (used : (e.clause id).isRemoved = false) :
    (f.clause id).isFrozen = (e.clause id).isFrozen := by
  have same := h.attached id
  rw [Clause.isAttached, Clause.isAttached, (h.clauses id).removed, used] at same
  simpa using same

end Unthawed

/-! ### Wired engines -/

/-- As long as the trail only grows, the blocker is not true unless the clause is. -/
def Vouches (e : Engine) (w : Watcher) : Prop :=
  w.blocker ∈ (e.clause w.clause).lits ∨ e.trail.isFalse w.blocker = true ∨
    e.isSatisfied w.clause = true

/-- The values say what is on the trail, and the watch lists match the clauses. -/
structure Wired (aside : List ClauseId) (e : Engine) : Prop where
  trail : e.trail.Assigns e.numVars
  proper : ∀ id, (e.clause id).isRemoved = false → (e.clause id).Proper e.numVars
  binary_bounded : ∀ p, ∀ q ∈ e.watches.binary.get p,
    p.var.index < e.numVars ∧ q.var.index < e.numVars
  tracked : e.watches.Tracks e.clause aside
  inside : ∀ p, ∀ w ∈ e.watches.long.get p, w.clause.slot < e.arena.clauses.size
  blockers : ∀ p, ∀ w ∈ e.watches.long.get p, (e.clause w.clause).isAttached = true → e.Vouches w
  apart : e.FrozenApart

theorem Vouches.isSatisfied {w : Watcher} (h : e.Vouches w)
    (holds : e.trail.isTrue w.blocker = true) : e.isSatisfied w.clause = true := by
  rcases h with inside | fails | satisfied
  · exact isSatisfied_iff.mpr ⟨w.blocker, inside, holds⟩
  · rw [Trail.isTrue_of_isFalse fails] at holds
    cases holds
  · exact satisfied

theorem Vouches.extends {n m : Nat} {w : Watcher} (h : e.Vouches w) (grown : e.Extends f)
    (before : e.trail.Assigns n) (after : f.trail.Assigns m) : f.Vouches w := by
  rcases h with inside | fails | satisfied
  · exact .inl (((grown.clauses w.clause).mem _).mpr inside)
  · exact .inr (.inl (grown.isFalse_of_assigns before after fails))
  · exact .inr (.inr (grown.isSatisfied before after satisfied))

/-- A sound engine is wired. -/
theorem Sound.wired (h : e.Sound aside) (apart : e.FrozenApart) : e.Wired aside where
  trail := h.trail.assigns
  proper := h.proper
  binary_bounded := h.binary_bounded
  tracked := h.tracked
  inside := h.inside
  blockers := fun p w member attached => by
    refine (h.blockers p w member attached).imp_right fun fact => .inl ?_
    exact (h.trail.isFalse_iff _).mpr (Trail.Coherent.mem_facts_iff.mp fact).mem
  apart := apart

namespace Wired

/-- Clauses may be turned, as long as the watch lists follow. -/
theorem rearranged (h : e.Wired aside) {arena : ClauseArena} {watches : Watches}
    (binary : watches.binary = e.watches.binary) (frozen : watches.frozen = e.watches.frozen)
    (slots : arena.clauses.size = e.arena.clauses.size)
    (clauses : ∀ id, (e.clause id).Reordered (arena.get id))
    (tracked : watches.Tracks arena.get aside)
    (unwatched : ∀ id, (e.clause id).isRemoved = false → (e.clause id).isFrozen = true → ∀ p,
      entriesOf id (watches.long.get p) = entriesOf id (e.watches.long.get p))
    (members : ∀ p, ∀ w ∈ watches.long.get p, w ∈ e.watches.long.get p ∨
      (e.clause w.clause).isRemoved = false ∧ w.blocker ∈ (e.clause w.clause).lits) :
    ({ e with arena, watches } : Engine).Wired aside where
  trail := h.trail
  proper := fun id used =>
    (clauses id).proper (h.proper id ((clauses id).removed.symm.trans used))
  binary_bounded := by
    dsimp only
    rw [binary]
    exact h.binary_bounded
  tracked := tracked
  inside := by
    intro p w member
    dsimp only
    rw [slots]
    rcases members p w member with old | ⟨used, _⟩
    · exact h.inside p w old
    · exact slot_lt used
  blockers := by
    intro p w member attached
    have grown : e.Extends { e with arena, watches } :=
      .of_clauses (fun id => (clauses id).continues) binary
    rcases members p w member with old | ⟨_, inside⟩
    · have vouches := h.blockers p w old ((clauses w.clause).attached.symm.trans attached)
      exact vouches.extends grown h.trail h.trail
    · exact .inl (((clauses w.clause).mem _).mpr inside)
  apart := h.apart.rearranged (fun id => (clauses id).continues)
    (fun id used isFrozen => unwatched id ((clauses id).removed.symm.trans used)
      ((clauses id).frozen.symm.trans isFrozen)) frozen

/-- Another list takes the place of one with as many entries of every clause. -/
theorem relist (h : e.Wired aside) {vs : Array Watcher}
    (same : ∀ id, entriesOf id vs = entriesOf id (e.watches.long.get p))
    (blockers : ∀ w ∈ vs, w ∈ e.watches.long.get p ∨
      (e.clause w.clause).isRemoved = false ∧ w.blocker ∈ (e.clause w.clause).lits) :
    (e.withList p vs).Wired aside := by
  refine h.rearranged rfl rfl rfl (fun _ => .refl _) (tracks_relist h.tracked same)
    (fun id _ _ => entriesOf_withList same id) ?_
  intro q w member
  rw [show _ = _ from Watches.long_setLong ..] at member
  split at member
  next here =>
    subst here
    exact blockers w member
  next => exact .inl member

/-- Turning a clause. -/
theorem orient (h : e.Wired aside) (used : (e.clause id).isRemoved = false) (l : Lit) :
    (e.modifyClause id (orient l)).Wired aside :=
  h.rearranged rfl rfl (by simp [ClauseArena.modify]) (reordered_orient used l)
    (tracks_orient h.tracked used (Nat.le_of_succ_le (h.proper id used).size) l)
    (fun _ _ _ _ => rfl) (fun _ _ member => .inl member)

theorem rescored (h : e.Wired aside) (r : e.Rescored f) : f.Wired aside where
  trail := by rw [r.trail, r.numVars]; exact h.trail
  proper := by
    intro id used
    rw [(r.alike id).removed] at used
    rw [r.numVars]
    exact (r.alike id).reordered.proper (h.proper id used)
  binary_bounded := by rw [r.watches, r.numVars]; exact h.binary_bounded
  tracked := r.tracks h.tracked
  inside := by rw [r.watches, r.slots]; exact h.inside
  blockers := by
    intro p w member attached
    rw [r.watches] at member
    rw [(r.alike w.clause).reordered.attached] at attached
    have trail : f.trail.Assigns e.numVars := by rw [r.trail]; exact h.trail
    exact (h.blockers p w member attached).extends (.of_rescored r) h.trail trail
  apart := r.frozenApart h.apart

theorem assign (h : e.Wired aside) {l : Lit} {why : Reason}
    (unassigned : e.trail.value l.var = .undecided) (bound : l.var.index < e.numVars)
    (implied : why ≠ .decision) : (e.assign l why).Wired aside where
  trail := h.trail.assign why unassigned bound
  proper := h.proper
  binary_bounded := h.binary_bounded
  tracked := h.tracked
  inside := h.inside
  blockers := by
    intro p w member attached
    have grown := Extends.assign e (fun m => h.trail.var_ne unassigned (m := m)) implied
    exact (h.blockers p w member attached).extends grown h.trail
      (h.trail.assign why unassigned bound)
  apart := { h.apart with }

theorem cleaned (h : e.Wired aside) (p : Lit) :
    (e.modifyWatches (·.cleanIfDirty e.arena p)).Wired aside := by
  have cleaned := Watches.cleanIfDirty_cleaned e.watches e.arena p
  have listed : ∀ q, (e.watches.cleanIfDirty e.arena p).dirty.get q = true →
      q ∈ (e.watches.cleanIfDirty e.arena p).dirtyKeys := by
    intro q dirty
    rw [Watches.dirtyKeys_cleanIfDirty]
    exact h.tracked.listed q (cleaned.dirty q dirty)
  refine h.rearranged cleaned.binary cleaned.frozen rfl (fun _ => .refl _)
    (Watches.Tracks.cleaned h.tracked cleaned listed) (fun id used frozen q => ?_)
    (fun q w member => .inl (cleaned.mem member))
  have none := h.apart.unwatched id used frozen q
  have le := cleaned.le id q
  rw [none] at le ⊢
  exact Nat.le_zero.mp le

section Lists

variable {kept : Array Watcher} {rest : List Watcher} {blocker : Lit}

/-- Another literal of the clause becomes the blocker of an entry. -/
theorem reblock (h : (e.withList p (kept ++ (⟨id, blocker⟩ :: rest).toArray)).Wired aside)
    (used : (e.clause id).isRemoved = false) {l : Lit} (inside : l ∈ (e.clause id).lits) :
    (e.withList p (kept.push ⟨id, l⟩ ++ rest.toArray)).Wired aside := by
  have here : (e.withList p (kept ++ (⟨id, blocker⟩ :: rest).toArray)).watches.long.get p =
      kept ++ (⟨id, blocker⟩ :: rest).toArray := by rw [long_withList, if_pos rfl]
  rw [← withList_withList e p (kept ++ (⟨id, blocker⟩ :: rest).toArray)]
  refine h.relist (fun other => ?_) (fun w member => ?_)
  · rw [here, entriesOf_append, entriesOf_append, entriesOf_push, entriesOf_cons]
    exact Nat.add_assoc ..
  · rw [here]
    simp only [Array.mem_append, Array.mem_push, List.mem_toArray, List.mem_cons] at member ⊢
    rcases member with (old | rfl) | later
    · exact .inl (.inl old)
    · exact .inr ⟨used, inside⟩
    · exact .inl (.inr (.inr later))

/-- Another literal becomes the second of a clause in place of the one visited. -/
theorem moveWatch (h : (e.withList p (kept ++ (⟨id, blocker⟩ :: rest).toArray)).Wired aside)
    (attached : (e.clause id).isAttached = true) (notAside : id ∉ aside)
    (second : (e.clause id).lit 1 = p.neg) {k : Nat} (low : 2 ≤ k)
    (high : k < (e.clause id).lits.size) (ne : (e.clause id).lit k ≠ p.neg) :
    (e.moveWatch id k p (kept ++ rest.toArray)).Wired aside := by
  have used := isRemoved_of_isAttached attached
  refine h.rearranged rfl rfl ?_ (reordered_swap used 1 k)
    (tracks_moveWatch h.tracked (h.proper id used) attached notAside second low high) ?_ ?_
  · change (e.arena.modify id _).clauses.size = _
    simp only [ClauseArena.modify, Array.size_modify]
    rfl
  · intro other _ frozen q
    have differ : id ≠ other := by
      rintro rfl
      have thawed : (e.clause id).isFrozen = false := isFrozen_of_isAttached attached
      rw [clause_withList, thawed] at frozen
      cases frozen
    have key_ne : ((e.clause id).lit k).neg ≠ p := fun same => ne (by rw [← same, Lit.neg_neg])
    have moved := e.watches.entriesOf_move id other blocker kept rest key_ne ((e.clause id).lit 0) q
    simp only [differ, and_false, if_false, Nat.add_zero] at moved
    exact moved
  · intro q w member
    have size := (h.proper id used).size
    rw [clause_withList] at size
    rcases Watches.mem_move member with old | rfl
    · exact .inl old
    · exact .inr ⟨used, Clause.lit_mem (c := e.clause id) (i := 0) (by omega)⟩

end Lists

/-! ### Frozen clauses -/

theorem withFrozen (h : e.Wired aside) {lists : DenseMap Lit (Array Watcher)}
    (apart : (e.withFrozen lists).FrozenApart) : (e.withFrozen lists).Wired aside :=
  { h with
    tracked := h.tracked.congr (fun _ => rfl) (fun _ _ _ => rfl) (fun _ _ => rfl) rfl rfl
    apart }

/-- A frozen clause may be thawed and attached, with its literals in another order. -/
theorem thaw (h : e.Wired aside) (used : (e.clause id).isRemoved = false)
    (frozen : (e.clause id).isFrozen = true) {g : Clause → Clause}
    (continues : (e.clause id).Continues (g (e.clause id)))
    (thawed : (g (e.clause id)).isFrozen = false) :
    ((e.modifyClause id g).attach id).Wired aside := by
  have proper := (h.proper id used).of_perm continues.lits continues.relocated
  have two : 2 ≤ (g (e.clause id)).lits.size := Nat.le_of_succ_le proper.size
  have unwatched := h.apart.unwatched id used frozen
  have clause := clause_modifyClause used g
  have self_clause : (e.modifyClause id g).clause id = g (e.clause id) := by rw [clause, if_pos rfl]
  have grown : e.Extends ((e.modifyClause id g).attach id) := .thaw used continues
  constructor
  case trail => exact h.trail
  case proper =>
    intro other stays
    have used' := (grown.clauses other).removed.symm.trans stays
    exact (h.proper other used').of_perm (grown.clauses other).lits (grown.clauses other).relocated
  case binary_bounded => exact h.binary_bounded
  case tracked =>
    exact tracks_thaw h.tracked used frozen unwatched proper (continues.removed.trans used) thawed
  case inside =>
    intro p w listed
    change w.clause.slot < (e.arena.modify id g).clauses.size
    simp only [ClauseArena.modify, Array.size_modify]
    rcases mem_attach_modifyClause used two listed with old | ⟨rfl, _⟩
    · exact h.inside p w old
    · exact slot_lt used
  case blockers =>
    intro p w listed attached
    rcases mem_attach_modifyClause used two listed with old | ⟨rfl, inside⟩
    · -- A frozen clause has no entry in the lists that it is now added to.
      have ne := (clause_ne_of_entriesOf (unwatched p) old).symm
      change ((e.modifyClause id g).clause w.clause).isAttached = true at attached
      rw [clause, if_neg ne] at attached
      exact (h.blockers p w old attached).extends grown h.trail h.trail
    · left
      change w.blocker ∈ ((e.modifyClause w.clause g).clause w.clause).lits
      rw [self_clause]
      exact inside
  case apart => exact h.apart.thaw used continues thawed

/-- A falsified frozen clause is put back to work. -/
theorem thawFalsified (h : e.Wired aside) (used : (e.clause id).isRemoved = false)
    (frozen : (e.clause id).isFrozen = true) : (e.thawFalsified id).Wired aside :=
  (h.thaw used frozen (continues_thawedByConflict _ _) (isFrozen_thawedByConflict _ _)).rescored
    (rescored_thawFalsified e id)

end Wired

end Engine

end Cdcl
