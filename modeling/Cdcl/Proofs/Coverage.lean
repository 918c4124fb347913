import Cdcl.Proofs.PropagationSound

/-!
# No missed propagation on original clauses

Watches are not updated on backtracking. What holds at all times is that a watched literal that was
visited while false belongs to a clause made true no later, at the literal's level or below. The
same holds of the literals of original clauses of two literals. Learnt clauses are left out: one
that is frozen may become unit, or false, without notice.

## Main results

- `propagate_guards`: propagation extends the coverage to all of the trail, unless it meets a
  conflict.
- `Guards.satisfied`: once all variables are assigned, the guarded clauses are true.
-/

namespace Cdcl

namespace Trail

/-- Some literal is true, and was so when the level of `w` was left. -/
def Covers (t : Trail) (lits : Array Lit) (w : Lit) : Prop :=
  ∃ l ∈ lits, t.isTrue l = true ∧ t.levelOf l.var ≤ t.levelOf w.var

theorem Coherent.levelOf_le {n : Nat} {t : Trail} (h : t.Coherent n) {l : Lit} (member : l ∈ t.lits) :
    t.levelOf l.var ≤ t.level := by
  obtain ⟨i, at_i⟩ := Array.mem_iff_getElem?.mp member
  rw [h.level_eq at_i]
  exact t.levelAt_le i

/-- A literal of the last level is covered by any that is true. -/
theorem Coherent.covers {n : Nat} {t : Trail} (h : t.Coherent n) {lits : Array Lit} {l w : Lit}
    (inside : l ∈ lits) (holds : t.isTrue l = true) (latest : t.levelOf w.var = t.level) :
    t.Covers lits w := by
  refine ⟨l, inside, holds, ?_⟩
  rw [latest]
  exact h.levelOf_le ((h.isTrue_iff l).mp holds)

end Trail

namespace Engine

/-- Is the literal one of the two watched ones? -/
def Watched (e : Engine) (id : ClauseId) (w : Lit) : Prop :=
  w = (e.clause id).lit 0 ∨ w = (e.clause id).lit 1

/-- Watched literals that became false before position `m` are covered, except for `p.neg` in the
clauses still to be visited. -/
def Awaits (ids : List ClauseId) (m : Nat) (p : Lit) (rest : List Watcher) (e : Engine) : Prop :=
  ∀ id ∈ ids, ∀ w, e.Watched id w → e.trail.Before m w.neg →
    (w = p.neg ∧ ∃ x ∈ rest, x.clause = id) ∨ e.trail.Covers (e.clause id).lits w

/-- Watched literals of these clauses, and literals of these pairs, that became false before
position `m` are covered. -/
structure Guards (ids : List ClauseId) (pairs : List (Lit × Lit)) (m : Nat) (e : Engine) : Prop where
  clauses : ∀ id ∈ ids, ∀ w, e.Watched id w → e.trail.Before m w.neg →
    e.trail.Covers (e.clause id).lits w
  pairs : ∀ a b, (a, b) ∈ pairs → e.trail.Before m a.neg → e.trail.Covers #[b] a

variable {ids : List ClauseId} {pairs : List (Lit × Lit)} {m n : Nat} {p : Lit}
  {rest : List Watcher} {e f : Engine} {aside : List ClauseId} {conflict : Option Conflict}

theorem Guards.mono (h : e.Guards ids pairs m) {k : Nat} (le : k ≤ m) : e.Guards ids pairs k :=
  ⟨fun id member w watched before => h.clauses id member w watched (before.mono le),
    fun a b member before => h.pairs a b member (before.mono le)⟩

/-! ### Coverage lasts -/

/-- Coverage lasts while the trail grows. -/
theorem Extends.covers (h : e.Extends f) {n n' : Nat} (before : e.trail.Coherent n)
    (after : f.trail.Coherent n') {lits lits' : Array Lit} (sub : ∀ l, l ∈ lits → l ∈ lits') {w : Lit}
    (false_w : w.neg ∈ e.trail.lits) (covered : e.trail.Covers lits w) : f.trail.Covers lits' w := by
  obtain ⟨l, inside, holds, le⟩ := covered
  have inTrail := (before.isTrue_iff l).mp holds
  refine ⟨l, sub l inside, h.isTrue before after holds, ?_⟩
  have same := h.levelOf before after false_w
  rw [Lit.var_neg] at same
  rw [h.levelOf before after inTrail, same]
  exact le

/-- Coverage lasts while the watched literals stay in place and the trail grows. -/
theorem Awaits.extends (h : e.Awaits ids m p rest) (grown : e.Extends f) {n n' : Nat}
    (before : e.trail.Coherent n) (after : f.trail.Coherent n') (le : m ≤ e.trail.lits.size)
    (watched : ∀ id ∈ ids, ∀ w, f.Watched id w → e.Watched id w) : f.Awaits ids m p rest := by
  intro id member w isWatched falsified
  rw [grown.before le] at falsified
  refine (h id member w (watched id member w isWatched) falsified).imp_right fun covered => ?_
  exact grown.covers before after (fun l => ((grown.clauses id).mem l).mpr) falsified.mem covered

theorem Guards.extends (h : e.Guards ids pairs m) (grown : e.Extends f) {n n' : Nat}
    (before : e.trail.Coherent n) (after : f.trail.Coherent n') (le : m ≤ e.trail.lits.size)
    (watched : ∀ id ∈ ids, ∀ w, f.Watched id w → e.Watched id w) : f.Guards ids pairs m where
  clauses := by
    intro id member w isWatched falsified
    rw [grown.before le] at falsified
    have covered := h.clauses id member w (watched id member w isWatched) falsified
    exact grown.covers before after (fun l => ((grown.clauses id).mem l).mpr) falsified.mem covered
  pairs := by
    intro a b member falsified
    rw [grown.before le] at falsified
    exact grown.covers before after (fun _ => id) falsified.mem (h.pairs a b member falsified)

/-! ### Visits of watched clauses -/

theorem Rescored.watched (r : e.Rescored f) {id : ClauseId} {w : Lit} (h : f.Watched id w) :
    e.Watched id w := by
  unfold Watched at *
  rw [(r.alike id).lit, (r.alike id).lit] at h
  exact h

/-- Turning a clause does not change what it watches. -/
theorem watched_orient {id : ClauseId} (used : (e.clause id).isRemoved = false)
    (size : 2 ≤ (e.clause id).lits.size) {q w : Lit} {other : ClauseId}
    (h : (e.modifyClause id (orient q)).Watched other w) : e.Watched other w := by
  unfold Watched at *
  rw [clause_modifyClause used] at h
  split at h
  next same =>
    subst same
    unfold orient at h
    split at h
    · rw [Clause.lit_swap (by omega) (by omega), Clause.lit_swap (by omega) (by omega)] at h
      exact h.symm
    · exact h
  next => exact h

/-- A clause whose visit found it covered need not be waited for. -/
theorem Awaits.resolve {entry : Watcher} (h : e.Awaits ids m p (entry :: rest))
    (covered : entry.clause ∈ ids → e.trail.Covers (e.clause entry.clause).lits p.neg) :
    e.Awaits ids m p rest := by
  intro id member w watched falsified
  rcases h id member w watched falsified with ⟨rfl, x, inside, rfl⟩ | done
  · rcases List.mem_cons.mp inside with rfl | later
    · exact .inr (covered member)
    · exact .inl ⟨rfl, x, later, rfl⟩
  · exact .inr done

/-- A watch that moves to a literal that is not false needs no coverage. -/
theorem Awaits.move {entry : Watcher} (h : e.Awaits ids m p (entry :: rest))
    (coherent : e.trail.Coherent n) (used : (e.clause entry.clause).isRemoved = false)
    (second : (e.clause entry.clause).lit 1 = p.neg) {k : Nat} (low : 2 ≤ k)
    (high : k < (e.clause entry.clause).lits.size)
    (first_ne : (e.clause entry.clause).lit 0 ≠ p.neg)
    (usable : e.trail.isFalse ((e.clause entry.clause).lit k) = false) (u : Watches → Watches) :
    ((e.modifyClause entry.clause (·.swap 1 k)).modifyWatches u).Awaits ids m p rest := by
  intro id member w watched falsified
  have clauses := reordered_swap used 1 k id
  change e.trail.Before m w.neg at falsified
  change _ ∨ e.trail.Covers ((e.arena.modify entry.clause (·.swap 1 k)).get id).lits w
  have old : e.Watched id w → (w = p.neg → entry.clause ≠ id) →
      (w = p.neg ∧ ∃ x ∈ rest, x.clause = id) ∨
        e.trail.Covers ((e.arena.modify entry.clause (·.swap 1 k)).get id).lits w := by
    intro watched apart
    rcases h id member w watched falsified with ⟨same, x, inside, rfl⟩ | ⟨l, inside, covered⟩
    · rcases List.mem_cons.mp inside with rfl | later
      · exact absurd rfl (apart same)
      · exact .inl ⟨same, x, later, rfl⟩
    · exact .inr ⟨l, (clauses.mem l).mpr inside, covered⟩
  change ((e.modifyClause entry.clause (·.swap 1 k)).Watched id w) at watched
  unfold Watched at watched
  rw [clause_modifyClause used] at watched
  split at watched
  next same =>
    subst same
    rw [Clause.lit_zero_swap_one low high, Clause.lit_one_swap_one low high] at watched
    rcases watched with rfl | rfl
    · exact old (.inl rfl) fun same => absurd same first_ne
    · -- The new watch is not false.
      have := (coherent.isFalse_iff _).mpr falsified.mem
      rw [this] at usable
      cases usable
  next other => exact old watched fun _ => other

theorem Awaits.weaken (h : e.Awaits ids m p rest) (entry : Watcher) :
    e.Awaits ids m p (entry :: rest) := by
  intro id member w watched falsified
  refine (h id member w watched falsified).imp_left fun ⟨same, x, inside, clause⟩ => ?_
  exact ⟨same, x, List.mem_cons_of_mem _ inside, clause⟩

/-- A visit covers the clause visited, unless it is a conflict. -/
theorem Visiting.awaits {kept kept' : Array Watcher} {entry : Watcher}
    (h : Visiting aside p (kept ++ (entry :: rest).toArray) e) (le : m ≤ e.trail.lits.size)
    (awaits : e.Awaits ids m p (entry :: rest))
    (visited : Visited p.neg entry kept e (f, kept', conflict)) :
    f.Awaits ids m p (entry :: rest) ∧ (conflict = none → f.Awaits ids m p rest) := by
  have member : entry ∈ kept ++ (entry :: rest).toArray := by simp
  have usedBefore := isRemoved_of_isAttached (h.attached member).1
  have sizeBefore := (h.sound.proper entry.clause usedBefore).size
  have turn := h.orient member
  have stays : ∀ id ∈ ids, ∀ w, (e.modifyClause entry.clause (Engine.orient p.neg)).Watched id w →
      e.Watched id w := fun _ _ _ => watched_orient usedBefore (Nat.le_of_succ_le sizeBefore)
  generalize turning : e.modifyClause entry.clause (Engine.orient p.neg) = o at turn stays
  obtain ⟨turned, extends_o, second⟩ := turn
  have coherent : e.trail.Coherent e.numVars := h.sound.trail
  have latest := h.latest.level
  have coherent_o : o.trail.Coherent o.numVars := turned.sound.trail
  have awaits_o := awaits.extends extends_o coherent coherent_o le stays
  have trail_o : o.trail = e.trail := by rw [← turning]; rfl
  have isAttached := (turned.attached member).1
  have used := isRemoved_of_isAttached isAttached
  have proper : (o.clause entry.clause).Proper o.numVars := turned.sound.proper entry.clause used
  have size := proper.size
  have first_mem : (o.clause entry.clause).lit 0 ∈ (o.clause entry.clause).lits :=
    Clause.lit_mem (by omega)
  -- It is enough to show that the clause need not be waited for.
  have done {g : Engine} {answer : Option Conflict} (result : g.Awaits ids m p rest) :
      g.Awaits ids m p (entry :: rest) ∧ (answer = none → g.Awaits ids m p rest) :=
    ⟨result.weaken entry, fun _ => result⟩
  cases visited with
  | skipped holds =>
    refine done (awaits.resolve fun _ => ?_)
    have here : entry ∈ (e.withList p (kept ++ (entry :: rest).toArray)).watches.long.get p := by
      rw [long_withList, if_pos rfl]
      exact member
    rcases h.sound.blockers p entry here (h.attached member).1 with inside | fact
    · exact coherent.covers inside holds latest
    · have opposite := (Trail.Coherent.mem_facts_iff.mp fact).mem
      exact absurd opposite (coherent.not_mem_neg ((coherent.isTrue_iff _).mp holds))
  | satisfied oriented holds =>
    cases oriented.trans turning
    refine done (awaits_o.resolve fun _ => ?_)
    exact coherent_o.covers first_mem holds (trail_o ▸ latest)
  | @moved _ oriented k low high usable =>
    cases oriented.trans turning
    refine done (awaits_o.move coherent_o used second low high ?_ usable _)
    intro same
    rw [← second] at same
    exact absurd (proper.lit_inj (by omega) (by omega) (congrArg Lit.var same)) nofun
  | implied oriented others undecided rescored =>
    cases oriented.trans turning
    have explained := turned.explains isAttached second others
    have assigned := turned.assign undecided (proper.bounded _ first_mem) explained
    have absent := fun m => coherent_o.var_ne undecided (m := m)
    have grown : o.Extends f :=
      (Extends.assign o absent (nofun : Reason.clause entry.clause ≠ .decision)).trans
        (.of_rescored rescored)
    have final : f.trail.Coherent f.numVars := (assigned.rescored rescored).sound.trail
    have awaits_f := awaits_o.extends grown coherent_o final (trail_o ▸ le) fun id _ w watched =>
      rescored.watched watched
    refine done (awaits_f.resolve fun _ => ?_)
    have continues := grown.clauses entry.clause
    refine final.covers ((continues.mem _).mpr first_mem) ?_ ?_
    · rw [rescored.trail]
      exact (Trail.isTrue_assign ..).mpr (.inl rfl)
    · rw [Lit.var_neg]
      exact (grown.latest coherent_o final turned.latest).level
  | falsified oriented others isFalse =>
    cases oriented.trans turning
    exact ⟨awaits_o, nofun⟩

theorem Visiting.visitWatched_awaits {kept kept' : Array Watcher}
    (h : Visiting aside p (kept ++ rest.toArray) e) (le : m ≤ e.trail.lits.size)
    (awaits : e.Awaits ids m p rest)
    (result : Engine.visitWatched p.neg rest kept e = (f, kept', conflict)) :
    (∃ left, f.Awaits ids m p left) ∧ (conflict = none → f.Awaits ids m p []) := by
  induction rest generalizing kept e with
  | nil =>
    cases result
    exact ⟨⟨[], awaits⟩, fun _ => awaits⟩
  | cons entry rest ih =>
    have member : entry ∈ kept ++ (entry :: rest).toArray := by simp
    have visited := visitEntry_cases p.neg entry kept
      (isRemoved_of_isAttached (h.attached member).1)
    rw [visitWatched_cons] at result
    generalize visitEntry p.neg entry kept e = step at result visited
    obtain ⟨g, between, _ | c⟩ := step
    · obtain ⟨visiting, extends_g, _⟩ := h.visit visited
      exact ih visiting (Nat.le_trans le extends_g.size_le) ((h.awaits le awaits visited).2 rfl) result
    · cases result
      exact ⟨⟨_, (h.awaits le awaits visited).1⟩, nofun⟩

/-! ### Visits of the other clauses -/

/-- If there is no conflict, the other literals of all clauses visited become true. -/
theorem isTrue_visitBinary {others : List Lit} (h : e.Sound aside) (apart : e.FrozenApart)
    (latest : e.trail.Latest p) (stored : ∀ q ∈ others, q ∈ e.watches.binary.get p)
    (result : visitBinary p.neg others e = (f, none)) : ∀ q ∈ others, f.trail.isTrue q = true := by
  induction others generalizing e with
  | nil => exact nofun
  | cons q others ih =>
    have here := stored q List.mem_cons_self
    have later := fun r member => stored r (List.mem_cons_of_mem _ member)
    unfold visitBinary at result
    split at result
    next yes =>
      obtain ⟨sound, _, grown, _⟩ := visitBinary_sound h apart latest later result
      have isTrue := grown.isTrue h.trail sound.trail ((Trail.valueLit_eq_yes_iff _ _).mp yes)
      exact List.forall_mem_cons.mpr ⟨isTrue, ih h apart latest later result⟩
    next => cases result
    next undecided =>
      rw [Trail.valueLit_eq_undecided_iff] at undecided
      have one : visitBinary p.neg [q] e = (e.assign q (.binary p.neg), none) := by
        have value := (Trail.valueLit_eq_undecided_iff e.trail q).mpr undecided
        simp [visitBinary, value]
      have single : ∀ r ∈ [q], r ∈ e.watches.binary.get p := by simpa using here
      obtain ⟨sound_g, apart_g, extends_g, _⟩ := visitBinary_sound h apart latest single one
      have latest_g := extends_g.latest h.trail sound_g.trail latest
      obtain ⟨sound, _, grown, _⟩ := visitBinary_sound sound_g apart_g latest_g later result
      have assigned : (e.assign q (.binary p.neg)).trail.isTrue q = true :=
        (Trail.isTrue_assign ..).mpr (.inl rfl)
      exact List.forall_mem_cons.mpr ⟨grown.isTrue sound_g.trail sound.trail assigned,
        ih sound_g apart_g latest_g later result⟩

theorem arena_visitBinary {falseLit : Lit} {others : List Lit}
    (result : visitBinary falseLit others e = (f, conflict)) : f.arena = e.arena := by
  induction others generalizing e with
  | nil => cases result; rfl
  | cons q others ih =>
    unfold visitBinary at result
    split at result
    · exact ih result
    · cases result; rfl
    · exact ih (e := e.assign q _) result

theorem clause_thawFalsified {id other : ClauseId} (used : (e.clause id).isRemoved = false)
    (ne : id ≠ other) : (e.thawFalsified id).clause other = e.clause other := by
  unfold thawFalsified
  dsimp only [modifyStats, modifyTally, attach, modifyWatches, clause]
  exact (clause_modifyClause used _ other).trans (if_neg ne)

/-- Visits of frozen clauses change no other clause. -/
theorem clause_visitFrozen {falseLit : Lit} {entries left : List Watcher}
    (result : visitFrozen falseLit entries e = (f, left, conflict)) {id : ClauseId}
    (thawed : (e.clause id).isFrozen = false) : f.clause id = e.clause id := by
  have visited := visitFrozen_cases falseLit entries e
  rw [result] at visited
  cases visited with
  | moved => rfl
  | @falsified lists _ entry _ _ _ used frozen =>
    have ne : entry.clause ≠ id := by
      rintro rfl
      exact absurd (frozen.symm.trans thawed) nofun
    exact clause_thawFalsified (e := e.withFrozen lists) used ne

/-! ### Propagation -/

/-- If all clauses to be visited are yet to come, only the coverage before `p` is known. -/
theorem Awaits.guards (h : e.Awaits ids (n + 1) p rest) (coherent : e.trail.Coherent e.numVars)
    (at_n : e.trail.lits[n]? = some p) :
    ∀ id ∈ ids, ∀ w, e.Watched id w → e.trail.Before n w.neg →
      e.trail.Covers (e.clause id).lits w := by
  intro id member w watched before
  rcases h id member w watched (before.mono (Nat.le_succ n)) with ⟨rfl, _⟩ | covered
  · obtain ⟨j, below, at_j⟩ := before
    rw [Lit.neg_neg] at at_j
    have := coherent.distinct at_j at_n rfl
    omega
  · exact covered

/-- The list of `p` holds all clauses that must be visited for it. -/
theorem Guards.awaits (h : e.Guards ids pairs n) (sound : e.Sound aside)
    (at_n : e.trail.lits[n]? = some p)
    (attached : ∀ id ∈ ids, (e.clause id).isAttached = true ∧ id ∉ aside) :
    e.Awaits ids (n + 1) p (e.watches.long.get p).toList := by
  intro id member w watched ⟨j, below, at_j⟩
  by_cases last : j = n
  · subst last
    rw [at_n] at at_j
    cases at_j
    refine .inl ⟨(Lit.neg_neg w).symm, ?_⟩
    have count := sound.tracked.exact id (attached id member).1 (attached id member).2 w.neg
    have watches : w.neg = ((e.clause id).lit 0).neg ∨ w.neg = ((e.clause id).lit 1).neg :=
      watched.imp (congrArg Lit.neg) (congrArg Lit.neg)
    rw [Clause.watchCount, if_pos watches] at count
    have some : 0 < entriesOf id (e.watches.long.get w.neg) := by omega
    obtain ⟨x, inside, clause⟩ := entriesOf_pos_iff.mp some
    exact ⟨x, Array.mem_toList_iff.mpr inside, clause⟩
  · exact .inr (h.clauses id member w watched ⟨j, by omega, at_j⟩)

/-- What is guarded is stored, and takes part in propagation. -/
structure Guarded (aside ids : List ClauseId) (pairs : List (Lit × Lit)) (e : Engine) : Prop where
  clauses : ∀ id ∈ ids, (e.clause id).isAttached = true ∧ id ∉ aside
  pairs : ∀ a b, (a, b) ∈ pairs → b ∈ e.watches.binary.get a.neg

theorem Guarded.extends (h : e.Guarded aside ids pairs) (grown : e.Extends f) :
    f.Guarded aside ids pairs where
  clauses := fun id member =>
    ⟨(grown.clauses id).attached (h.clauses id member).1, (h.clauses id member).2⟩
  pairs := fun a b member => by rw [grown.binary]; exact h.pairs a b member

/-- A change that leaves the clauses guarded as they are. -/
theorem Guards.extends_same (h : e.Guards ids pairs m) (grown : e.Extends f) {n n' : Nat}
    (before : e.trail.Coherent n) (after : f.trail.Coherent n') (le : m ≤ e.trail.lits.size)
    (same : ∀ id ∈ ids, f.clause id = e.clause id) : f.Guards ids pairs m := by
  refine h.extends grown before after le fun id member w watched => ?_
  unfold Watched at *
  rw [same id member] at watched
  exact watched

theorem visitBinary_guards (h : e.Sound aside) (apart : e.FrozenApart)
    (at_n : e.trail.lits[n]? = some p) (latest : e.trail.levelOf p.var = e.trail.level)
    (guarded : e.Guarded aside ids pairs) (guards : e.Guards ids pairs n)
    (result : visitBinary p.neg (e.watches.binary.get p).toList e = (f, conflict)) :
    f.Guards ids pairs n ∧ (conflict = none → ∀ a b, (a, b) ∈ pairs →
      f.trail.Before (n + 1) a.neg → f.trail.Covers #[b] a) := by
  have inTrail : p ∈ e.trail.lits := Array.mem_of_getElem? at_n
  have inside : n < e.trail.lits.size := (Array.getElem?_eq_some_iff.mp at_n).1
  have stored : ∀ q ∈ (e.watches.binary.get p).toList, q ∈ e.watches.binary.get p := fun q member =>
    Array.mem_toList_iff.mp member
  obtain ⟨sound, _, grown, _⟩ := visitBinary_sound h apart ⟨inTrail, latest⟩ stored result
  have arena := arena_visitBinary result
  have after : f.Guards ids pairs n :=
    guards.extends_same grown h.trail sound.trail (Nat.le_of_lt inside) fun id _ => by
      rw [clause, clause, arena]
  refine ⟨after, ?_⟩
  rintro rfl a b member ⟨j, below, at_j⟩
  by_cases last : j = n
  · rw [last, grown.lits n inside, at_n] at at_j
    cases at_j
    have others := isTrue_visitBinary h apart ⟨inTrail, latest⟩ stored result
    have isTrue := others b (Array.mem_toList_iff.mpr (guarded.pairs a b member))
    refine sound.trail.covers (Array.mem_singleton.mpr rfl) isTrue ?_
    have same := grown.levelOf h.trail sound.trail inTrail
    rw [Lit.var_neg] at same latest
    rw [same, grown.level, latest]
  · exact after.pairs a b member ⟨j, by omega, at_j⟩

theorem propagateWatched_guards (h : e.Sound aside) (apart : e.FrozenApart)
    (at_n : e.trail.lits[n]? = some p) (latest : e.trail.levelOf p.var = e.trail.level)
    (guarded : e.Guarded aside ids pairs) (guards : e.Guards ids pairs n)
    (result : e.propagateWatched p = (f, conflict)) :
    (∃ left, f.Awaits ids (n + 1) p left) ∧ (conflict = none → f.Awaits ids (n + 1) p []) := by
  have inside : n < e.trail.lits.size := (Array.getElem?_eq_some_iff.mp at_n).1
  obtain ⟨g, k, kept, visiting, extends_g, trail_g, arena_g, sound_g, run, rfl⟩ :=
    propagateWatched_visits h apart ⟨Array.mem_of_getElem? at_n, latest⟩ result
  have attached := (guarded.extends extends_g).clauses
  have guards_g := guards.extends_same extends_g h.trail sound_g.trail (Nat.le_of_lt inside)
    fun id _ => by rw [clause, clause, arena_g]
  have awaits := guards_g.awaits sound_g (trail_g ▸ at_n) attached
  rw [← trail_g] at inside
  have done := visiting.visitWatched_awaits inside awaits run
  exact done

theorem clause_propagateFrozen (result : e.propagateFrozen p = (f, conflict)) {id : ClauseId}
    (thawed : (e.clause id).isFrozen = false) : f.clause id = e.clause id := by
  cases propagateFrozen_visits result with
  | none => rfl
  | some run => exact clause_visitFrozen run thawed

/-- Once the pairs of a literal are covered, the clauses watched on it are visited: what was covered
stays so, and without a conflict the literal is covered, too. -/
theorem propagateWatched_covers (h : e.Sound aside) (apart : e.FrozenApart)
    (at_n : e.trail.lits[n]? = some p) (latest : e.trail.Latest p) (guarded : e.Guarded aside ids pairs)
    (guards : e.Guards ids pairs n)
    (covered : ∀ a b, (a, b) ∈ pairs → e.trail.Before (n + 1) a.neg → e.trail.Covers #[b] a)
    (result : e.propagateWatched p = (f, conflict)) :
    f.Guards ids pairs n ∧ (conflict = none → f.Guards ids pairs (n + 1)) := by
  have inside : n < e.trail.lits.size := (Array.getElem?_eq_some_iff.mp at_n).1
  obtain ⟨sound, -, grown, -⟩ := propagateWatched_sound h apart latest result
  obtain ⟨⟨left, awaits⟩, all⟩ := propagateWatched_guards h apart at_n latest.level guarded guards result
  have at_n' := (grown.lits n inside).trans at_n
  refine ⟨⟨awaits.guards sound.trail at_n', fun a b member before => ?_⟩, fun none =>
    ⟨fun id member w watched before => ?_, fun a b member before => ?_⟩⟩
  · rw [grown.before (Nat.le_of_lt inside)] at before
    exact grown.covers h.trail sound.trail (fun _ => id) before.mem (guards.pairs a b member before)
  · rcases all none id member w watched before with ⟨_, x, inside, _⟩ | covered
    · cases inside
    · exact covered
  · rw [grown.before inside] at before
    exact grown.covers h.trail sound.trail (fun _ => id) before.mem (covered a b member before)

/-- The visits for a literal cover what became false by it, unless they meet a conflict. -/
theorem propagateLit_guards (h : e.Sound aside) (apart : e.FrozenApart)
    (at_n : e.trail.lits[n]? = some p) (latest : e.trail.levelOf p.var = e.trail.level)
    (guarded : e.Guarded aside ids pairs) (guards : e.Guards ids pairs n)
    (result : e.propagateLit p = (f, conflict)) :
    f.Guards ids pairs n ∧ (conflict = none → f.Guards ids pairs (n + 1)) := by
  have inTrail : p ∈ e.trail.lits := Array.mem_of_getElem? at_n
  have inside : n < e.trail.lits.size := (Array.getElem?_eq_some_iff.mp at_n).1
  have stored : ∀ q ∈ (e.watches.binary.get p).toList, q ∈ e.watches.binary.get p := fun q member =>
    Array.mem_toList_iff.mp member
  have watched {g k : Engine} {answer : Option Conflict}
      (first : visitBinary p.neg (e.watches.binary.get p).toList e = (g, none))
      (second : g.propagateWatched p = (k, answer)) :
      k.Guards ids pairs n ∧ (answer = none → k.Guards ids pairs (n + 1)) := by
    obtain ⟨sound_g, apart_g, extends_g, -⟩ := visitBinary_sound h apart ⟨inTrail, latest⟩ stored first
    obtain ⟨guards_g, pairs_g⟩ := visitBinary_guards h apart at_n latest guarded guards first
    exact propagateWatched_covers sound_g apart_g ((extends_g.lits n inside).trans at_n)
      (extends_g.latest h.trail sound_g.trail ⟨inTrail, latest⟩) (guarded.extends extends_g) guards_g
      (pairs_g rfl) second
  cases propagateLit_cases result with
  | binary first => exact ⟨(visitBinary_guards h apart at_n latest guarded guards first).1, nofun⟩
  | watched first second => exact ⟨(watched first second).1, nofun⟩
  | @frozen g k _ _ first second third =>
    -- A frozen clause guards nothing, so that thawing one changes no clause that does.
    obtain ⟨guards_k, all⟩ := watched first second
    obtain ⟨sound_g, apart_g, extends_g, -⟩ := visitBinary_sound h apart ⟨inTrail, latest⟩ stored first
    have latest_g := extends_g.latest h.trail sound_g.trail ⟨inTrail, latest⟩
    obtain ⟨sound_k, apart_k, extends_k, -⟩ := propagateWatched_sound sound_g apart_g latest_g second
    obtain ⟨sound, -, grown, -⟩ := propagateFrozen_sound sound_k apart_k third
    have guarded_k := guarded.extends (extends_g.trans extends_k)
    have inside_k := Nat.lt_of_lt_of_le inside (extends_g.trans extends_k).size_le
    have same : ∀ id ∈ ids, f.clause id = k.clause id := fun id member =>
      clause_propagateFrozen third (isFrozen_of_isAttached (guarded_k.clauses id member).1)
    exact ⟨guards_k.extends_same grown sound_k.trail sound.trail (Nat.le_of_lt inside_k) same,
      fun _ => (all rfl).extends_same grown sound_k.trail sound.trail inside_k same⟩

theorem propagateFrom_guards {fuel : Nat} (h : e.Sound aside) (apart : e.FrozenApart)
    (guarded : e.Guarded aside ids pairs) (guards : e.Guards ids pairs e.trail.head)
    (result : propagateFrom fuel e = (f, conflict)) :
    f.Guards ids pairs e.trail.head ∧ (conflict = none → f.Guards ids pairs f.trail.head) := by
  have run := propagates result
  clear result
  induction run with
  | spent | idle => exact ⟨guards, fun _ => guards⟩
  | @next n e g f p conflict at_head run _ ih =>
    have waiting : e.trail.head < e.trail.lits.size := (Array.getElem?_eq_some_iff.mp at_head).1
    obtain ⟨sound_a, apart_a, extends_a, latest⟩ := dequeue_sound h apart at_head
    have guarded_a := guarded.extends extends_a
    have guards_a := guards.extends_same extends_a h.trail sound_a.trail (Nat.le_of_lt waiting)
      fun _ _ => rfl
    obtain ⟨sound_g, apart_g, extends_g, -⟩ := propagateLit_sound sound_a apart_a latest run
    have guards_g := (propagateLit_guards sound_a apart_a at_head latest.level guarded_a guards_a run).2 rfl
    have head : g.trail.head = e.trail.head + 1 := head_propagateLit run
    obtain ⟨still, all⟩ := ih sound_g apart_g (guarded_a.extends extends_g) (head ▸ guards_g)
    exact ⟨still.mono (by omega), all⟩
  | @clash n e g p c at_head run =>
    have waiting : e.trail.head < e.trail.lits.size := (Array.getElem?_eq_some_iff.mp at_head).1
    obtain ⟨sound_a, apart_a, extends_a, latest⟩ := dequeue_sound h apart at_head
    have guards_a := guards.extends_same extends_a h.trail sound_a.trail (Nat.le_of_lt waiting)
      fun _ _ => rfl
    -- The visits stop where they meet a conflict: what they were to cover by `p` may be open.
    have guards_g := (propagateLit_guards sound_a apart_a at_head latest.level
      (guarded.extends extends_a) guards_a run).1
    exact ⟨⟨guards_g.clauses, guards_g.pairs⟩, nofun⟩

/-- Propagation covers all of the trail, unless it meets a conflict; even then what was covered
stays so. -/
theorem propagate_guards (h : e.Sound aside) (apart : e.FrozenApart)
    (guarded : e.Guarded aside ids pairs) (guards : e.Guards ids pairs e.trail.head)
    (result : e.propagate = (f, conflict)) :
    f.Guards ids pairs e.trail.head ∧ (conflict = none → f.Guards ids pairs f.trail.head) :=
  propagateFrom_guards h apart guarded guards result

/-! ### Complete assignments -/

/-- Once all variables are assigned and all of the trail is covered, every guarded clause is true. -/
theorem Guards.satisfied (h : e.Guards ids pairs e.trail.lits.size) (sound : e.Sound aside)
    (guarded : e.Guarded aside ids pairs)
    (complete : ∀ v : Var, v.index < e.numVars → e.trail.value v ≠ .undecided) :
    (∀ id ∈ ids, ∃ l ∈ (e.clause id).lits, e.trail.isTrue l = true) ∧
      ∀ a b, (a, b) ∈ pairs → e.trail.isTrue a = true ∨ e.trail.isTrue b = true := by
  have decided {l : Lit} (bound : l.var.index < e.numVars) :
      e.trail.isTrue l = true ∨ e.trail.Before e.trail.lits.size l.neg := by
    by_contra neither
    obtain ⟨notTrue, notFalse⟩ := not_or.mp neither
    rw [← Trail.mem_iff_before, ← sound.trail.isFalse_iff] at notFalse
    exact complete l.var bound
      (Trail.value_eq_undecided (Bool.eq_false_iff.mpr notTrue) (Bool.eq_false_iff.mpr notFalse))
  constructor
  · intro id member
    have proper := sound.proper id (isRemoved_of_isAttached (guarded.clauses id member).1)
    have size := proper.size
    have first : (e.clause id).lit 0 ∈ (e.clause id).lits := Clause.lit_mem (by omega)
    rcases decided (proper.bounded _ first) with holds | fails
    · exact ⟨_, first, holds⟩
    · obtain ⟨l, inside, holds, _⟩ := h.clauses id member _ (.inl rfl) fails
      exact ⟨l, inside, holds⟩
  · intro a b member
    have bounds := sound.binary_bounded _ b (guarded.pairs a b member)
    rcases decided (l := a) bounds.1 with holds | fails
    · exact .inl holds
    · obtain ⟨l, inside, holds, _⟩ := h.pairs a b member fails
      rw [Array.mem_singleton.mp inside] at holds
      exact .inr holds

end Engine

end Cdcl
