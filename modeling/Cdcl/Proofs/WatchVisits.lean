import Cdcl.Proofs.Extension
import Cdcl.Proofs.WatchLists
import Cdcl.Search.Propagation

/-!
# Visits of clauses

What the visit of a watched clause does, apart from the loop over a list. While a list is visited, the
entries that stay and those still to come stand for the list: the engine with such a list in place
is sound before and after each visit.

## Main results

- `visitWatched_cons`: the loop makes a visit and goes on.
- `visitEntry_cases`: what a visit can come to.
- `visitFrozen_cases`: what the visit of a list of frozen clauses can come to.
-/

namespace Cdcl

namespace Trail

theorem findNonFalse_eq_some {t : Trail} {lits : Array Lit} {start n k : Nat}
    (found : t.findNonFalse lits start n = some k) :
    start ≤ k ∧ k < start + n ∧ t.isFalse (lits.getD k .missing) = false := by
  induction n generalizing start with
  | zero => cases found
  | succ n ih =>
    unfold findNonFalse at found
    split at found
    · obtain ⟨low, high, open_k⟩ := ih found
      exact ⟨by omega, by omega, open_k⟩
    next notFalse =>
      cases found
      exact ⟨Nat.le_refl _, by omega, Bool.eq_false_iff.mpr notFalse⟩

theorem findNonFalse_eq_none {t : Trail} {lits : Array Lit} {start n : Nat}
    (found : t.findNonFalse lits start n = none) {i : Nat} (low : start ≤ i)
    (high : i < start + n) : t.isFalse (lits.getD i .missing) = true := by
  induction n generalizing start with
  | zero => omega
  | succ n ih =>
    unfold findNonFalse at found
    split at found
    next isFalse =>
      by_cases here : i = start
      · rw [here]
        exact isFalse
      · exact ih found (by omega) (by omega)
    next => cases found

end Trail

namespace Engine

theorem orient_reordered (f : Lit) (c : Clause) : c.Reordered (orient f c) := by
  unfold orient
  split
  · exact c.reordered_swap 0 1
  · exact .refl c

theorem orient_lit_one {f : Lit} {c : Clause} (size : 2 ≤ c.lits.size)
    (watched : f = c.lit 0 ∨ f = c.lit 1) : (orient f c).lit 1 = f := by
  unfold orient
  split
  next isFirst =>
    rw [Clause.lit_swap (by omega) (by omega)]
    simpa using isFirst
  next notFirst =>
    rcases watched with rfl | rfl
    · simp at notFirst
    · rfl

/-- Only if it is the false one does the first literal change its place. -/
theorem orient_lit_zero (f : Lit) (c : Clause) :
    (orient f c).lit 0 = c.lit 0 ∨ c.lit 0 = f := by
  unfold orient
  split
  next isFirst => exact .inr (by simpa using isFirst)
  next => exact .inl rfl

theorem orient_watchCount {f : Lit} {c : Clause} (size : 2 ≤ c.lits.size) (p : Lit) :
    (orient f c).watchCount p = c.watchCount p := by
  unfold orient
  split
  · simp only [Clause.watchCount]
    rw [Clause.lit_swap (by omega) (by omega), Clause.lit_swap (by omega) (by omega)]
    simp only [Nat.one_ne_zero, if_true, if_false]
    exact if_congr or_comm rfl rfl
  · rfl

theorem inspect_eq_keep {t : Trail} {c : Clause} {blocker l : Lit}
    (seen : inspect t c blocker = .keep l) : l = c.lit 0 ∧ t.isTrue (c.lit 0) = true := by
  unfold inspect at seen
  dsimp only at seen
  split at seen
  next holds =>
    cases seen
    exact ⟨rfl, (Bool.and_eq_true_iff.mp holds).2⟩
  · split at seen <;> cases seen

theorem inspect_eq_move {t : Trail} {c : Clause} {blocker l : Lit} {k : Nat}
    (seen : inspect t c blocker = .move k l) :
    l = c.lit 0 ∧ 2 ≤ k ∧ k < c.lits.size ∧ t.isFalse (c.lit k) = false := by
  unfold inspect at seen
  dsimp only at seen
  split at seen
  · cases seen
  · split at seen
    next found =>
      cases seen
      obtain ⟨low, high, usable⟩ := Trail.findNonFalse_eq_some found
      simp only [Clause.size] at high
      exact ⟨rfl, low, by omega, usable⟩
    next => cases seen

theorem inspect_eq_unit {t : Trail} {c : Clause} {blocker l : Lit}
    (blocked : t.isTrue blocker ≠ true) (seen : inspect t c blocker = .unit l) :
    l = c.lit 0 ∧ t.isTrue (c.lit 0) = false ∧
      ∀ k, 2 ≤ k → k < c.lits.size → t.isFalse (c.lit k) = true := by
  unfold inspect at seen
  dsimp only at seen
  split at seen
  · cases seen
  next notTrue =>
    split at seen
    next => cases seen
    next found =>
      cases seen
      refine ⟨rfl, ?_, fun k low high => ?_⟩
      · by_cases same : c.lit 0 = blocker
        · rw [same]
          exact Bool.eq_false_iff.mpr blocked
        · simpa [same] using notTrue
      · refine Trail.findNonFalse_eq_none found low ?_
        simp only [Clause.size]
        omega

/-! ### Level counts -/

theorem rescored_countLevels (e : Engine) (lits : List Lit) :
    e.Rescored (e.countLevels lits).1 := { Rescored.refl e with }

theorem rescored_refreshLbd (e : Engine) (id : ClauseId) : e.Rescored (e.refreshLbd id) := by
  unfold refreshLbd
  dsimp only
  split
  · exact .refl e
  · have counted := rescored_countLevels e (e.clause id).lits.toList
    split
    · have stored := Rescored.modifyClause (e.countLevels (e.clause id).lits.toList).1 id
        (Clause.alike_setLbd · (e.countLevels (e.clause id).lits.toList).2)
      exact counted.trans { stored with }
    · exact counted

/-! ### A single visit -/

/-- Put a list in place of that of a literal. -/
def withList (e : Engine) (p : Lit) (ws : Array Watcher) : Engine :=
  e.modifyWatches (·.setLong p ws)

/-- What the loop over a list does with one entry. -/
def visitEntry (falseLit : Lit) (entry : Watcher) (kept : Array Watcher) (e : Engine) :
    Engine × Array Watcher × Option Conflict :=
  visitWatched falseLit [entry] kept e

/-- What a visit of an entry can come to. -/
inductive Visited (falseLit : Lit) (entry : Watcher) (kept : Array Watcher) (e : Engine) :
    Engine × Array Watcher × Option Conflict → Prop
  | skipped (holds : e.trail.isTrue entry.blocker = true) :
    Visited falseLit entry kept e (e, kept.push entry, none)
  | satisfied {o : Engine} (oriented : o = e.modifyClause entry.clause (orient falseLit))
    (holds : o.trail.isTrue ((o.clause entry.clause).lit 0) = true) :
    Visited falseLit entry kept e
      (o, kept.push ⟨entry.clause, (o.clause entry.clause).lit 0⟩, none)
  | moved {o : Engine} (oriented : o = e.modifyClause entry.clause (orient falseLit)) {k : Nat}
    (low : 2 ≤ k) (high : k < (o.clause entry.clause).lits.size)
    (usable : o.trail.isFalse ((o.clause entry.clause).lit k) = false) :
    Visited falseLit entry kept e
      ((o.modifyClause entry.clause (·.swap 1 k)).modifyWatches
        (·.pushLong ((o.clause entry.clause).lit k).neg
          ⟨entry.clause, (o.clause entry.clause).lit 0⟩), kept, none)
  | implied {o f : Engine} (oriented : o = e.modifyClause entry.clause (orient falseLit))
    (others : ∀ k, 2 ≤ k → k < (o.clause entry.clause).lits.size →
      o.trail.isFalse ((o.clause entry.clause).lit k) = true)
    (undecided : o.trail.value ((o.clause entry.clause).lit 0).var = .undecided)
    (rescored : (o.assign ((o.clause entry.clause).lit 0) (.clause entry.clause)).Rescored f) :
    Visited falseLit entry kept e
      (f, kept.push ⟨entry.clause, (o.clause entry.clause).lit 0⟩, none)
  | falsified {o : Engine} (oriented : o = e.modifyClause entry.clause (orient falseLit))
    (others : ∀ k, 2 ≤ k → k < (o.clause entry.clause).lits.size →
      o.trail.isFalse ((o.clause entry.clause).lit k) = true)
    (fails : o.trail.isFalse ((o.clause entry.clause).lit 0) = true) :
    Visited falseLit entry kept e
      (o, kept.push ⟨entry.clause, (o.clause entry.clause).lit 0⟩, some (.clause entry.clause))

theorem visitWatched_cons (falseLit : Lit) (entry : Watcher) (rest : List Watcher)
    (kept : Array Watcher) (e : Engine) :
    visitWatched falseLit (entry :: rest) kept e =
      match visitEntry falseLit entry kept e with
      | (e, kept, none) => visitWatched falseLit rest kept e
      | (e, kept, some conflict) => (e, kept ++ rest.toArray, some conflict) := by
  simp only [visitEntry, visitWatched]
  split
  · rfl
  · split
    · rfl
    · rfl
    · split
      · simp
      · rfl

theorem visitEntry_cases (falseLit : Lit) (entry : Watcher) (kept : Array Watcher) {e : Engine}
    (used : (e.clause entry.clause).isRemoved = false) :
    Visited falseLit entry kept e (visitEntry falseLit entry kept e) := by
  have oriented : (e.modifyClause entry.clause (orient falseLit)).clause entry.clause =
      orient falseLit (e.clause entry.clause) := by
    rw [clause_modifyClause used, if_pos rfl]
  have sizes := (orient_reordered falseLit (e.clause entry.clause)).lits.length_eq
  simp only [visitEntry, visitWatched]
  split
  next holds => exact .skipped holds
  next blocked =>
    split
    next first seen =>
      obtain ⟨rfl, holds⟩ := inspect_eq_keep seen
      exact .satisfied rfl holds
    -- The literal to be watched instead stands at `k`, and is swapped into the second place.
    next k first seen =>
      obtain ⟨rfl, low, high, usable⟩ := inspect_eq_move seen
      have watched : (((e.modifyClause entry.clause (orient falseLit)).modifyClause entry.clause
          (·.swap 1 k)).clause entry.clause).lit 1 =
          ((e.modifyClause entry.clause (orient falseLit)).clause entry.clause).lit k := by
        rw [clause_modifyClause, if_pos rfl, Clause.lit_one_swap_one low high]
        rw [oriented, (orient_reordered _ _).removed, used]
      rw [watched]
      exact .moved rfl low high usable
    next first seen =>
      obtain ⟨rfl, notTrue, others⟩ := inspect_eq_unit blocked seen
      split
      next fails =>
        rw [Array.append_empty]
        exact .falsified rfl others fails
      next notFalse =>
        refine .implied rfl others ?_ ?_
        · exact Trail.value_eq_undecided notTrue (Bool.eq_false_iff.mpr notFalse)
        · split
          · exact rescored_refreshLbd _ _
          · exact .refl _

/-! ### Frozen clauses -/

theorem not_isFrozenStale_iff {e : Engine} {w : Watcher} :
    Watches.isFrozenStale e.arena w = false ↔
      (e.clause w.clause).isRemoved = false ∧ (e.clause w.clause).isFrozen = true := by
  simp [Watches.isFrozenStale, clause]

/-- Put other lists of frozen clauses in place. -/
def withFrozen (e : Engine) (lists : DenseMap Lit (Array Watcher)) : Engine :=
  e.modifyWatches fun w => { w with frozen := lists }

/-- Lists of frozen clauses to which entries of some clauses were added, under opposites of literals
of theirs that are not false. -/
structure Rehung (falseLit : Lit) (entries : List Watcher) (e : Engine)
    (lists : DenseMap Lit (Array Watcher)) : Prop where
  fallback : lists.fallback = e.watches.frozen.fallback
  visited : ∀ q, e.trail.isTrue q = true → lists.get q = e.watches.frozen.get q
  moved : ∀ q, ∀ w ∈ lists.get q, w ∈ e.watches.frozen.get q ∨
    ∃ entry ∈ entries, (e.clause entry.clause).isRemoved = false ∧
      (e.clause entry.clause).isFrozen = true ∧ w = ⟨entry.clause, falseLit⟩ ∧
      (q.neg = entry.blocker ∨ q.neg ∈ (e.clause entry.clause).lits)

namespace Rehung

variable {falseLit : Lit} {entry : Watcher} {rest entries : List Watcher} {e : Engine}
  {lists lists' : DenseMap Lit (Array Watcher)}

theorem refl (falseLit : Lit) (entries : List Watcher) (e : Engine) :
    Rehung falseLit entries e e.watches.frozen :=
  ⟨rfl, fun _ _ => rfl, fun _ _ => .inl⟩

theorem push (fresh : Watches.isFrozenStale e.arena entry = false) {l : Lit}
    (usable : e.trail.isFalse l = false)
    (here : l = entry.blocker ∨ l ∈ (e.clause entry.clause).lits) :
    Rehung falseLit (entry :: rest) e
      (e.watches.pushFrozen l.neg ⟨entry.clause, falseLit⟩).frozen where
  fallback := DenseMap.fallback_modify ..
  visited := by
    intro q holds
    refine (DenseMap.get_modify ..).trans (if_neg ?_)
    rintro rfl
    rw [Trail.isTrue_neg, usable] at holds
    cases holds
  moved := by
    intro q w member
    obtain ⟨used, frozen⟩ := not_isFrozenStale_iff.mp fresh
    refine (Watches.mem_pushFrozen.mp member).imp_right ?_
    rintro ⟨rfl, rfl⟩
    rw [Lit.neg_neg]
    exact ⟨entry, List.mem_cons_self, used, frozen, rfl, here⟩

theorem trans (h : Rehung falseLit (entry :: rest) e lists)
    (k : Rehung falseLit rest (e.withFrozen lists) lists') :
    Rehung falseLit (entry :: rest) e lists' where
  fallback := k.fallback.trans h.fallback
  visited := fun q holds => (k.visited q holds).trans (h.visited q holds)
  moved := by
    intro q w member
    rcases k.moved q w member with old | ⟨v, listed, moved⟩
    · exact h.moved q w old
    · exact .inr ⟨v, List.mem_cons_of_mem entry listed, moved⟩

end Rehung

/-- What a visit of the frozen clauses of a list can come to. -/
inductive VisitedFrozen (falseLit : Lit) (entries : List Watcher) (e : Engine) :
    Engine × List Watcher × Option Conflict → Prop
  | moved {lists : DenseMap Lit (Array Watcher)} (rehung : Rehung falseLit entries e lists) :
    VisitedFrozen falseLit entries e (e.withFrozen lists, [], none)
  | falsified {lists : DenseMap Lit (Array Watcher)} (rehung : Rehung falseLit entries e lists)
    {entry : Watcher} (member : entry ∈ entries) {left : List Watcher}
    (later : ∀ w ∈ left, w ∈ entries) (used : (e.clause entry.clause).isRemoved = false)
    (frozen : (e.clause entry.clause).isFrozen = true)
    (fails : ∀ l ∈ (e.clause entry.clause).lits, e.trail.isFalse l = true) :
    VisitedFrozen falseLit entries e
      ((e.withFrozen lists).thawFalsified entry.clause, left, some (.clause entry.clause))

theorem VisitedFrozen.cons {falseLit : Lit} {entry : Watcher} {rest : List Watcher} {e : Engine}
    {lists : DenseMap Lit (Array Watcher)} (first : Rehung falseLit (entry :: rest) e lists)
    {result : Engine × List Watcher × Option Conflict}
    (h : VisitedFrozen falseLit rest (e.withFrozen lists) result) :
    VisitedFrozen falseLit (entry :: rest) e result := by
  cases h with
  | moved rehung => exact .moved (first.trans rehung)
  | falsified rehung member later used frozen fails =>
    exact .falsified (first.trans rehung) (List.mem_cons_of_mem entry member)
      (fun w left => List.mem_cons_of_mem entry (later w left)) used frozen fails

theorem visitFrozen_cases (falseLit : Lit) (entries : List Watcher) (e : Engine) :
    VisitedFrozen falseLit entries e (visitFrozen falseLit entries e) := by
  induction entries generalizing e with
  | nil => exact .moved (.refl falseLit [] e)
  | cons entry rest ih =>
    unfold visitFrozen
    dsimp only
    split
    next => exact .cons (.refl falseLit (entry :: rest) e) (ih e)
    next fresh =>
      have fresh : Watches.isFrozenStale e.arena entry = false := Bool.eq_false_iff.mpr fresh
      split
      next unwatched =>
        have usable : e.trail.isFalse entry.blocker = false := by
          simpa using (Bool.and_eq_true_iff.mp unwatched).2
        exact .cons (.push fresh usable (.inl rfl)) (ih _)
      next =>
        split
        next l found =>
          have usable : e.trail.isFalse l = false := by simpa using Array.find?_some found
          exact .cons (.push fresh usable (.inr (Array.mem_of_find?_eq_some found))) (ih _)
        next none_left =>
          obtain ⟨used, frozen⟩ := not_isFrozenStale_iff.mp fresh
          refine .falsified (.refl falseLit (entry :: rest) e) List.mem_cons_self
            (fun w => List.mem_cons_of_mem entry) used frozen ?_
          simpa using none_left

end Engine

end Cdcl
