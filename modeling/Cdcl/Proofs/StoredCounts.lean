import Cdcl.Proofs.ConflictClauses
import Cdcl.Proofs.LearntWatches

/-!
# Level counts of clauses

The counter of levels is exact, whatever it was asked before. What is stored with a learnt clause is such
a count. All of its literals are false at the conflict, so that each of them has a level, and the clause
is on at least one level and on no more levels than it has literals. From then on, its count only falls.

## Main results

- `LevelCounter.answers_spec`: the answers of a counter, one by one.
- `lbd_handleConflict`: the count stored with a clause learnt.
- `lbd_refreshLbd`: a count brought up to date.
- `Solver.exact_of_counts`: counts are exact over any history.
-/

namespace Cdcl

namespace Trail

/-- The decision levels of literals. -/
def levelsOf (t : Trail) (lits : List Lit) : List Nat := lits.map fun l => t.levelOf l.var

/-- How many decision levels literals are on. -/
def levelCount (t : Trail) (lits : List Lit) : Nat := (t.levelsOf lits).toFinset.card

theorem levelCount_le (t : Trail) (lits : List Lit) : t.levelCount lits ≤ lits.length := by
  have few := (t.levelsOf lits).toFinset_card_le
  rwa [levelsOf, List.length_map] at few

theorem levelCount_perm (t : Trail) {lits others : List Lit} (perm : lits.Perm others) :
    t.levelCount lits = t.levelCount others :=
  congrArg Finset.card (List.toFinset_eq_of_perm _ _ (perm.map _))

theorem levelCount_pos (t : Trail) {lits : List Lit} (filled : lits ≠ []) : 0 < t.levelCount lits := by
  obtain ⟨l, inside⟩ := List.exists_mem_of_ne_nil lits filled
  exact Finset.card_pos.mpr ⟨t.levelOf l.var, List.mem_toFinset.mpr (List.mem_map_of_mem inside)⟩

end Trail

/-- A clause with a count is a learnt one, and takes another. -/
theorem Clause.lbd_setLbd {c : Clause} (counted : c.lbd ≠ 0) (n : Nat) :
    (c.setLbd n).lbd = min n maxLbd := by
  cases learnt : c.learnt? with
  | none => exact absurd (by simp [lbd, learnt]) counted
  | some i => simp [lbd, setLbd, modifyLearnt, learnt]

/-! ### Histories of counts -/

namespace LevelCounter

variable {c : LevelCounter}

/-- What a counter answers if asked for the levels of literals on one trail after the other, and the
counter that is left. -/
def answers (c : LevelCounter) : List (Trail × List Lit) → LevelCounter × List Nat
  | [] => (c, [])
  | call :: calls =>
    let (d, n) := c.count (call.1.levelsOf call.2)
    let (d, ns) := d.answers calls
    (d, n :: ns)

theorem now_visits (levels : List Nat) (c : LevelCounter) (n : Nat) :
    (levels.foldl (fun (c, n) level => c.visit n level) (c, n)).1.now = c.now := by
  induction levels generalizing c n with
  | nil => rfl
  | cons level levels ih =>
    have same : (c.visit n level).1.now = c.now := by
      unfold visit
      split <;> rfl
    exact (ih _ _).trans same

theorem now_count (c : LevelCounter) (levels : List Nat) : (c.count levels).1.now = c.now + 1 :=
  now_visits levels _ _

/-- Each answer is the number of levels asked for, and every call is counted. -/
theorem answers_spec (current : c.Current) (calls : List (Trail × List Lit)) :
    (c.answers calls).2 = calls.map (fun call => call.1.levelCount call.2) ∧
      (c.answers calls).1.Current ∧ (c.answers calls).1.now = c.now + calls.length := by
  induction calls generalizing c with
  | nil => exact ⟨rfl, current, rfl⟩
  | cons call calls ih =>
    obtain ⟨current', counts⟩ := count_spec current (call.1.levelsOf call.2)
    obtain ⟨answers, current, now⟩ := ih current'
    refine ⟨congrArg₂ List.cons counts answers, current, ?_⟩
    rw [now_count] at now
    rw [List.length_cons, Nat.add_comm calls.length, ← Nat.add_assoc]
    exact now

theorem current_empty : ({} : LevelCounter).Current := fun _ => Nat.le_refl 0

end LevelCounter

namespace Engine

variable {e f g : Engine} {id : ClauseId}

/-! ### Counts stored -/

/-- The clauses of `f` that were not in use in `e` have literals `lits` and the count `lbd`, as far as
counts go. -/
def StoresCount (e f : Engine) (lits : List Lit) (lbd : Nat) : Prop :=
  ∀ id, (e.clause id).isRemoved = true → (f.clause id).isRemoved = false →
    (f.clause id).lits.toList.Perm lits ∧ (f.clause id).lbd = min lbd Clause.maxLbd

namespace StoresCount

variable {lits : List Lit} {lbd : Nat}

/-- Nothing is stored as long as the clauses are the same. -/
theorem of_books (books : e.SameBooks f) : e.StoresCount f lits lbd := by
  intro id gone used
  rw [books.removed, gone] at used
  cases used

theorem after (h : f.StoresCount g lits lbd) (books : e.SameBooks f) : e.StoresCount g lits lbd :=
  fun id gone => h id ((books.removed id).trans gone)

theorem andThen (h : e.StoresCount f lits lbd) (books : f.SameBooks g) : e.StoresCount g lits lbd := by
  intro id gone used
  have kindred := books.kindred id
  obtain ⟨perm, count⟩ := h id gone (kindred.removed.symm.trans used)
  exact ⟨kindred.lits.trans perm, kindred.lbd.trans count⟩

end StoresCount

theorem storesCount_storeLearnt {lits : Array Lit} {lbd : Nat}
    (result : e.storeLearnt lits lbd = .ok (id, f)) : e.StoresCount f lits.toList lbd := by
  obtain ⟨arena, alloc, rfl⟩ := storeLearnt_eq result
  refine StoresCount.andThen (fun x gone used => ?_) (sameBooks_bumpClause _ id)
  have stored := e.clause_withLearnt alloc lbd x
  by_cases same : x = id
  · rw [if_pos same] at stored
    exact ⟨.of_eq (congrArg (fun c => c.lits.toList) stored), congrArg Clause.lbd stored⟩
  · rw [if_neg same] at stored
    have removed : (e.clause x).isRemoved = false := (congrArg Clause.isRemoved stored).symm.trans used
    rw [gone] at removed
    cases removed

theorem storesCount_addLearnt {c : Learnt} (result : e.addLearnt c = .ok f) :
    e.StoresCount f c.lits.toList c.lbd := by
  cases addLearnt_cases result with
  | empty => exact .of_books (.others e)
  | unit => exact .of_books (sameBooks_assign e _ _)
  | @pair a b =>
    intro id gone used
    obtain ⟨arena, -⟩ := e.fields_addBinary a b true
    have same : ((e.addBinary a b true).assign a (.binary b)).clause id = e.clause id := by
      change ((e.addBinary a b true).arena.get id) = _
      rw [arena]
      rfl
    rw [same, gone] at used
    cases used
  | @stored _ _ _ _ _ g _ stored =>
    exact (storesCount_storeLearnt stored).andThen (sameBooks_assign g _ _)

/-- A clause learnt from a conflict is stored with the number of levels that its literals were on. -/
theorem lbd_handleConflict {aside : List ClauseId} (sound : e.Sound aside) {c : Conflict}
    (conflict : e.IsConflict c) (positive : e.trail.level ≠ 0) (current : e.levelCounter.Current)
    (result : e.handleConflict c = .ok (.learnt, g)) (gone : (e.clause id).isRemoved = true)
    (used : (g.clause id).isRemoved = false) :
    (g.clause id).lits.size ≠ 0 ∧
      (g.clause id).lbd = min (e.trail.levelCount (g.clause id).lits.toList) Clause.maxLbd := by
  cases handleConflict_cases result with
  | @learnt f b d analyzed added =>
    obtain ⟨examined, -, teaches⟩ := analyze_teaches sound conflict positive analyzed
    have counted := (analyze_counts analyzed).2 current
    have stores := ((storesCount_addLearnt added).after (sameBooks_back analyzed)).andThen
      (sameBooks_noted b d.lbd e.trail.size)
    obtain ⟨perm, count⟩ := stores id gone used
    obtain ⟨p, rest, shape, -⟩ := teaches.shape
    rw [examined.trail] at counted
    refine ⟨fun empty => ?_, ?_⟩
    · have length := perm.length_eq
      rw [Array.length_toList, empty, shape] at length
      cases length
    · rw [count, Trail.levelCount_perm _ perm, counted]
      rfl

/-! ### Counts brought up to date -/

/-- A count stays, or is lowered to the number of levels that the literals are on. -/
theorem lbd_refreshLbd (e : Engine) (id other : ClauseId) :
    ((e.refreshLbd id).clause other).lbd = (e.clause other).lbd ∨
      ∃ n, n < (e.clause other).lbd ∧ ((e.refreshLbd id).clause other).lbd = min n Clause.maxLbd ∧
        (e.levelCounter.Current → n = e.trail.levelCount (e.clause other).lits.toList) := by
  unfold refreshLbd
  dsimp only
  split
  · exact .inl rfl
  · split
    next lower =>
      rcases clause_modifyClause_or (e.countLevels (e.clause id).lits.toList).1 id
        (·.setLbd (e.countLevels (e.clause id).lits.toList).2) other with same | ⟨rfl, changed⟩
      · exact .inl (congrArg Clause.lbd same)
      · refine .inr ⟨_, lower, ?_, fun current => countLevels_spec current _⟩
        have counted : (e.clause id).lbd ≠ 0 := by omega
        exact (congrArg Clause.lbd changed).trans (Clause.lbd_setLbd counted _)
    · exact .inl rfl

end Engine

namespace Solver

open Engine

/-- Does the search learn from a conflict? -/
def learns (e : Engine) (c : Conflict) : Bool :=
  match e.handleConflict c with
  | .ok (.learnt, _) => true
  | _ => false

theorem exists_of_learns {e : Engine} {c : Conflict} (learns : learns e c = true) :
    ∃ g, e.handleConflict c = .ok (.learnt, g) := by
  unfold Solver.learns at learns
  split at learns
  next g handled => exact ⟨g, handled⟩
  next => cases learns

/-- Counting by stamps is exact over any history of fewer than `2 ^ 64` calls, and the stamps stay below
that bound. So the count stored with a clause learnt from a conflict is between one and its size, and from
then on counts are only lowered. -/
theorem exact_of_counts :
    (∀ calls : List (Trail × List Lit), calls.length < 2 ^ 64 →
      (({} : LevelCounter).answers calls).2 = calls.map (fun call => call.1.levelCount call.2) ∧
        (({} : LevelCounter).answers calls).1.now < 2 ^ 64 ∧
        ∀ level, (({} : LevelCounter).answers calls).1.stamps.get level < 2 ^ 64) ∧
      (∀ F s e c g id, Clash F s e c → e.handleConflict c = .ok (.learnt, g) →
        (e.clause id).isRemoved = true → (g.clause id).isRemoved = false →
        1 ≤ (g.clause id).lbd ∧ (g.clause id).lbd ≤ (g.clause id).size ∧
          (g.clause id).lbd = min (e.trail.levelCount (g.clause id).lits.toList) Clause.maxLbd) ∧
      ∀ (e : Engine) (id other : ClauseId),
        ((e.refreshLbd id).clause other).lbd ≤ (e.clause other).lbd ∧
          (e.levelCounter.Current → ((e.refreshLbd id).clause other).lbd = (e.clause other).lbd ∨
            ((e.refreshLbd id).clause other).lbd =
              min (e.trail.levelCount (e.clause other).lits.toList) Clause.maxLbd) := by
  refine ⟨fun calls few => ?_, fun F s e c g id clash learns gone used => ?_, fun e id other => ?_⟩
  · obtain ⟨answers, current, now⟩ := LevelCounter.answers_spec LevelCounter.current_empty calls
    have bound : (({} : LevelCounter).answers calls).1.now < 2 ^ 64 := by
      rw [now, Nat.zero_add]
      exact few
    exact ⟨answers, bound, fun level => Nat.lt_of_le_of_lt (current level) bound⟩
  · obtain ⟨sound, conflict, positive, current⟩ := clash.sound
    obtain ⟨filled, count⟩ := lbd_handleConflict sound conflict positive current learns gone used
    have some : (g.clause id).lits.toList ≠ [] := by simpa using filled
    have many := e.trail.levelCount_pos some
    have few := e.trail.levelCount_le (g.clause id).lits.toList
    rw [Array.length_toList] at few
    have wide : 1 ≤ Clause.maxLbd := by decide
    rw [Clause.size, count]
    exact ⟨Nat.le_min.mpr ⟨many, wide⟩, (Nat.min_le_left _ _).trans few, rfl⟩
  · rcases e.lbd_refreshLbd id other with same | ⟨n, lower, lowered, counts⟩
    · exact ⟨Nat.le_of_eq same, fun _ => .inl same⟩
    · refine ⟨?_, fun current => .inr ?_⟩
      · rw [lowered]
        omega
      · rw [lowered, counts current]

/-- The clause learnt is on four levels, and stored with that count. -/
theorem exact_of_counts_stored : ∃ s e c g id,
    Clash (clausesOf [[-1, -2, -3, -4, 5], [-1, -2, -3, -4, -5]]) s e c ∧
      e.handleConflict c = .ok (.learnt, g) ∧ (e.clause id).isRemoved = true ∧
      (g.clause id).isRemoved = false ∧ (g.clause id).lbd = 4 ∧ 4 ≤ (g.clause id).size ∧
      ((g.refreshLbd id).clause id).lbd ≤ 4 ∧
      (({} : LevelCounter).answers [(e.trail, [.ofDimacs 1, .ofDimacs 5, .ofDimacs (-1)]), (e.trail, []),
        (e.trail, [.ofDimacs 1, .ofDimacs 4])]).2 = [2, 0, 2] := by
  have passes : sessionPasses {} 9 (giving 5 (clausesOf [[-1, -2, -3, -4, 5], [-1, -2, -3, -4, -5]]))
      (clausesOf [[-1, -2, -3, -4, 5], [-1, -2, -3, -4, -5]])
      (fun s => s.engine.ok && s.searchPasses
        [.ofDimacs 1, .ofDimacs 2, .ofDimacs 3, .ofDimacs 4] (stepsPass
          (clashPasses fun e c => learns e c &&
            ((e.analyze c).toOption.any (fun r => r.2.lits ==
              #[.ofDimacs (-4), .ofDimacs (-3), .ofDimacs (-2), .ofDimacs (-1)]) &&
            (e.arena.clauses.toList.all (fun k => k.size == 5) &&
            (e.trail.levelCount [.ofDimacs (-4), .ofDimacs (-3), .ofDimacs (-2), .ofDimacs (-1)] == 4 &&
              (e.trail.levelCount [.ofDimacs 1, .ofDimacs 5, .ofDimacs (-1)] == 2 &&
                e.trail.levelCount [.ofDimacs 1, .ofDimacs 4] == 2))))) 4)) = true := by
    decide +kernel
  obtain ⟨s, history, tests⟩ := exists_of_sessionPasses passes
  obtain ⟨ok, searches⟩ := Bool.and_eq_true_iff.mp tests
  obtain ⟨t, u, assumed, starts, steps⟩ := exists_of_searchPasses searches
  obtain ⟨w, searched, meets⟩ := (Searched.start history ok assumed starts).exists_of_stepsPass steps
  obtain ⟨e, c, clash, tests⟩ := searched.exists_of_clashPasses meets
  simp only [Bool.and_eq_true, beq_iff_eq] at tests
  obtain ⟨learns, analyzed, sizes, four, two, two'⟩ := tests
  obtain ⟨g, learns⟩ := exists_of_learns learns
  obtain ⟨sound, conflict, positive, -⟩ := clash.sound
  obtain ⟨a, d, l, rest, found, turned⟩ := turned_handleConflict sound conflict positive learns
  rw [found] at analyzed
  have lits : d.lits = #[.ofDimacs (-4), .ofDimacs (-3), .ofDimacs (-2), .ofDimacs (-1)] :=
    eq_of_beq analyzed
  obtain ⟨id, attached, stored⟩ := turned.gained.stored (by rw [lits]; decide)
  have used := isRemoved_of_isAttached attached
  have size : (g.clause id).size = 4 := by rw [Clause.size, stored, lits]; rfl
  -- A clause that was there before has five literals, and this one has four.
  have gone : (e.clause id).isRemoved = true := by
    by_contra old
    have old := Bool.eq_false_iff.mpr old
    have back := (sameBooks_cancelTo e d.level).kindred id
    have kept := (turned.gained.kept id (back.removed.trans old)).lits
    have five := List.all_eq_true.mp sizes _
      (Array.mem_toList_iff.mpr (Array.mem_of_getElem? (ClauseArena.getElem?_of_used old)))
    have same : (g.clause id).size = (e.clause id).size := by
      rw [Clause.size, kept]
      exact back.size
    rw [size] at same
    rw [beq_iff_eq] at five
    exact absurd (same.trans five) (by decide)
  obtain ⟨answers, bounds, lowers⟩ := exact_of_counts
  obtain ⟨-, most, count⟩ := bounds _ w e c g id clash learns gone used
  rw [stored, lits, four] at count
  have count : (g.clause id).lbd = 4 := count.trans (by decide)
  refine ⟨w, e, c, g, id, clash, learns, gone, used, count, count ▸ most,
    (lowers g id id).1.trans_eq count, ?_⟩
  rw [(answers _ (by simp)).1]
  exact congrArg₂ List.cons two (congrArg₂ List.cons rfl (congrArg₂ List.cons two' rfl))

end Solver

end Cdcl
