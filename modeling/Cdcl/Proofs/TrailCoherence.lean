import Cdcl.Search.Trail
import Mathlib.Data.List.Infix
import Mathlib.Data.List.Perm.Subperm
import Mathlib.Tactic.ByContra

/-!
# Coherence of the trail

The list of literals, the marks of the levels and the tables of values and levels tell the same
story: a literal is true exactly if it is on the trail, no variable is there twice, and the level
of a literal is the number of levels that start at or before it.

## Main results

`Coherent.assign`, `Coherent.openLevel` and `Coherent.cancelTo`: the three ways in which a search
changes the trail keep it coherent.
-/

namespace Cdcl

namespace Trail

/-- Is the literal among the first `i` of the trail? -/
def Before (t : Trail) (i : Nat) (l : Lit) : Prop := ∃ j, j < i ∧ t.lits[j]? = some l

/-- The level of a position: how many levels start at or before it. -/
def levelAt (t : Trail) (i : Nat) : Nat := t.marks.toList.countP (· ≤ i)

/-- Is the literal on the trail before position `i`, at the level of that position? -/
def Beside (t : Trail) (i : Nat) (l : Lit) : Prop :=
  ∃ j, j < i ∧ t.lits[j]? = some l ∧ t.levelAt j = t.levelAt i

/-- Is the literal on the trail, at the current level? -/
structure Latest (t : Trail) (l : Lit) : Prop where
  mem : l ∈ t.lits
  level : t.levelOf l.var = t.level

/-- The position is at level zero or the first of its level. -/
def Opens (t : Trail) (i : Nat) : Prop := t.levelAt i = 0 ∨ ∀ j < i, t.levelAt j < t.levelAt i

/-- The two trails are the same before position `i`, with the same levels up to there. -/
structure AgreesTo (t u : Trail) (i : Nat) : Prop where
  lits : ∀ j < i, u.lits[j]? = t.lits[j]?
  levels : ∀ j ≤ i, u.levelAt j = t.levelAt j

/-- Values, marks and levels agree with the literals, whose variables are below `n`. -/
structure Coherent (n : Nat) (t : Trail) : Prop where
  bounded : ∀ l ∈ t.lits, l.var.index < n
  distinct : ∀ {i j : Nat} {l m : Lit},
    t.lits[i]? = some l → t.lits[j]? = some m → l.var = m.var → i = j
  isTrue_iff : ∀ l, t.isTrue l = true ↔ l ∈ t.lits
  sorted : t.marks.toList.Pairwise (· ≤ ·)
  marks_le : ∀ m ∈ t.marks, m ≤ t.head
  head_le : t.head ≤ t.lits.size
  level_eq : ∀ {i : Nat} {l : Lit}, t.lits[i]? = some l → t.levelOf l.var = t.levelAt i

/-! ### Values -/

theorem isTrue_neg (t : Trail) (l : Lit) : t.isTrue l.neg = t.isFalse l := by
  simp only [isTrue, isFalse, valueLit_neg]
  cases t.valueLit l <;> rfl

theorem isFalse_neg (t : Trail) (l : Lit) : t.isFalse l.neg = t.isTrue l := by
  rw [← isTrue_neg, Lit.neg_neg]

theorem isTrue_eq (t : Trail) (l : Lit) :
    t.isTrue l = true ↔ t.value l.var = Truth.ofBool l.positive := by
  simp only [isTrue, valueLit, Truth.ofLit, beq_iff_eq]
  cases t.value l.var <;> cases l.positive <;> simp [Truth.xor, Truth.neg, Truth.ofBool]

theorem valueLit_eq_yes_iff (t : Trail) (l : Lit) : t.valueLit l = .yes ↔ t.isTrue l = true := by
  simp [isTrue]

theorem valueLit_eq_no_iff (t : Trail) (l : Lit) : t.valueLit l = .no ↔ t.isFalse l = true := by
  simp [isFalse]

theorem valueLit_eq_undecided_iff (t : Trail) (l : Lit) :
    t.valueLit l = .undecided ↔ t.value l.var = .undecided := by
  simp only [valueLit, Truth.ofLit]
  cases t.value l.var <;> cases l.positive <;> simp [Truth.xor, Truth.neg]

theorem value_eq_undecided {t : Trail} {l : Lit} (notTrue : t.isTrue l = false)
    (notFalse : t.isFalse l = false) : t.value l.var = .undecided := by
  rw [← valueLit_eq_undecided_iff]
  simp only [isTrue, isFalse] at notTrue notFalse
  cases value : t.valueLit l <;> simp [value] at notTrue notFalse ⊢

theorem isTrue_of_isFalse {t : Trail} {l : Lit} (fails : t.isFalse l = true) :
    t.isTrue l = false := by
  simp only [isFalse, beq_iff_eq] at fails
  simp [isTrue, fails]

theorem isUnassigned_iff (t : Trail) (v : Var) :
    t.isUnassigned v = true ↔ t.value v = .undecided := by
  simp [isUnassigned]

@[simp] theorem level_openLevel (t : Trail) : t.openLevel.level = t.level + 1 := by
  simp [openLevel, level]

theorem level_cancelTo {t : Trail} {k : Nat} (below : k < t.level) : (t.cancelTo k).level = k := by
  simp only [level, cancelTo, Array.size_extract] at *
  omega

theorem mem_iff_before {t : Trail} {l : Lit} : l ∈ t.lits ↔ t.Before t.lits.size l := by
  rw [Array.mem_iff_getElem?]
  exact ⟨fun ⟨i, e⟩ => ⟨i, (Array.getElem?_eq_some_iff.mp e).1, e⟩, fun ⟨i, _, e⟩ => ⟨i, e⟩⟩

theorem Before.mono {t : Trail} {i j : Nat} {l : Lit} (h : t.Before i l) (le : i ≤ j) :
    t.Before j l :=
  h.imp fun _ ⟨below, e⟩ => ⟨Nat.lt_of_lt_of_le below le, e⟩

theorem Before.mem {t : Trail} {i : Nat} {l : Lit} (h : t.Before i l) : l ∈ t.lits :=
  let ⟨_, _, e⟩ := h
  Array.mem_of_getElem? e

theorem not_before_zero {t : Trail} {l : Lit} : ¬ t.Before 0 l := fun ⟨_, below, _⟩ => by omega

theorem Beside.before {t : Trail} {i : Nat} {l : Lit} (h : t.Beside i l) : t.Before i l :=
  h.imp fun _ ⟨below, e, _⟩ => ⟨below, e⟩

namespace AgreesTo

variable {t u : Trail} {i : Nat}

theorem refl (t : Trail) (i : Nat) : t.AgreesTo t i := ⟨fun _ _ => rfl, fun _ _ => rfl⟩

theorem before (h : t.AgreesTo u i) {l : Lit} : u.Before i l ↔ t.Before i l :=
  exists_congr fun j => and_congr_right fun below => by rw [h.lits j below]

theorem beside (h : t.AgreesTo u i) {l : Lit} : u.Beside i l ↔ t.Beside i l :=
  exists_congr fun j => and_congr_right fun below => by
    rw [h.lits j below, h.levels j (Nat.le_of_lt below), h.levels i (Nat.le_refl i)]

theorem opens (h : t.AgreesTo u i) : u.Opens i ↔ t.Opens i := by
  unfold Opens
  rw [h.levels i (Nat.le_refl i)]
  refine or_congr_right (forall_congr' fun j => forall_congr' fun below => ?_)
  rw [h.levels j (Nat.le_of_lt below)]

end AgreesTo

namespace Coherent

variable {n : Nat} {t : Trail}

theorem isFalse_iff (h : t.Coherent n) (l : Lit) : t.isFalse l = true ↔ l.neg ∈ t.lits := by
  rw [← isTrue_neg, h.isTrue_iff]

theorem not_mem_neg (h : t.Coherent n) {l : Lit} (member : l ∈ t.lits) : l.neg ∉ t.lits := by
  intro opposite
  have yes := (isTrue_eq t l).mp ((h.isTrue_iff l).mpr member)
  have no := (isTrue_eq t l.neg).mp ((h.isTrue_iff l.neg).mpr opposite)
  rw [Lit.var_neg, yes] at no
  cases positive : l.positive <;> simp [positive, Truth.ofBool] at no

theorem undecided_iff (h : t.Coherent n) (v : Var) :
    t.value v = .undecided ↔ ∀ l ∈ t.lits, l.var ≠ v := by
  constructor
  · rintro undecided l member rfl
    have := (isTrue_eq t l).mp ((h.isTrue_iff l).mpr member)
    rw [undecided] at this
    cases positive : l.positive <;> simp [positive, Truth.ofBool] at this
  · intro absent
    cases value : t.value v with
    | undecided => rfl
    | yes => exact absurd rfl (absent ⟨v, true⟩ ((h.isTrue_iff _).mp ((isTrue_eq t _).mpr value)))
    | no => exact absurd rfl (absent ⟨v, false⟩ ((h.isTrue_iff _).mp ((isTrue_eq t _).mpr value)))

/-- The literals of the trail are at most as many as the variables. -/
theorem size_le (h : t.Coherent n) : t.lits.size ≤ n := by
  -- Distinct literals of the trail are of distinct variables, and there are n of these.
  have distinct : (t.lits.toList.map fun l => l.var.index).Nodup := by
    refine List.pairwise_iff_getElem.mpr fun i j iBound jBound lt same => ?_
    simp only [List.getElem_map, Array.getElem_toList] at same
    simp only [List.length_map, Array.length_toList] at iBound jBound
    have := h.distinct (Array.getElem?_eq_getElem iBound) (Array.getElem?_eq_getElem jBound)
      (DenseKey.index_inj.mp same)
    omega
  have inside : (t.lits.toList.map fun l => l.var.index) ⊆ List.range n := by
    intro i member
    obtain ⟨l, inTrail, rfl⟩ := List.mem_map.mp member
    exact List.mem_range.mpr (h.bounded l (Array.mem_toList_iff.mp inTrail))
  have := (List.subperm_of_subset distinct inside).length_le
  simpa using this

end Coherent

/-! ### Levels -/

theorem levelAt_mono (t : Trail) {i j : Nat} (le : i ≤ j) : t.levelAt i ≤ t.levelAt j := by
  refine List.countP_mono_left fun m _ => ?_
  simp only [decide_eq_true_eq]
  omega

theorem levelAt_le (t : Trail) (i : Nat) : t.levelAt i ≤ t.level := by
  have := List.countP_le_length (p := fun m => decide (m ≤ i)) (l := t.marks.toList)
  simpa [levelAt, level] using this

private theorem countP_le_iff {ms : List Nat} (sorted : ms.Pairwise (· ≤ ·)) {k : Nat}
    (inside : k < ms.length) (i : Nat) : ms.countP (· ≤ i) ≤ k ↔ i < ms[k] := by
  -- On the list of marks: a position before the mark at k has at most the marks before that one
  -- behind it.
  induction ms generalizing k with
  | nil => simp at inside
  | cons m ms ih =>
    obtain ⟨first, sorted⟩ := List.pairwise_cons.mp sorted
    rw [List.countP_cons]
    cases k with
    | zero =>
      simp only [List.getElem_cons_zero, Nat.le_zero, Nat.add_eq_zero_iff]
      constructor
      · rintro ⟨_, no⟩
        simpa using no
      · intro above
        -- The first mark is behind the position, and so are the others, which come after it.
        refine ⟨List.countP_eq_zero.mpr fun x member => ?_, by simpa using above⟩
        have := first x member
        simp only [decide_eq_true_eq]
        omega
    | succ k =>
      have inside : k < ms.length := by simpa using inside
      simp only [List.getElem_cons_succ]
      rw [← ih sorted inside]
      have order := first ms[k] (List.getElem_mem inside)
      have step := ih sorted inside
      split
      · omega
      next no =>
        simp only [decide_eq_true_eq, Nat.not_le] at no
        -- All marks are behind a position that the first one is behind.
        have : ms.countP (· ≤ i) = 0 := List.countP_eq_zero.mpr fun x member => by
          have := first x member
          simp only [decide_eq_true_eq]
          omega
        omega

theorem startAbove_of_lt {t : Trail} {k : Nat} (below : k < t.marks.size) :
    t.startAbove k = t.marks[k] := by
  rw [startAbove, Array.getD_eq_getD_getElem?, Array.getElem?_eq_getElem below, Option.getD_some]

namespace Coherent

variable {n : Nat} {t : Trail}

theorem startAbove_le_head (h : t.Coherent n) {k : Nat} (below : k < t.level) :
    t.startAbove k ≤ t.head := by
  rw [startAbove_of_lt below]
  exact h.marks_le _ (Array.getElem_mem below)

theorem startAbove_le (h : t.Coherent n) (k : Nat) : t.startAbove k ≤ t.lits.size := by
  by_cases below : k < t.level
  · exact Nat.le_trans (h.startAbove_le_head below) h.head_le
  · rw [startAbove, Array.getD_eq_getD_getElem?, Array.getElem?_eq_none (by simpa [level] using below)]
    exact Nat.le_refl _

/-- A position is below the start of the next level exactly if its level is at most `k`. -/
theorem levelAt_le_iff (h : t.Coherent n) {k : Nat} (below : k < t.level) (i : Nat) :
    t.levelAt i ≤ k ↔ i < t.startAbove k := by
  rw [startAbove_of_lt below]
  have inside : k < t.marks.toList.length := by simpa [level] using below
  exact countP_le_iff h.sorted inside i

theorem levelAt_of_head_le (h : t.Coherent n) {i : Nat} (le : t.head ≤ i) :
    t.levelAt i = t.level := by
  rw [levelAt, List.countP_eq_length.mpr, Array.length_toList, level]
  intro m member
  have := h.marks_le m (Array.mem_toList_iff.mp member)
  simp only [decide_eq_true_eq]
  omega

theorem beside_end (h : t.Coherent n) {l : Lit} (latest : t.Latest l) :
    t.Beside t.lits.size l := by
  obtain ⟨i, at_i⟩ := Array.mem_iff_getElem?.mp latest.mem
  -- Nothing is propagated behind a mark, so the end of the trail is at the last level.
  refine ⟨i, (Array.getElem?_eq_some_iff.mp at_i).1, at_i, ?_⟩
  rw [← h.level_eq at_i, latest.level, h.levelAt_of_head_le h.head_le]

/-- The literals that wait to be propagated are of the current level. -/
theorem latest_of_head_le (h : t.Coherent n) {i : Nat} {l : Lit} (le : t.head ≤ i)
    (at_i : t.lits[i]? = some l) : t.Latest l where
  mem := Array.mem_of_getElem? at_i
  level := by rw [h.level_eq at_i, h.levelAt_of_head_le le]

theorem facts_eq (t : Trail) : t.facts = t.lits.toList.take (t.startAbove 0) := by
  unfold facts startAbove
  rw [Array.getD_eq_getD_getElem?]
  cases t.marks[0]? with
  | none => exact (List.take_of_length_le (by simp)).symm
  | some m => rfl

theorem mem_facts_iff {l : Lit} : l ∈ t.facts ↔ t.Before (t.startAbove 0) l := by
  rw [facts_eq, List.mem_take_iff_getElem]
  simp only [Before, Array.length_toList, Array.getElem_toList]
  constructor
  · rintro ⟨i, bound, rfl⟩
    exact ⟨i, by omega, Array.getElem?_eq_getElem (by omega)⟩
  · rintro ⟨i, bound, e⟩
    obtain ⟨inside, e⟩ := Array.getElem?_eq_some_iff.mp e
    exact ⟨i, by omega, e⟩

theorem startAbove_of_level_le {k : Nat} (le : t.level ≤ k) : t.startAbove k = t.lits.size := by
  rw [startAbove, Array.getD_eq_getD_getElem?, Array.getElem?_eq_none (by simpa [level] using le)]
  rfl

/-- At level zero every literal of the trail is a fact. -/
theorem mem_facts_of_level_zero (zero : t.level = 0) {l : Lit} : l ∈ t.facts ↔ l ∈ t.lits := by
  rw [mem_facts_iff, startAbove_of_level_le (by omega), mem_iff_before]

/-- The facts are the literals of level zero. -/
theorem mem_facts_iff_levelOf (h : t.Coherent n) {l : Lit} :
    l ∈ t.facts ↔ l ∈ t.lits ∧ t.levelOf l.var = 0 := by
  rw [mem_facts_iff, Array.mem_iff_getElem?]
  -- At level zero there is no mark to compare with: all positions are of level zero.
  by_cases zero : t.level = 0
  · rw [startAbove_of_level_le (by omega)]
    constructor
    · rintro ⟨i, _, e⟩
      refine ⟨⟨i, e⟩, ?_⟩
      have := t.levelAt_le i
      rw [h.level_eq e]
      omega
    · rintro ⟨⟨i, e⟩, _⟩
      exact ⟨i, (Array.getElem?_eq_some_iff.mp e).1, e⟩
  · constructor
    · rintro ⟨i, bound, e⟩
      refine ⟨⟨i, e⟩, ?_⟩
      have := (h.levelAt_le_iff (by omega) i).mpr bound
      rw [h.level_eq e]
      omega
    · rintro ⟨⟨i, e⟩, level⟩
      rw [h.level_eq e] at level
      exact ⟨i, (h.levelAt_le_iff (by omega) i).mp (by omega), e⟩

end Coherent

/-- At level zero any position may hold a literal without a reason. -/
theorem opens_of_level_zero {t : Trail} (zero : t.level = 0) (i : Nat) : t.Opens i :=
  .inl (Nat.le_zero.mp (zero ▸ t.levelAt_le i))

theorem Before.beside_of_level_zero {t : Trail} {i : Nat} {l : Lit} (h : t.Before i l)
    (zero : t.level = 0) : t.Beside i l := by
  obtain ⟨j, below, e⟩ := h
  have here := t.levelAt_le i
  have there := t.levelAt_le j
  exact ⟨j, below, e, by omega⟩

/-! ### Opening a level -/

theorem levelAt_openLevel {t : Trail} {i : Nat} (inside : i < t.lits.size) :
    t.openLevel.levelAt i = t.levelAt i := by
  simp only [levelAt, openLevel, Array.toList_push, List.countP_append]
  rw [List.countP_singleton, if_neg (by simpa using inside), Nat.add_zero]

theorem agreesTo_openLevel (t : Trail) {i : Nat} (inside : i < t.lits.size) :
    t.AgreesTo t.openLevel i where
  lits := fun _ _ => rfl
  levels := fun j le => levelAt_openLevel (by omega)

/-! ### Assigning -/

theorem levelOf_assign (t : Trail) (l : Lit) (why : Reason) (v : Var) :
    (t.assign l why).levelOf v = if l.var = v then t.level else t.levelOf v := by
  simp only [levelOf, assign, DenseMap.get_insert, level]

theorem reason_assign (t : Trail) (l : Lit) (why : Reason) (v : Var) :
    (t.assign l why).reason v = if l.var = v then why else t.reason v := by
  simp only [reason, assign, DenseMap.get_insert]

theorem getElem?_assign (t : Trail) (l : Lit) (why : Reason) (i : Nat) :
    (t.assign l why).lits[i]? = if i = t.lits.size then some l else t.lits[i]? := by
  simp only [assign, Array.getElem?_push]

/-- A longer trail on the same levels has the facts of before, and perhaps more. -/
theorem prefix_facts {t u : Trail} (marks : u.marks = t.marks)
    (lits : t.lits.toList <+: u.lits.toList) : t.facts <+: u.facts := by
  unfold facts
  rw [marks]
  split
  · exact lits.take _
  · exact lits

theorem prefix_facts_assign (t : Trail) (l : Lit) (why : Reason) :
    t.facts <+: (t.assign l why).facts := by
  refine prefix_facts rfl ?_
  rw [assign, Array.toList_push]
  exact List.prefix_append _ _

theorem facts_assign_subset {t : Trail} {l m : Lit} {why : Reason} (fact : m ∈ t.facts) :
    m ∈ (t.assign l why).facts := (t.prefix_facts_assign l why).subset fact

theorem isTrue_assign (t : Trail) (l : Lit) (why : Reason) (m : Lit) :
    (t.assign l why).isTrue m = true ↔ m = l ∨ (l.var ≠ m.var ∧ t.isTrue m = true) := by
  rw [isTrue_eq, isTrue_eq, value_assign]
  by_cases same : l.var = m.var
  · rw [if_pos same]
    constructor
    · -- A literal of the variable that is not the new one is its negation, which is false now.
      intro e
      left
      rcases Lit.eq_or_eq_neg_of_var_eq same.symm with rfl | rfl
      · rfl
      · cases positive : l.positive <;> simp [positive, Truth.ofBool] at e
    · rintro (rfl | ⟨other, _⟩)
      · rfl
      · exact absurd same other
  · rw [if_neg same]
    constructor
    · exact fun e => .inr ⟨same, e⟩
    · rintro (rfl | ⟨_, e⟩)
      · exact absurd rfl same
      · exact e

theorem levelAt_assign (t : Trail) (l : Lit) (why : Reason) (i : Nat) :
    (t.assign l why).levelAt i = t.levelAt i := rfl

theorem agreesTo_assign (t : Trail) (l : Lit) (why : Reason) {i : Nat} (le : i ≤ t.lits.size) :
    t.AgreesTo (t.assign l why) i where
  lits := fun j below => by rw [getElem?_assign, if_neg (by omega)]
  levels := fun j _ => levelAt_assign t l why j

theorem before_assign {t : Trail} {l m : Lit} {why : Reason} {i : Nat} (le : i ≤ t.lits.size) :
    (t.assign l why).Before i m ↔ t.Before i m := by
  refine exists_congr fun j => and_congr_right fun below => ?_
  rw [getElem?_assign, if_neg (by omega)]

namespace Coherent

variable {n : Nat} {t : Trail}

theorem var_ne (h : t.Coherent n) {l m : Lit} (unassigned : t.value l.var = .undecided)
    (member : m ∈ t.lits) : m.var ≠ l.var :=
  (h.undecided_iff _).mp unassigned m member

/-- Assigning an unassigned literal keeps the trail coherent. -/
theorem assign (h : t.Coherent n) {l : Lit} (why : Reason)
    (unassigned : t.value l.var = .undecided) (bound : l.var.index < n) :
    (t.assign l why).Coherent n where
  bounded := by
    intro m member
    rcases Array.mem_push.mp member with old | rfl
    · exact h.bounded m old
    · exact bound
  distinct := by
    intro i j a b atI atJ same
    rw [getElem?_assign] at atI atJ
    -- Two positions with one variable: the new position is not one of an assigned variable.
    split at atI <;> split at atJ
    · omega
    · cases atI
      exact absurd same.symm (h.var_ne unassigned (Array.mem_of_getElem? atJ))
    · cases atJ
      exact absurd same (h.var_ne unassigned (Array.mem_of_getElem? atI))
    · exact h.distinct atI atJ same
  isTrue_iff := by
    intro m
    rw [isTrue_assign, h.isTrue_iff]
    simp only [Trail.assign, Array.mem_push]
    constructor
    · rintro (rfl | ⟨_, old⟩)
      · exact .inr rfl
      · exact .inl old
    · rintro (old | rfl)
      · exact .inr ⟨(h.var_ne unassigned old).symm, old⟩
      · exact .inl rfl
  sorted := h.sorted
  marks_le := h.marks_le
  head_le := by
    have := h.head_le
    simp only [Trail.assign, Array.size_push]
    omega
  level_eq := by
    intro i m atI
    rw [getElem?_assign] at atI
    rw [levelOf_assign, levelAt_assign]
    split at atI
    next atEnd =>
      cases atI
      -- The new literal is behind all marks.
      rw [if_pos rfl, atEnd, h.levelAt_of_head_le h.head_le]
    next =>
      rw [if_neg (h.var_ne unassigned (Array.mem_of_getElem? atI)).symm, h.level_eq atI]

/-- Opening a level once everything is propagated keeps the trail coherent. -/
theorem openLevel (h : t.Coherent n) (propagated : t.head = t.lits.size) :
    t.openLevel.Coherent n where
  bounded := h.bounded
  distinct := h.distinct
  isTrue_iff := h.isTrue_iff
  sorted := by
    simp only [Trail.openLevel, Array.toList_push]
    refine List.pairwise_append.mpr ⟨h.sorted, List.pairwise_singleton _ _, ?_⟩
    intro m member k last
    rw [List.mem_singleton.mp last, ← propagated]
    exact h.marks_le m (Array.mem_toList_iff.mp member)
  marks_le := by
    intro m member
    rcases Array.mem_push.mp member with old | rfl
    · exact h.marks_le m old
    · exact Nat.le_of_eq propagated.symm
  head_le := h.head_le
  level_eq := by
    intro i l atI
    have inside : i < t.lits.size := (Array.getElem?_eq_some_iff.mp atI).1
    rw [levelAt_openLevel inside]
    exact h.level_eq atI

/-- The position after a fresh mark is the first of its level. -/
theorem opens_openLevel (h : t.Coherent n) (propagated : t.head = t.lits.size) :
    t.openLevel.Opens t.lits.size := by
  refine .inr fun j below => ?_
  have here := (h.openLevel propagated).levelAt_of_head_le (i := t.lits.size)
    (Nat.le_of_eq propagated)
  have there := t.levelAt_le j
  rw [here, level_openLevel, levelAt_openLevel below]
  omega

theorem advance (h : t.Coherent n) (waiting : t.head < t.lits.size) : t.advance.Coherent n :=
  { h with
    marks_le := fun m member => Nat.le_succ_of_le (h.marks_le m member)
    head_le := waiting }

theorem skipQueue (h : t.Coherent n) : t.skipQueue.Coherent n :=
  { h with
    marks_le := fun m member => Nat.le_trans (h.marks_le m member) h.head_le
    head_le := Nat.le_refl _ }

theorem addVar (h : t.Coherent n) : (t.addVar ⟨n⟩).Coherent (n + 1) := by
  have other {l : Lit} (member : l ∈ t.lits) : (⟨n⟩ : Var) ≠ l.var := by
    rintro e
    have := h.bounded l member
    rw [← e] at this
    exact Nat.lt_irrefl _ this
  refine { h with
    bounded := fun l member => Nat.lt_succ_of_lt (h.bounded l member)
    isTrue_iff := fun l => ?_
    level_eq := fun {i l} atI => ?_ }
  · change _ ↔ l ∈ t.lits
    rw [← h.isTrue_iff, isTrue_eq, isTrue_eq]
    simp only [Trail.value, Trail.addVar, DenseMap.get_insert]
    -- The new variable has no literal on the trail, and it had no value before.
    split
    next same =>
      have absent : t.value l.var = .undecided :=
        (h.undecided_iff _).mpr fun m member e => other member (same.trans e.symm)
      rw [show t.values.get l.var = .undecided from absent]
    next => rfl
  · have old := h.level_eq atI
    simp only [Trail.levelOf, Trail.addVar, DenseMap.get_insert] at old ⊢
    rw [if_neg (other (Array.mem_of_getElem? atI))]
    exact old

theorem forgetReason (h : t.Coherent n) (v : Var) (zero : t.level = 0) :
    (t.forgetReason v).Coherent n := by
  refine { h with level_eq := fun {i l} atI => ?_ }
  have old := h.level_eq atI
  -- The variable is put to level zero, where all of them are.
  have flat : t.levelAt i = 0 := Nat.le_zero.mp (zero ▸ t.levelAt_le i)
  change _ = t.levelAt i
  simp only [Trail.levelOf, Trail.forgetReason, DenseMap.get_insert] at old ⊢
  split
  · exact flat.symm
  · exact old

end Coherent

/-! ### Going back -/

theorem toList_marks_cancelTo (t : Trail) (k : Nat) :
    (t.cancelTo k).marks.toList = t.marks.toList.take k := by
  simp [cancelTo]

theorem getElem?_cancelTo {t : Trail} {k : Nat} (le : t.startAbove k ≤ t.lits.size) (i : Nat) :
    (t.cancelTo k).lits[i]? = if i < t.startAbove k then t.lits[i]? else none := by
  simp only [cancelTo, Array.getElem?_extract]
  grind

theorem mem_above_iff {t : Trail} {k i : Nat} {l : Lit} :
    (l, i) ∈ t.above k ↔ t.startAbove k ≤ i ∧ t.lits[i]? = some l := by
  simp only [above, List.mem_reverse, List.mk_mem_zipIdx_iff_le_and_getElem?_sub,
    List.getElem?_drop, Array.getElem?_toList]
  refine and_congr_right fun le => ?_
  rw [Nat.add_sub_cancel' le]

namespace Coherent

variable {n : Nat} {t : Trail}

theorem before_cancelTo (h : t.Coherent n) {k i : Nat} {l : Lit} :
    (t.cancelTo k).Before i l ↔ t.Before (min i (t.startAbove k)) l := by
  refine exists_congr fun j => ?_
  rw [getElem?_cancelTo (h.startAbove_le k)]
  split
  · rw [and_congr_left_iff]
    intro
    omega
  next past =>
    simp only [reduceCtorEq, and_false, false_iff, not_and]
    omega

theorem mem_cancelTo (h : t.Coherent n) {k : Nat} {l : Lit} :
    l ∈ (t.cancelTo k).lits ↔ t.Before (t.startAbove k) l := by
  rw [Array.mem_iff_getElem?]
  refine exists_congr fun j => ?_
  rw [getElem?_cancelTo (h.startAbove_le k)]
  split
  next before => exact ⟨fun e => ⟨before, e⟩, fun ⟨_, e⟩ => e⟩
  next past => exact ⟨nofun, fun ⟨before, _⟩ => absurd before past⟩

theorem size_cancelTo (h : t.Coherent n) (k : Nat) :
    (t.cancelTo k).lits.size = t.startAbove k := by
  have := h.startAbove_le k
  simp only [Trail.cancelTo, Array.size_extract]
  omega

theorem isTrue_cancelTo (h : t.Coherent n) {k : Nat} {l : Lit} :
    (t.cancelTo k).isTrue l = true ↔ t.Before (t.startAbove k) l := by
  rw [isTrue_eq, value_cancelTo]
  split
  -- A literal that is undone is not found again before the mark, since each variable is there once.
  next undone =>
    obtain ⟨⟨m, i⟩, member, same⟩ := List.mem_map.mp undone
    obtain ⟨le, e⟩ := mem_above_iff.mp member
    constructor
    · intro undecided
      cases positive : l.positive <;> simp [positive, Truth.ofBool] at undecided
    · rintro ⟨j, below, f⟩
      have := h.distinct e f same
      omega
  next kept =>
    rw [← isTrue_eq, h.isTrue_iff, Array.mem_iff_getElem?]
    constructor
    · rintro ⟨j, e⟩
      refine ⟨j, ?_, e⟩
      by_contra above
      exact kept (List.mem_map.mpr ⟨(l, j), mem_above_iff.mpr ⟨by omega, e⟩, rfl⟩)
    · rintro ⟨j, _, e⟩
      exact ⟨j, e⟩

theorem levelAt_cancelTo (h : t.Coherent n) {k i : Nat} (below : k < t.level)
    (before : i < t.startAbove k) : (t.cancelTo k).levelAt i = t.levelAt i := by
  have split : t.marks.toList.take k ++ t.marks.toList.drop k = t.marks.toList :=
    List.take_append_drop ..
  rw [levelAt, levelAt, toList_marks_cancelTo, ← split, List.countP_append, split]
  -- The marks from k on stand for levels above, and are behind the position.
  have late : (t.marks.toList.drop k).countP (· ≤ i) = 0 := by
    refine List.countP_eq_zero.mpr fun m member => ?_
    obtain ⟨j, bound, rfl⟩ := List.mem_iff_getElem.mp member
    have inside : k + j < t.marks.toList.length := by simp at bound ⊢; omega
    have start := startAbove_of_lt below
    have order : t.marks[k] ≤ t.marks.toList[k + j] := by
      by_cases zero : j = 0
      · subst zero
        exact Nat.le_of_eq (Array.getElem_toList _).symm
      · exact List.pairwise_iff_getElem.mp h.sorted k (k + j) (by omega) inside (by omega)
    simp only [List.getElem_drop, decide_eq_true_eq]
    omega
  omega

theorem agreesTo_cancelTo (h : t.Coherent n) {k i : Nat} (below : k < t.level)
    (before : i < t.startAbove k) : t.AgreesTo (t.cancelTo k) i where
  lits := fun j lt => by rw [getElem?_cancelTo (h.startAbove_le k), if_pos (by omega)]
  levels := fun j le => h.levelAt_cancelTo below (by omega)

/-- Going back to a level below the current one keeps the trail coherent. -/
theorem cancelTo (h : t.Coherent n) {k : Nat} (below : k < t.level) :
    (t.cancelTo k).Coherent n where
  bounded := fun l member => h.bounded l (h.mem_cancelTo.mp member).mem
  distinct := by
    intro i j l m atI atJ same
    rw [getElem?_cancelTo (h.startAbove_le k)] at atI atJ
    split at atI <;> split at atJ
    · exact h.distinct atI atJ same
    · cases atJ
    · cases atI
    · cases atI
  isTrue_iff := fun l => by rw [h.isTrue_cancelTo, h.mem_cancelTo]
  sorted := by
    rw [toList_marks_cancelTo]
    exact h.sorted.sublist (List.take_sublist ..)
  marks_le := by
    intro m member
    rw [← Array.mem_toList_iff, toList_marks_cancelTo, List.mem_take_iff_getElem] at member
    obtain ⟨i, bound, rfl⟩ := member
    change _ ≤ t.startAbove k
    rw [startAbove_of_lt below]
    exact List.pairwise_iff_getElem.mp h.sorted i k (by omega) (by simpa [level] using below)
      (by omega)
  head_le := Nat.le_of_eq (h.size_cancelTo k).symm
  level_eq := by
    intro i l atI
    rw [getElem?_cancelTo (h.startAbove_le k)] at atI
    split at atI
    next before =>
      rw [h.levelAt_cancelTo below before]
      exact h.level_eq atI
    next => cases atI

end Coherent

end Trail

end Cdcl
