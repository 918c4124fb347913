import Cdcl.Search.Branching
import Mathlib.Data.List.Nodup

/-!
# Contents of the indexed heap

Which keys a heap holds, whatever the comparison answers. The array and the table of positions
agree after every operation, and no key is lost or duplicated by sifting.

## Main results

`Linked.pop`: taking the top out removes that key and no other.
`Linked.build`: a rebuilt heap holds the given keys.
-/

namespace Cdcl

namespace IndexedHeap

variable {κ : Type} [DenseKey κ] [DecidableEq κ]

/-- The table gives the position of every key of the array, and of no other. -/
def Linked (h : IndexedHeap κ) : Prop :=
  ∀ k i, h.positions.get k = some i ↔ h.items[i]? = some k

omit [DecidableEq κ] in
theorem Linked.contains_iff {h : IndexedHeap κ} (linked : h.Linked) (k : κ) :
    h.contains k = true ↔ k ∈ h.items := by
  simp only [contains, Option.isSome_iff_exists, Array.mem_iff_getElem?]
  exact exists_congr fun i => linked k i

omit [DecidableEq κ] in
theorem linked_empty : (empty : IndexedHeap κ).Linked := by
  intro k i
  simp [empty, DenseMap.get]

omit [DecidableEq κ] in
theorem items_place (h : IndexedHeap κ) (i : Nat) (k : κ) :
    (h.place i k).items = h.items.setIfInBounds i k := rfl

theorem positions_place (h : IndexedHeap κ) (i : Nat) (k j : κ) :
    (h.place i k).positions.get j = if k = j then some i else h.positions.get j := by
  simp only [place, DenseMap.get_insert]

/-- Placing a key where it already is changes nothing that can be read. -/
theorem Linked.place_self {h : IndexedHeap κ} (linked : h.Linked) {i : Nat} {k : κ}
    (here : h.items[i]? = some k) : (h.place i k).Linked ∧ (h.place i k).items = h.items := by
  have same : (h.place i k).items = h.items := by
    rw [items_place]
    apply Array.ext_getElem?
    intro j
    rw [Array.getElem?_setIfInBounds]
    split
    next e =>
      subst e
      obtain ⟨bound, _⟩ := Array.getElem?_eq_some_iff.mp here
      rw [if_pos bound, here]
    next => rfl
  refine ⟨fun j m => ?_, same⟩
  rw [same, positions_place]
  split
  next e =>
    subst e
    rw [← linked, (linked k i).mpr here]
  next => exact linked j m

/-- The hole at `i` moves to `j`: the key at `j` goes to `i`, and the one in hand to `j`. -/
theorem linked_move {h : IndexedHeap κ} {i j : Nat} {x y : κ} (linked : (h.place i x).Linked)
    (inside : i < h.items.size) (there : h.items[j]? = some y) (apart : j ≠ i) :
    ((h.place i y).place j x).Linked ∧
      ∀ k, k ∈ ((h.place i y).place j x).items ↔ k ∈ (h.place i x).items := by
  obtain ⟨jInside, _⟩ := Array.getElem?_eq_some_iff.mp there
  have at_place (m : Nat) : (h.place i x).items[m]? = if i = m then some x else h.items[m]? := by
    rw [items_place, Array.getElem?_setIfInBounds]
    split <;> simp_all
  have at_moved (m : Nat) : ((h.place i y).place j x).items[m]? =
      if j = m then some x else if i = m then some y else h.items[m]? := by
    simp only [items_place, Array.getElem?_setIfInBounds, Array.size_setIfInBounds]
    split
    · simp_all
    · split <;> simp_all
  -- The two keys differ, since each has one place.
  have distinct : x ≠ y := by
    rintro rfl
    have first := (linked x i).mpr (by rw [at_place, if_pos rfl])
    have second := (linked x j).mpr (by rw [at_place, if_neg (Ne.symm apart), there])
    rw [first] at second
    exact apart (Option.some.inj second).symm
  constructor
  · intro k m
    have old := linked k m
    rw [at_place, positions_place] at old
    rw [at_moved, positions_place, positions_place]
    have oldY := linked y m
    rw [at_place, positions_place, if_neg distinct] at oldY
    -- The hole was filled with the one key, the place it came from gets the other.
    have thereY := (linked y j).mpr (by rw [at_place, if_neg (Ne.symm apart), there])
    rw [positions_place, if_neg distinct] at thereY
    grind
  · intro k
    simp only [Array.mem_iff_getElem?, at_place, at_moved]
    constructor
    · rintro ⟨m, hm⟩
      by_cases hj : j = m
      · rw [if_pos hj] at hm
        exact ⟨i, by rw [if_pos rfl, hm]⟩
      · rw [if_neg hj] at hm
        by_cases hi : i = m
        · rw [if_pos hi] at hm
          exact ⟨j, by rw [if_neg (Ne.symm apart), there, hm]⟩
        · rw [if_neg hi] at hm
          exact ⟨m, by rw [if_neg hi, hm]⟩
    · rintro ⟨m, hm⟩
      by_cases hi : i = m
      · rw [if_pos hi] at hm
        exact ⟨j, by rw [if_pos rfl, hm]⟩
      · rw [if_neg hi] at hm
        by_cases hj : j = m
        · subst hj
          rw [there] at hm
          exact ⟨i, by rw [if_neg apart, if_pos rfl, hm]⟩
        · exact ⟨m, by rw [if_neg hj, if_neg hi, hm]⟩

/-- Sifting up from a hole holds what placing the key in the hole would. -/
theorem linked_siftUp (before : κ → κ → Bool) {h : IndexedHeap κ} {i : Nat} {x : κ}
    (linked : (h.place i x).Linked) (inside : i < h.items.size) :
    (siftUp before h i x).Linked ∧
      ∀ k, k ∈ (siftUp before h i x).items ↔ k ∈ (h.place i x).items := by
  induction i using Nat.strongRecOn generalizing h with
  | ind i ih =>
    unfold siftUp
    split
    next => exact ⟨linked, fun _ => Iff.rfl⟩
    next nonzero =>
      split
      next => exact ⟨linked, fun _ => Iff.rfl⟩
      next parent found =>
        split
        next =>
          have moved := linked_move linked inside found (by omega)
          have rest := ih ((i - 1) / 2) (by omega) moved.1 (by rw [size_place]; omega)
          exact ⟨rest.1, fun k => (rest.2 k).trans (moved.2 k)⟩
        next => exact ⟨linked, fun _ => Iff.rfl⟩

/-- Sifting down from a hole holds what placing the key in the hole would. -/
theorem linked_siftDown (before : κ → κ → Bool) {h : IndexedHeap κ} {i : Nat} {x : κ}
    (linked : (h.place i x).Linked) (inside : i < h.items.size) :
    (siftDown before h i x).Linked ∧
      ∀ k, k ∈ (siftDown before h i x).items ↔ k ∈ (h.place i x).items := by
  induction measure : h.items.size - i using Nat.strongRecOn generalizing h i with
  | ind n ih =>
    unfold siftDown
    split
    next => exact ⟨linked, fun _ => Iff.rfl⟩
    next c child found =>
      have bounds := upperChild_bounds found
      split
      next =>
        have there : h.items[c]? = some child := by
          unfold upperChild at found
          grind
        have moved := linked_move linked inside there (by omega)
        have rest := ih (h.items.size - c) (by omega) moved.1 (by rw [size_place]; exact bounds.2)
          (by rw [size_place])
        exact ⟨rest.1, fun k => (rest.2 k).trans (moved.2 k)⟩
      next => exact ⟨linked, fun _ => Iff.rfl⟩

omit [DecidableEq κ] in
theorem size_siftDown (before : κ → κ → Bool) (h : IndexedHeap κ) (i : Nat) (x : κ) :
    (siftDown before h i x).items.size = h.items.size := by
  fun_induction siftDown before h i x with
  | case1 => exact size_place ..
  | case2 h i c child found above ih => rw [ih, size_place]
  | case3 => exact size_place ..

/-! ### Operations -/

/-- Inserting adds the key and keeps the others. -/
theorem Linked.insert {h : IndexedHeap κ} (linked : h.Linked) (before : κ → κ → Bool) {x : κ}
    (absent : x ∉ h.items) :
    (h.insert before x).Linked ∧ ∀ k, k ∈ (h.insert before x).items ↔ k ∈ h.items ∨ k = x := by
  let pushed : IndexedHeap κ := { h with items := h.items.push x }
  have items : (pushed.place h.items.size x).items = h.items.push x := by
    rw [items_place]
    apply Array.ext_getElem?
    intro j
    simp only [pushed, Array.getElem?_setIfInBounds, Array.size_push, Array.getElem?_push]
    split <;> simp_all
  have start : (pushed.place h.items.size x).Linked := by
    intro k i
    have old := linked k i
    have none_at_x (j : Nat) : h.items[j]? ≠ some x := fun e => absent (Array.mem_of_getElem? e)
    rw [items, positions_place, Array.getElem?_push]
    change (if x = k then some h.items.size else h.positions.get k) = some i ↔ _
    grind
  have sifted := linked_siftUp before start (by simp [pushed])
  refine ⟨sifted.1, fun k => (sifted.2 k).trans ?_⟩
  rw [items, Array.mem_push]

/-- Restoring the order around a key keeps the keys. -/
theorem Linked.raise {h : IndexedHeap κ} (linked : h.Linked) (before : κ → κ → Bool) (x : κ) :
    (h.raise before x).Linked ∧ ∀ k, k ∈ (h.raise before x).items ↔ k ∈ h.items := by
  unfold IndexedHeap.raise
  split
  next i found =>
    have here := (linked x i).mp found
    obtain ⟨inside, _⟩ := Array.getElem?_eq_some_iff.mp here
    have start := linked.place_self here
    have sifted := linked_siftUp before start.1 inside
    exact ⟨sifted.1, fun k => by rw [sifted.2, start.2]⟩
  next => exact ⟨linked, fun _ => Iff.rfl⟩

omit [DecidableEq κ] in
theorem pop?_eq_none_iff (before : κ → κ → Bool) (h : IndexedHeap κ) :
    h.pop? before = none ↔ h.items = #[] := by
  unfold pop?
  cases size : h.items.size with
  | zero => simp [Array.eq_empty_of_size_eq_zero size]
  | succ n =>
    have nonempty : h.items ≠ #[] := fun e => by simp [e] at size
    have first : h.items[0]? = some h.items[0] := Array.getElem?_eq_getElem (by omega)
    obtain ⟨last, final⟩ : ∃ last, h.items.back? = some last :=
      ⟨_, Array.back?_eq_getElem?.trans (Array.getElem?_eq_getElem (by omega))⟩
    simp only [first, final, nonempty, iff_false]
    split <;> simp

/-- Without its only key a heap is empty. -/
private theorem Linked.withoutOnly {h : IndexedHeap κ} {top : κ} (linked : h.Linked)
    (first : h.items[0]? = some top) (single : h.items.pop = #[]) :
    ({ items := h.items.pop, positions := h.positions.insert top none } : IndexedHeap κ).Linked ∧
      h.items.size = 1 ∧ ∀ k ∈ h.items, k = top := by
  have nonempty : 0 < h.items.size := (Array.getElem?_eq_some_iff.mp first).1
  have size : h.items.size = 1 := by
    have := congrArg Array.size single
    simp at this
    omega
  have only {k : κ} {i : Nat} (at_i : h.items[i]? = some k) : k = top := by
    obtain ⟨bound, -⟩ := Array.getElem?_eq_some_iff.mp at_i
    obtain rfl : i = 0 := by omega
    exact Option.some.inj (at_i.symm.trans first)
  refine ⟨fun k i => ?_, size, fun k member => ?_⟩
  · rw [single, DenseMap.get_insert]
    have old := linked k i
    by_cases same : top = k
    · simp [same]
    · have gone : h.positions.get k ≠ some i := fun at_i => same (only (old.mp at_i)).symm
      simp [same, gone]
  · obtain ⟨i, at_i⟩ := Array.mem_iff_getElem?.mp member
    exact only at_i

/-- The last key takes the place of the top one. -/
private theorem Linked.replaceTop {h shorter : IndexedHeap κ} {top last : κ} (linked : h.Linked)
    (first : h.items[0]? = some top) (final : h.items[h.items.size - 1]? = some last)
    (several : 2 ≤ h.items.size)
    (removed : shorter = { items := h.items.pop, positions := h.positions.insert top none }) :
    (shorter.place 0 last).Linked ∧
      ∀ k, k ∈ (shorter.place 0 last).items ↔ k ∈ h.items ∧ k ≠ top := by
  have pos_top := (linked top 0).mpr first
  have pos_last := (linked last (h.items.size - 1)).mpr final
  -- There are several keys, so that the last one is not at the top.
  have distinct : top ≠ last := by
    rintro rfl
    have := Option.some.inj (pos_top.symm.trans pos_last)
    omega
  have items (j : Nat) : (shorter.place 0 last).items[j]? =
      if j = 0 then some last else if j < h.items.size - 1 then h.items[j]? else none := by
    simp only [removed, items_place, Array.getElem?_setIfInBounds, Array.size_pop, Array.getElem?_pop]
    grind
  constructor
  · intro k i
    have old := linked k i
    have oldLast := linked last i
    rw [items, positions_place]
    simp only [removed, DenseMap.get_insert]
    have bound : h.items[i]? = some k → i < h.items.size :=
      fun e => (Array.getElem?_eq_some_iff.mp e).1
    grind
  · intro k
    simp only [Array.mem_iff_getElem?, items]
    constructor
    · rintro ⟨j, at_j⟩
      split at at_j
      · cases at_j
        exact ⟨⟨_, final⟩, distinct.symm⟩
      next nonzero =>
        split at at_j
        · refine ⟨⟨j, at_j⟩, ?_⟩
          rintro rfl
          exact nonzero (Option.some.inj (((linked k j).mpr at_j).symm.trans pos_top))
        · cases at_j
    · rintro ⟨⟨j, at_j⟩, other⟩
      have bound := (Array.getElem?_eq_some_iff.mp at_j).1
      have nonzero : j ≠ 0 := by
        rintro rfl
        exact other (Option.some.inj (at_j.symm.trans first))
      by_cases atEnd : j = h.items.size - 1
      · refine ⟨0, ?_⟩
        rw [if_pos rfl, ← at_j, atEnd, final]
      · exact ⟨j, by rw [if_neg nonzero, if_pos (by omega), at_j]⟩

/-- Taking the top out removes that key and no other. -/
theorem Linked.pop {before : κ → κ → Bool} {h rest : IndexedHeap κ} {top : κ}
    (linked : h.Linked) (popped : h.pop? before = some (top, rest)) :
    rest.Linked ∧ (∀ k, k ∈ rest.items ↔ k ∈ h.items ∧ k ≠ top) ∧ top ∈ h.items ∧
      rest.items.size + 1 = h.items.size := by
  unfold pop? at popped
  split at popped
  next t last first final =>
    have inside : t ∈ h.items := Array.mem_of_getElem? first
    rw [Array.back?_eq_getElem?] at final
    simp only [Array.isEmpty_iff] at popped
    split at popped
    next single =>
      cases popped
      obtain ⟨empty, size, only⟩ := linked.withoutOnly first single
      refine ⟨empty, fun k => ?_, inside, by simp [size]⟩
      rw [single]
      simp only [Array.not_mem_empty, false_iff, not_and, not_not]
      exact only k
    -- The last key takes the place of the top one and sifts down.
    next several =>
      simp only [Option.some.injEq, Prod.mk.injEq] at popped
      obtain ⟨rfl, rfl⟩ := popped
      have size : 2 ≤ h.items.size := by
        have : h.items.pop.size ≠ 0 := fun e => several (Array.eq_empty_of_size_eq_zero e)
        simp at this
        omega
      generalize removed : ({ items := h.items.pop, positions := h.positions.insert t none } :
        IndexedHeap κ) = shorter
      have fewer : shorter.items.size = h.items.size - 1 := by simp [← removed]
      obtain ⟨start, others⟩ := linked.replaceTop first final size removed.symm
      obtain ⟨sifted, same⟩ := linked_siftDown before start (by omega)
      refine ⟨sifted, fun k => (same k).trans (others k), inside, ?_⟩
      rw [size_siftDown]
      omega
  next => cases popped

/-! ### Rebuilding -/

private theorem linked_settle (before : κ → κ → Bool) (n : Nat) {h : IndexedHeap κ}
    (linked : h.Linked) :
    (settle before n h).Linked ∧ ∀ k, k ∈ (settle before n h).items ↔ k ∈ h.items := by
  induction n generalizing h with
  | zero => exact ⟨linked, fun _ => Iff.rfl⟩
  | succ n ih =>
    unfold settle
    split
    next x here =>
      obtain ⟨inside, _⟩ := Array.getElem?_eq_some_iff.mp here
      have start := linked.place_self here
      have sifted := linked_siftDown before start.1 inside
      have rest := ih sifted.1
      exact ⟨rest.1, fun k => by rw [rest.2, sifted.2, start.2]⟩
    next => exact ih linked

private theorem get_foldl_insert_none (ks : List κ) (table : DenseMap κ (Option Nat)) (k : κ) :
    (ks.foldl (fun table k => table.insert k none) table).get k =
      if k ∈ ks then none else table.get k := by
  induction ks generalizing table with
  | nil => simp
  | cons j ks ih =>
    rw [List.foldl_cons, ih, DenseMap.get_insert]
    grind

private theorem get_foldl_insert_zipIdx (ks : List κ) (distinct : ks.Nodup) (n : Nat)
    (table : DenseMap κ (Option Nat)) (clear : ∀ k, table.get k = none ∨ k ∉ ks) (k : κ) (i : Nat) :
    ((ks.zipIdx n).foldl (fun table (k, i) => table.insert k (some i)) table).get k = some i ↔
      (n ≤ i ∧ ks[i - n]? = some k) ∨ (k ∉ ks ∧ table.get k = some i) := by
  induction ks generalizing n table with
  | nil => simp
  | cons j ks ih =>
    obtain ⟨fresh, distinct⟩ := List.nodup_cons.mp distinct
    have clear' (k : κ) : (table.insert j (some n)).get k = none ∨ k ∉ ks := by
      rw [DenseMap.get_insert]
      grind
    rw [List.zipIdx_cons, List.foldl_cons, ih distinct (n + 1) _ clear', DenseMap.get_insert]
    by_cases same : j = k
    · subst same
      have absent (m : Nat) : ks[m]? ≠ some j := fun e => fresh (List.mem_of_getElem? e)
      simp only [absent, and_false, fresh, not_false_eq_true, if_true, Option.some.injEq, true_and,
        false_or, List.mem_cons, not_true_eq_false, false_and, or_false]
      constructor
      · rintro rfl
        simp
      · rintro ⟨le, e⟩
        by_cases zero : i - n = 0
        · omega
        · rw [List.getElem?_cons, if_neg zero] at e
          exact absurd e (absent _)
    · simp only [same, if_false, List.mem_cons, Ne.symm same, false_or]
      refine or_congr_left ⟨fun ⟨le, e⟩ => ⟨by omega, ?_⟩, fun ⟨le, e⟩ => ?_⟩
      · rw [List.getElem?_cons, if_neg (by omega), ← e]
        congr 1
      · by_cases zero : i - n = 0
        · rw [zero] at e
          exact absurd (Option.some.inj e) same
        · rw [List.getElem?_cons, if_neg zero] at e
          exact ⟨by omega, by rw [← e]; congr 1⟩

/-- A rebuilt heap holds the given keys. -/
theorem Linked.build {h : IndexedHeap κ} (linked : h.Linked) (before : κ → κ → Bool)
    {ks : List κ} (distinct : ks.Nodup) :
    (h.build before ks).Linked ∧ ∀ k, k ∈ (h.build before ks).items ↔ k ∈ ks := by
  have cleared (k : κ) :
      (h.items.foldl (fun table k => table.insert k none) h.positions).get k = none := by
    rw [← Array.foldl_toList, get_foldl_insert_none]
    split
    next => rfl
    next absent =>
      cases e : h.positions.get k with
      | none => rfl
      | some i =>
        have member := Array.mem_of_getElem? ((linked k i).mp e)
        exact absurd (Array.mem_toList_iff.mpr member) absent
  let table := h.items.foldl (fun table k => table.insert k none) h.positions
  let filled : IndexedHeap κ :=
    ⟨ks.toArray, ks.zipIdx.foldl (fun table (k, i) => table.insert k (some i)) table⟩
  have start : filled.Linked := by
    intro k i
    simp only [filled, table]
    rw [get_foldl_insert_zipIdx ks distinct 0 _ (fun k => .inl (cleared k)), cleared]
    simp
  have settled := linked_settle before (ks.length / 2) start
  exact ⟨settled.1, fun k => (settled.2 k).trans (by simp [filled])⟩

end IndexedHeap

end Cdcl
