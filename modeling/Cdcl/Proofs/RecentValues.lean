import Cdcl.Numeric.Mean
import Mathlib.Algebra.BigOperators.Group.List.Basic
import Mathlib.Data.List.DropRight
import Mathlib.Data.List.Rotate
import Mathlib.Tactic.Abel

/-!
# Recent values

A window holds the last values added since it was cleared. While it fills, the values stand in the order in
which they came; the place to write next comes back to the first one at the moment when the window is full,
and is that of the oldest value from then on.

## Main results

- `Recalls.add`: what one more value does to a window.
- `recent_of_steps`: after any values and clearings, a window holds the most recent values, and its sum is
  theirs as far as arithmetic is exact.
-/

namespace Cdcl

namespace Window

variable {α : Type}

/-- What may happen to a window. -/
inductive Step (α : Type) where
  | add (v : α)
  | clear
  deriving DecidableEq, Repr

/-- The values added since the last clearing, after one more step. -/
def Step.note (values : List α) : Step α → List α
  | add v => values ++ [v]
  | clear => []

/-- The values that these steps add, from the last clearing on. -/
def Step.added (steps : List (Step α)) : List α := steps.foldl note []

/-- One more value pushes the first of the last values out. -/
theorem rtake_append_singleton {c : Nat} {added : List α} (v : α) (full : c ≤ added.length) (room : 1 ≤ c) :
    (added ++ [v]).rtake c = (added.rtake c).tail ++ [v] := by
  obtain ⟨n, rfl⟩ : ∃ n, c = n + 1 := ⟨c - 1, by omega⟩
  rw [List.rtake_concat_succ]
  unfold List.rtake
  rw [List.tail_drop, show added.length - (n + 1) + 1 = added.length - n by omega]

theorem rtake_of_length_le {c : Nat} {added : List α} (few : added.length ≤ c) : added.rtake c = added := by
  rw [List.rtake, Nat.sub_eq_zero_of_le few, List.drop_zero]

/-! ### What is in the window -/

theorem toList_of_full {w : Window α} (full : w.isFull = true) (inside : w.next ≤ w.capacity) :
    w.toList = w.values.toList.rotate w.next := by
  have size : w.values.size = w.capacity := eq_of_beq full
  unfold toList
  rw [if_neg (by omega), List.rotate_eq_drop_append_take (by rw [Array.length_toList, size]; exact inside)]

/-- A full window gives the values from the place to write next on, and then those before it. -/
theorem toList_of_parts {w : Window α} (front back : List α) (full : w.values.size = w.capacity)
    (parts : w.values.toList = front ++ back) (next : w.next = front.length % w.capacity) :
    w.toList = back ++ front := by
  have length : front.length + back.length = w.capacity := by
    rw [← List.length_append, ← parts, Array.length_toList, full]
  unfold toList
  rw [if_neg (by omega), parts, next]
  by_cases wraps : back = []
  · -- The place to write next has come back to the first value.
    subst wraps
    rw [List.length_nil, Nat.add_zero] at length
    rw [length, Nat.mod_self, List.drop_zero, List.take_zero, List.append_nil, List.append_nil,
      List.nil_append]
  · have := List.length_pos_iff.mpr wraps
    rw [Nat.mod_eq_of_lt (by omega), List.drop_left, List.take_left]

/-- The window of capacity `c` holds the last of these values. -/
structure Recalls (w : Window α) (c : Nat) (added : List α) : Prop where
  capacity : w.capacity = c
  size : w.values.size = min added.length c
  toList : w.toList = added.rtake c
  /-- While the window fills, the next value goes to the end. -/
  filling : added.length < c → w.next = added.length
  inside : w.next < c

namespace Recalls

variable {w : Window α} {c : Nat} {added : List α}

/-- All values are there while the window fills. -/
theorem values_of_filling (h : w.Recalls c added) (fills : added.length < c) : w.values.toList = added := by
  have all := h.toList
  have size := h.size
  unfold Window.toList at all
  rwa [if_pos (by rw [size, h.capacity]; omega), rtake_of_length_le (by omega)] at all

theorem isFull_iff (h : w.Recalls c added) : w.isFull = true ↔ c ≤ added.length := by
  rw [isFull, beq_iff_eq, h.size, h.capacity]
  omega

/-- In a full window, the place of the oldest value parts the values: those before it came later than those
behind it. -/
theorem exists_oldest (h : w.Recalls c added) (full : c ≤ added.length) :
    ∃ later oldest earlier, w.values.toList = later ++ oldest :: earlier ∧ later.length = w.next ∧
      w.toList = oldest :: earlier ++ later := by
  have inside := h.inside
  have size := h.size
  have length : w.values.toList.length = c := by
    rw [Array.length_toList, size]
    omega
  have bound : w.next < w.values.toList.length := by omega
  have parts : w.values.toList =
      w.values.toList.take w.next ++ w.values.toList[w.next] :: w.values.toList.drop (w.next + 1) := by
    rw [← List.drop_eq_getElem_cons bound, List.take_append_drop]
  refine ⟨_, _, _, parts, List.length_take_of_le bound.le, ?_⟩
  rw [toList_of_full (h.isFull_iff.mpr full) (by rw [h.capacity]; omega),
    List.rotate_eq_drop_append_take bound.le, List.drop_eq_getElem_cons bound]

section Arithmetic

variable [OfNat α 0] [Add α] [Sub α] {v : α}

/-- The window fills by one value. -/
theorem add_of_filling (h : w.Recalls c added) (fills : added.length < c) :
    w.add v = { w with
      values := w.values.push v, next := (added.length + 1) % c, sum := w.sum + v } := by
  unfold Window.add
  rw [if_pos (by rw [h.size, h.capacity]; omega), h.filling fills, h.capacity]

/-- A full window gives up its oldest value. -/
theorem add_of_full (h : w.Recalls c added) {later earlier : List α} {oldest : α}
    (full : c ≤ added.length) (parts : w.values.toList = later ++ oldest :: earlier)
    (next : later.length = w.next) :
    (w.add v).values.toList = later ++ v :: earlier ∧ (w.add v).next = (w.next + 1) % c ∧
      (w.add v).capacity = w.capacity ∧ (w.add v).sum = w.sum - oldest + v := by
  have old : w.values.getD w.next 0 = oldest := by
    rw [Array.getD_eq_getD_getElem?, ← Array.getElem?_toList, parts, ← next, List.getElem?_append_right
      (Nat.le_refl _), Nat.sub_self]
    rfl
  unfold Window.add
  rw [if_neg (by rw [h.size, h.capacity]; omega), old, h.capacity]
  refine ⟨?_, rfl, h.capacity.symm ▸ rfl, rfl⟩
  rw [Array.toList_setIfInBounds, parts, ← next, List.set_append_right _ _ (Nat.le_refl _), Nat.sub_self]
  rfl

/-- While the window fills, one more value is recalled with all that there are. -/
theorem add_filling (h : w.Recalls c added) (fills : added.length < c) (v : α) :
    (w.add v).Recalls c (added ++ [v]) := by
  have room : 1 ≤ c := Nat.one_le_of_lt h.inside
  have length : (added ++ [v]).length = added.length + 1 := List.length_append
  have all : (w.values.push v).toList = added ++ [v] := by
    rw [Array.toList_push, h.values_of_filling fills]
  have size : (w.values.push v).size = added.length + 1 := by rw [← Array.length_toList, all, length]
  rw [h.add_of_filling fills]
  constructor
  case capacity => exact h.capacity
  case size => rw [size, length, Nat.min_eq_left fills]
  case toList =>
    rw [rtake_of_length_le (by rw [length]; exact fills)]
    by_cases room' : added.length + 1 < c
    · unfold Window.toList
      rw [if_pos (by rw [size, h.capacity]; exact room'), all]
    · -- This value fills the window, so that the place to write next is that of the first value.
      refine toList_of_parts (added ++ [v]) [] ?_ ?_ ?_
      · rw [size, h.capacity]
        omega
      · rw [all, List.append_nil]
      · rw [length, h.capacity]
  case filling =>
    intro fills'
    rw [length] at fills' ⊢
    exact Nat.mod_eq_of_lt fills'
  case inside => exact Nat.mod_lt _ room

/-- In a full window, one more value is recalled in place of the oldest one. -/
theorem add_full (h : w.Recalls c added) (full : c ≤ added.length) (v : α) :
    (w.add v).Recalls c (added ++ [v]) := by
  have room : 1 ≤ c := Nat.one_le_of_lt h.inside
  have length : (added ++ [v]).length = added.length + 1 := List.length_append
  obtain ⟨later, oldest, earlier, parts, next, old⟩ := h.exists_oldest full
  obtain ⟨values, next', capacity, -⟩ := h.add_of_full (v := v) full parts next
  have size : (w.add v).values.size = c := by
    rw [← h.capacity, ← eq_of_beq (h.isFull_iff.mpr full), ← Array.length_toList, values,
      ← Array.length_toList, parts]
    simp
  constructor
  case capacity => rw [capacity, h.capacity]
  case size => rw [size, length, Nat.min_eq_right (by omega)]
  case toList =>
    -- The ring now begins behind the value written, with those that are left of the earlier ones.
    rw [rtake_append_singleton v full room, ← h.toList, old]
    rw [toList_of_parts (later ++ [v]) earlier (by rw [size, capacity, h.capacity])
      (by rw [values, List.append_assoc, List.singleton_append])
      (by rw [next', List.length_append, next, capacity, h.capacity, List.length_singleton])]
    rw [List.cons_append, List.tail_cons, List.append_assoc]
  case filling => exact fun fills' => absurd fills' (by omega)
  case inside => rw [next']; exact Nat.mod_lt _ room

/-- One more value is recalled, at the cost of the oldest one if the window was full. -/
theorem add (h : w.Recalls c added) (v : α) : (w.add v).Recalls c (added ++ [v]) := by
  by_cases fills : added.length < c
  · exact h.add_filling fills v
  · exact h.add_full (Nat.le_of_not_lt fills) v

end Arithmetic

end Recalls

/-! ### Any steps -/

section Steps

variable [OfNat α 0] [Add α] [Sub α]

/-- Take a step. -/
def perform (w : Window α) : Step α → Window α
  | .add v => w.add v
  | .clear => w.clear

/-- A new window of this capacity, after some steps. -/
def afterSteps (c : Nat) (steps : List (Step α)) : Window α := steps.foldl perform (empty c)

theorem recalls_afterSteps {c : Nat} (room : 1 ≤ c) (steps : List (Step α)) :
    (afterSteps c steps).Recalls c (Step.added steps) := by
  have cleared {w : Window α} (capacity : w.capacity = c) : w.clear.Recalls c [] :=
    { capacity
      size := by simp [Window.clear]
      toList := by simp [Window.clear, Window.toList, List.rtake]
      filling := fun _ => rfl
      inside := room }
  unfold afterSteps Step.added
  -- From the end of the steps: only the last clearing counts, and what came after it.
  induction steps using List.reverseRecOn with
  | nil => exact cleared (w := empty c) rfl
  | append_singleton steps step ih =>
    rw [List.foldl_append, List.foldl_append]
    cases step with
    | add v => exact ih.add v
    | clear => exact cleared ih.capacity

end Steps

/-- In exact arithmetic, the sum of a window is that of the values in it. -/
theorem sum_afterSteps {G : Type} [AddCommGroup G] {c : Nat} (room : 1 ≤ c) (steps : List (Step G)) :
    (afterSteps c steps).sum = (afterSteps c steps).values.toList.sum := by
  induction steps using List.reverseRecOn with
  | nil => rfl
  | append_singleton steps step ih =>
    have recalls := recalls_afterSteps room steps
    unfold afterSteps at ih recalls ⊢
    rw [List.foldl_append]
    generalize steps.foldl perform (empty c) = w at ih recalls ⊢
    cases step with
    | clear => rfl
    | add v =>
      change (w.add v).sum = (w.add v).values.toList.sum
      by_cases fills : (Step.added steps).length < c
      · rw [recalls.add_of_filling fills, Array.toList_push, List.sum_append, ← ih, List.sum_singleton]
      · obtain ⟨later, oldest, earlier, parts, next, -⟩ := recalls.exists_oldest (by omega)
        obtain ⟨values, -, -, sum⟩ := recalls.add_of_full (v := v) (by omega) parts next
        rw [sum, values, ih, parts, List.sum_append, List.sum_append, List.sum_cons, List.sum_cons]
        abel

/-- After any values and clearings, a window of capacity `c` holds the last values added since it was
cleared, at most `c` of them, and knows how many they are. Once it is full, they stand in a ring that begins
at the place to write next, and one more value takes the place of the oldest one. In exact arithmetic the
sum of the window is that of its values. -/
theorem recent_of_steps {c : Nat} (room : 1 ≤ c) :
    (∀ {α : Type} [OfNat α 0] [Add α] [Sub α] (steps : List (Step α)),
      let w := afterSteps c steps
      let added := Step.added steps
      w.toList = added.rtake c ∧ w.size = min added.length c ∧
        (w.isFull = true ↔ c ≤ added.length) ∧
        (w.isFull = false → w.values.toList = added) ∧
        (w.isFull = true → w.values.toList.rotate w.next = added.rtake c ∧
          ∀ v, (w.add v).toList = w.toList.tail ++ [v])) ∧
      ∀ {G : Type} [AddCommGroup G] (steps : List (Step G)),
        (afterSteps c steps).sum = (afterSteps c steps).values.toList.sum := by
  refine ⟨fun steps => ?_, sum_afterSteps room⟩
  have recalls := recalls_afterSteps room steps
  refine ⟨recalls.toList, recalls.size, recalls.isFull_iff, fun fills => ?_, fun full => ⟨?_, fun v => ?_⟩⟩
  · refine recalls.values_of_filling (Nat.lt_of_not_le fun full => ?_)
    exact Bool.false_ne_true (fills.symm.trans (recalls.isFull_iff.mpr full))
  · rw [← recalls.toList]
    exact (toList_of_full full (Nat.le_of_lt (recalls.capacity.symm ▸ recalls.inside))).symm
  · rw [(recalls.add v).toList, rtake_append_singleton v (recalls.isFull_iff.mp full) room, recalls.toList]

/-- The fourth value pushes the first one out; a cleared window fills anew. -/
theorem recent_of_steps_cleared :
    (afterSteps 3 [.add 5, .clear, .add 3, .add 6, .add 9, .add (12 : Int)]).values = #[12, 6, 9] ∧
      (afterSteps 3 [.add 5, .clear, .add 3, .add 6, .add 9, .add (12 : Int)]).toList = [6, 9, 12] ∧
      (afterSteps 3 [.add 5, .clear, .add 3, .add 6, .add 9, .add (12 : Int)]).sum = 27 ∧
      ((afterSteps 3 [.add 5, .clear, .add 3, .add 6, .add 9, .add (12 : Int)]).add 0).toList = [9, 12, 0] := by
  obtain ⟨values, sum⟩ := recent_of_steps (c := 3) (by decide)
  obtain ⟨last, -, full, -, ring⟩ := values [.add 5, .clear, .add 3, .add 6, .add 9, .add (12 : Int)]
  refine ⟨rfl, last, sum _, ?_⟩
  rw [(ring (full.mpr (by decide))).2 0, last]
  rfl

end Window

end Cdcl
