/-!
# Sorting

A merge sort whose recursion is on the data, so that sorting a given list is a plain computation.

Main statements: `perm_sortBy`, sorting rearranges the list, and `pairwise_sortBy`, the result is
in order.
-/

namespace Cdcl

variable {α : Type} (le : α → α → Bool)

/-- Merge `x :: xs` with a list, given how to merge `xs` with one. -/
def mergeCons (x : α) (xs : List α) (mergeRest : List α → List α) : List α → List α
  | [] => x :: xs
  | y :: ys => if le x y then x :: mergeRest (y :: ys) else y :: mergeCons x xs mergeRest ys

/-- Merge two lists in order. -/
def mergeLists : List α → List α → List α
  | [] => id
  | x :: xs => mergeCons le x xs (mergeLists xs)

/-- Sort a list, halving it at most `n` times. -/
def sortUpTo : Nat → List α → List α
  | 0, xs => xs
  | n + 1, xs =>
    if xs.length ≤ 1 then xs
    else
      let half := xs.length / 2
      mergeLists le (sortUpTo n (xs.take half)) (sortUpTo n (xs.drop half))

/-- Sort a list. -/
def sortBy (xs : List α) : List α := sortUpTo le xs.length xs

theorem perm_mergeLists (xs ys : List α) : (mergeLists le xs ys).Perm (xs ++ ys) := by
  induction xs generalizing ys with
  | nil => exact .refl _
  | cons x xs ih =>
    simp only [mergeLists]
    induction ys with
    | nil => simp [mergeCons]
    | cons y ys ihy =>
      simp only [mergeCons]
      split
      · exact (ih (y :: ys)).cons x
      · exact (ihy.cons y).trans List.perm_middle.symm

theorem perm_sortUpTo (n : Nat) (xs : List α) : (sortUpTo le n xs).Perm xs := by
  induction n generalizing xs with
  | zero => exact .refl _
  | succ n ih =>
    simp only [sortUpTo]
    split
    · exact .refl _
    · refine (perm_mergeLists le _ _).trans (((ih _).append (ih _)).trans ?_)
      rw [List.take_append_drop]

/-- Sorting rearranges the list. -/
theorem perm_sortBy (xs : List α) : (sortBy le xs).Perm xs := perm_sortUpTo le _ xs

variable {le}

theorem pairwise_mergeLists (trans : ∀ a b c, le a b → le b c → le a c)
    (total : ∀ a b, le a b || le b a) {xs ys : List α}
    (sorted_xs : xs.Pairwise (le · ·)) (sorted_ys : ys.Pairwise (le · ·)) :
    (mergeLists le xs ys).Pairwise (le · ·) := by
  induction xs generalizing ys with
  | nil => exact sorted_ys
  | cons x xs ih =>
    obtain ⟨first_x, rest_x⟩ := List.pairwise_cons.mp sorted_xs
    simp only [mergeLists]
    induction ys with
    | nil => simpa [mergeCons] using sorted_xs
    | cons y ys ihy =>
      obtain ⟨first_y, rest_y⟩ := List.pairwise_cons.mp sorted_ys
      simp only [mergeCons]
      split
      · rename_i x_le_y
        refine List.pairwise_cons.mpr ⟨fun z hz => ?_, ih rest_x sorted_ys⟩
        rcases List.mem_append.mp ((perm_mergeLists le _ _).mem_iff.mp hz) with hz | hz
        · exact first_x z hz
        · rcases List.mem_cons.mp hz with rfl | hz
          · exact x_le_y
          · exact trans _ _ _ x_le_y (first_y z hz)
      · rename_i not_le
        have y_le_x : le y x := by
          have := total x y
          simp_all
        refine List.pairwise_cons.mpr ⟨fun z hz => ?_, ihy rest_y⟩
        have := (perm_mergeLists le (x :: xs) ys).mem_iff.mp hz
        rcases List.mem_append.mp this with hz | hz
        · rcases List.mem_cons.mp hz with rfl | hz
          · exact y_le_x
          · exact trans _ _ _ y_le_x (first_x z hz)
        · exact first_y z hz

theorem pairwise_sortUpTo (trans : ∀ a b c, le a b → le b c → le a c)
    (total : ∀ a b, le a b || le b a) {n : Nat} {xs : List α} (enough : xs.length ≤ n) :
    (sortUpTo le n xs).Pairwise (le · ·) := by
  induction n generalizing xs with
  | zero =>
    cases xs
    · exact .nil
    · simp at enough
  | succ n ih =>
    simp only [sortUpTo]
    split
    · rename_i short
      match xs, short with
      | [], _ => exact .nil
      | [x], _ => simp
    · apply pairwise_mergeLists trans total <;> apply ih
      · simp; omega
      · simp; omega

/-- The sorted list is in order. -/
theorem pairwise_sortBy (trans : ∀ a b c, le a b → le b c → le a c)
    (total : ∀ a b, le a b || le b a) (xs : List α) :
    (sortBy le xs).Pairwise (le · ·) :=
  pairwise_sortUpTo trans total (Nat.le_refl _)

end Cdcl
