import Cdcl.Search.Engine
import Mathlib.Data.List.Nodup

/-!
# Stored clauses

What the invariants of the search say about a single clause of the arena: its literals, whether it
is removed, learnt or frozen. Activities, level counts and freeze counts play no part in them.
-/

namespace Cdcl

namespace Clause

/-- Three literals or more, of distinct variables below `n`, that were not moved elsewhere. -/
structure Proper (n : Nat) (c : Clause) : Prop where
  size : 3 ≤ c.lits.size
  distinct : (c.lits.toList.map Lit.var).Nodup
  bounded : ∀ l ∈ c.lits, l.var.index < n
  inPlace : c.relocated = false

/-- Does the clause take part in propagation? -/
def isAttached (c : Clause) : Bool := !c.isRemoved && !c.isFrozen

/-- Equal but for the order of literals. -/
structure Reordered (c d : Clause) : Prop where
  lits : d.lits.toList.Perm c.lits.toList
  removed : d.isRemoved = c.isRemoved
  learnt : d.isLearnt = c.isLearnt
  frozen : d.isFrozen = c.isFrozen
  relocated : d.relocated = c.relocated

/-- Equal but for activity, level count and freeze count. -/
structure Alike (c d : Clause) : Prop where
  lits : d.lits = c.lits
  removed : d.isRemoved = c.isRemoved
  learnt : d.isLearnt = c.isLearnt
  frozen : d.isFrozen = c.isFrozen
  relocated : d.relocated = c.relocated

theorem Alike.refl (c : Clause) : c.Alike c := ⟨rfl, rfl, rfl, rfl, rfl⟩

theorem Alike.trans {a b c : Clause} (h : a.Alike b) (g : b.Alike c) : a.Alike c :=
  ⟨g.lits.trans h.lits, g.removed.trans h.removed, g.learnt.trans h.learnt,
    g.frozen.trans h.frozen, g.relocated.trans h.relocated⟩

theorem Alike.lit {c d : Clause} (h : c.Alike d) (i : Nat) : d.lit i = c.lit i := by
  rw [Clause.lit, Clause.lit, h.lits]

theorem Alike.tail {c d : Clause} (h : c.Alike d) : d.tail = c.tail := by
  rw [Clause.tail, Clause.tail, h.lits]

theorem Alike.reordered {c d : Clause} (h : c.Alike d) : c.Reordered d :=
  ⟨by rw [h.lits], h.removed, h.learnt, h.frozen, h.relocated⟩

theorem Reordered.refl (c : Clause) : c.Reordered c := (Alike.refl c).reordered

theorem Reordered.trans {a b c : Clause} (h : a.Reordered b) (g : b.Reordered c) :
    a.Reordered c :=
  ⟨g.lits.trans h.lits, g.removed.trans h.removed, g.learnt.trans h.learnt,
    g.frozen.trans h.frozen, g.relocated.trans h.relocated⟩

theorem Reordered.attached {c d : Clause} (h : c.Reordered d) : d.isAttached = c.isAttached := by
  rw [isAttached, isAttached, h.removed, h.frozen]

theorem Reordered.mem {c d : Clause} (h : c.Reordered d) (l : Lit) : l ∈ d.lits ↔ l ∈ c.lits := by
  rw [← Array.mem_toList_iff, ← Array.mem_toList_iff]
  exact h.lits.mem_iff

/-- Literals may change places in a proper clause. -/
theorem Proper.of_perm {n : Nat} {c d : Clause} (proper : c.Proper n)
    (perm : d.lits.toList.Perm c.lits.toList) (same : d.relocated = c.relocated) : d.Proper n where
  size := by
    have := perm.length_eq
    have := proper.size
    simp only [Array.length_toList] at *
    omega
  distinct := (perm.map Lit.var).nodup_iff.mpr proper.distinct
  bounded := fun l member => by
    rw [← Array.mem_toList_iff, perm.mem_iff, Array.mem_toList_iff] at member
    exact proper.bounded l member
  inPlace := same.trans proper.inPlace

theorem Reordered.proper {n : Nat} {c d : Clause} (h : c.Reordered d) (proper : c.Proper n) :
    d.Proper n :=
  proper.of_perm h.lits h.relocated

/-- An update of what is known about a learnt clause that leaves the frozen flag alone. -/
theorem alike_modifyLearnt (c : Clause) {f : LearntInfo → LearntInfo}
    (same : ∀ i, (f i).frozen = i.frozen) : c.Alike (c.modifyLearnt f) := by
  refine ⟨rfl, rfl, ?_, ?_, rfl⟩
  · simp [modifyLearnt, isLearnt]
  · cases h : c.learnt? <;> simp [modifyLearnt, isFrozen, h, same]

theorem alike_setLbd (c : Clause) (n : Nat) : c.Alike (c.setLbd n) :=
  c.alike_modifyLearnt fun _ => rfl

theorem alike_setFreezeCount (c : Clause) (n : Nat) : c.Alike (c.setFreezeCount n) :=
  c.alike_modifyLearnt fun _ => rfl

theorem alike_setActivity (c : Clause) (a : Float32) : c.Alike (c.setActivity a) :=
  c.alike_modifyLearnt fun _ => rfl

theorem isLearnt_of_isFrozen {c : Clause} (frozen : c.isFrozen = true) : c.isLearnt = true := by
  unfold isFrozen at frozen
  unfold isLearnt
  cases h : c.learnt? with
  | none => simp [h] at frozen
  | some info => rfl

theorem isFrozen_setFrozen (c : Clause) (b : Bool) :
    (c.setFrozen b).isFrozen = (c.isLearnt && b) := by
  cases h : c.learnt? <;> simp [setFrozen, modifyLearnt, isFrozen, isLearnt, h]

theorem isLearnt_setFrozen (c : Clause) (b : Bool) : (c.setFrozen b).isLearnt = c.isLearnt := by
  simp [setFrozen, modifyLearnt, isLearnt]

/-! ### Literals by position -/

theorem swapIfInBounds_perm {α : Type} (xs : Array α) (i j : Nat) :
    (xs.swapIfInBounds i j).toList.Perm xs.toList := by
  rw [Array.swapIfInBounds_def]
  split
  · split
    · exact (Array.swap_perm _ _).toList
    · exact .refl _
  · exact .refl _

theorem reordered_swap (c : Clause) (i j : Nat) : c.Reordered (c.swap i j) :=
  ⟨swapIfInBounds_perm .., rfl, rfl, rfl, rfl⟩

theorem lit_swap {c : Clause} {i j : Nat} (iBound : i < c.lits.size) (jBound : j < c.lits.size)
    (k : Nat) : (c.swap i j).lit k =
      if k = i then c.lit j else if k = j then c.lit i else c.lit k := by
  simp only [lit, swap, Array.getD_eq_getD_getElem?, Array.swapIfInBounds_def, iBound, jBound]
  simp only [dite_true, Array.getElem?_swap]
  grind

theorem lit_eq_getElem {c : Clause} {i : Nat} (inside : i < c.lits.size) : c.lit i = c.lits[i] := by
  rw [lit, Array.getD_eq_getD_getElem?, Array.getElem?_eq_getElem inside, Option.getD_some]

theorem lit_mem {c : Clause} {i : Nat} (inside : i < c.lits.size) : c.lit i ∈ c.lits := by
  rw [lit_eq_getElem inside]
  exact Array.getElem_mem inside

theorem lit_zero_swap_one {c : Clause} {k : Nat} (low : 2 ≤ k) (high : k < c.lits.size) :
    (c.swap 1 k).lit 0 = c.lit 0 := by
  rw [lit_swap (by omega) high, if_neg (by omega), if_neg (by omega)]

theorem lit_one_swap_one {c : Clause} {k : Nat} (low : 2 ≤ k) (high : k < c.lits.size) :
    (c.swap 1 k).lit 1 = c.lit k := by
  rw [lit_swap (by omega) high, if_pos rfl]

theorem lits_eq_cons_tail {c : Clause} (nonempty : 0 < c.lits.size) :
    c.lits.toList = c.lit 0 :: c.tail := by
  rw [lit_eq_getElem nonempty, tail]
  cases h : c.lits.toList with
  | nil => simp [← Array.length_toList, h] at nonempty
  | cons l ls => simp [← Array.getElem_toList, h]

theorem mem_tail_iff {c : Clause} {l : Lit} :
    l ∈ c.tail ↔ ∃ i, 0 < i ∧ i < c.lits.size ∧ c.lit i = l := by
  simp only [tail, List.mem_drop_iff_getElem, Array.length_toList, Array.getElem_toList]
  constructor
  · rintro ⟨i, bound, rfl⟩
    exact ⟨1 + i, by omega, by omega, lit_eq_getElem (by omega)⟩
  · rintro ⟨i, positive, inside, rfl⟩
    refine ⟨i - 1, by omega, ?_⟩
    rw [lit_eq_getElem inside]
    congr 1
    omega

theorem Proper.lit_inj {n : Nat} {c : Clause} (h : c.Proper n) {i j : Nat}
    (iBound : i < c.lits.size) (jBound : j < c.lits.size)
    (same : (c.lit i).var = (c.lit j).var) : i = j := by
  rw [lit_eq_getElem iBound, lit_eq_getElem jBound] at same
  have iInside : i < (c.lits.toList.map Lit.var).length := by simpa using iBound
  have jInside : j < (c.lits.toList.map Lit.var).length := by simpa using jBound
  have equal : (c.lits.toList.map Lit.var)[i] = (c.lits.toList.map Lit.var)[j] := by simpa using same
  exact h.distinct.getElem_inj_iff.mp equal

/-- The literals after the first, if that stays in place. -/
theorem tail_perm {c d : Clause} (perm : d.lits.toList.Perm c.lits.toList)
    (nonempty : 0 < c.lits.size) (first : d.lit 0 = c.lit 0) : d.tail.Perm c.tail := by
  have sizes := perm.length_eq
  simp only [Array.length_toList] at sizes
  rw [lits_eq_cons_tail (c := c) nonempty, lits_eq_cons_tail (c := d) (by omega), first] at perm
  exact perm.cons_inv

end Clause

end Cdcl
