import Cdcl.Arena.Header

/-!
# Fields of a word

Several numbers may share one word of 32 bits, each in a field of consecutive bits. Writing one leaves
those in other fields alone. The header of a clause is a word of five fields.

Main statements: `get_set`, `get_set_of_apart`, what is read from a field after a field was written;
`Header.ofWord_eq`, a header is read field by field.
-/

namespace Cdcl

/-- A field of a word: `width` bits from bit `low` on. -/
structure BitField where
  low : Nat
  width : Nat
  fits : low + width ≤ 32 := by decide

namespace BitField

variable {f g : BitField} {w : UInt32} {v i : Nat}

/-- The word with ones in the field, and zeros elsewhere. -/
def mask (f : BitField) : UInt32 := .ofNat ((1 <<< f.width - 1) <<< f.low)

/-- The number in the field. -/
def get (f : BitField) (w : UInt32) : Nat := (w &&& f.mask).toNat >>> f.low

/-- Overwrite the field with a number. -/
def set (f : BitField) (w : UInt32) (v : Nat) : UInt32 := w &&& ~~~f.mask ||| .ofNat (v <<< f.low)

/-- The fields have no bit in common. -/
def Apart (f g : BitField) : Prop := f.low + f.width ≤ g.low ∨ g.low + g.width ≤ f.low

instance (f g : BitField) : Decidable (f.Apart g) := inferInstanceAs (Decidable (_ ∨ _))

theorem testBit_ofNat (n i : Nat) : (UInt32.ofNat n).toNat.testBit i = (decide (i < 32) && n.testBit i) := by
  rw [UInt32.toNat_ofNat', Nat.testBit_mod_two_pow]

theorem testBit_not (w : UInt32) (i : Nat) :
    (~~~w).toNat.testBit i = (decide (i < 32) && !w.toNat.testBit i) := by
  have small : w.toNat < 2 ^ 32 := w.toNat_lt
  rw [UInt32.toNat_not, show UInt32.size - 1 - w.toNat = 2 ^ 32 - (w.toNat + 1) by unfold UInt32.size; omega,
    Nat.testBit_two_pow_sub_succ small]

theorem testBit_mask (f : BitField) (i : Nat) :
    f.mask.toNat.testBit i = decide (f.low ≤ i ∧ i < f.low + f.width) := by
  have fits := f.fits
  rw [mask, testBit_ofNat, Nat.testBit_shiftLeft, Nat.one_shiftLeft, Nat.testBit_two_pow_sub_one,
    Bool.eq_iff_iff]
  simp only [Bool.and_eq_true, decide_eq_true_eq]
  omega

theorem testBit_get (f : BitField) (w : UInt32) (i : Nat) :
    (f.get w).testBit i = (decide (i < f.width) && w.toNat.testBit (f.low + i)) := by
  rw [get, Nat.testBit_shiftRight, UInt32.toNat_and, Nat.testBit_and, testBit_mask, Bool.and_comm]
  congr 1
  rw [decide_eq_decide]
  omega

/-- A number that fits its field has no bits beyond it. -/
theorem testBit_eq_false (small : v < 1 <<< f.width) (above : f.width ≤ i) : v.testBit i = false := by
  rw [Nat.one_shiftLeft] at small
  exact Nat.testBit_lt_two_pow (Nat.lt_of_lt_of_le small (Nat.pow_le_pow_right (by decide) above))

theorem testBit_set (f : BitField) (w : UInt32) (small : v < 1 <<< f.width) (i : Nat) :
    (f.set w v).toNat.testBit i =
      if f.low ≤ i ∧ i < f.low + f.width then v.testBit (i - f.low) else w.toNat.testBit i := by
  have fits := f.fits
  have high : 32 ≤ i → w.toNat.testBit i = false := fun above =>
    Nat.testBit_lt_two_pow (Nat.lt_of_lt_of_le w.toNat_lt (Nat.pow_le_pow_right (by decide) above))
  have beyond : f.low + f.width ≤ i → v.testBit (i - f.low) = false := fun above =>
    testBit_eq_false small (by omega)
  rw [set, UInt32.toNat_or, UInt32.toNat_and, Nat.testBit_or, Nat.testBit_and, testBit_not, testBit_mask,
    testBit_ofNat, Nat.testBit_shiftLeft]
  split
  next inside => simp [inside, show i < 32 by omega]
  next outside =>
    rw [decide_eq_false outside, Bool.not_false, Bool.and_true]
    by_cases low : f.low ≤ i
    · rw [beyond (by omega), Bool.and_false, Bool.and_false, Bool.or_false]
      by_cases bound : i < 32
      · simp [bound]
      · simp [high (by omega)]
    · simp [low, show i < 32 by omega]

/-- The number in a field, by division. -/
theorem get_eq (f : BitField) (w : UInt32) : f.get w = w.toNat >>> f.low % 1 <<< f.width := by
  rw [Nat.one_shiftLeft]
  refine Nat.eq_of_testBit_eq fun i => ?_
  rw [testBit_get, Nat.testBit_mod_two_pow, Nat.testBit_shiftRight]

/-- A field reads what was written. -/
theorem get_set (f : BitField) (w : UInt32) (small : v < 1 <<< f.width) : f.get (f.set w v) = v := by
  refine Nat.eq_of_testBit_eq fun i => ?_
  rw [testBit_get, testBit_set f w small]
  by_cases inside : i < f.width
  · simp [inside]
  · simp [inside, testBit_eq_false small (Nat.le_of_not_lt inside)]

/-- Writing one field leaves another alone. -/
theorem get_set_of_apart (apart : f.Apart g) (w : UInt32) (small : v < 1 <<< f.width) :
    g.get (f.set w v) = g.get w := by
  refine Nat.eq_of_testBit_eq fun i => ?_
  rw [testBit_get, testBit_get, testBit_set f w small]
  by_cases inside : i < g.width
  · rw [if_neg]
    unfold Apart at apart
    omega
  · rw [decide_eq_false inside, Bool.false_and, Bool.false_and]

end BitField

namespace Header

/-! ### The fields of a header -/

def markField : BitField := { low := 30, width := 2 }

def learntField : BitField := { low := 29, width := 1 }

def frozenField : BitField := { low := 28, width := 1 }

def relocatedField : BitField := { low := 27, width := 1 }

def sizeField : BitField := { low := 0, width := 27 }

/-- A header is read field by field. -/
theorem ofWord_eq (w : UInt32) : ofWord w.toNat =
    { mark := markField.get w, learnt := learntField.get w == 1, frozen := frozenField.get w == 1,
      relocated := relocatedField.get w == 1, size := sizeField.get w } := by
  have mark : w.toNat >>> 30 = markField.get w := by
    have small := w.toNat_lt
    rw [BitField.get_eq]
    simp only [markField, Nat.shiftRight_eq_div_pow, Nat.reduceShiftLeft]
    omega
  unfold ofWord
  rw [mark]
  simp only [BitField.get_eq]
  rfl

variable {w : UInt32}

theorem ofWord_setMark {m : Nat} (fits : m < 4) :
    ofWord (markField.set w m).toNat = { ofWord w.toNat with mark := m } := by
  have small : m < 1 <<< markField.width := fits
  rw [ofWord_eq, ofWord_eq, BitField.get_set _ _ small]
  simp (disch := first | assumption | decide) only [BitField.get_set_of_apart]

theorem ofWord_setFrozen (b : Bool) :
    ofWord (frozenField.set w b.toNat).toNat = { ofWord w.toNat with frozen := b } := by
  have small : b.toNat < 1 <<< frozenField.width := Bool.toNat_lt b
  rw [ofWord_eq, ofWord_eq, BitField.get_set _ _ small]
  simp (disch := first | assumption | decide) only [BitField.get_set_of_apart]
  cases b <;> rfl

theorem ofWord_setSize {n : Nat} (fits : n ≤ maxSize) :
    ofWord (sizeField.set w n).toNat = { ofWord w.toNat with size := n } := by
  have small : n < 1 <<< sizeField.width := Nat.lt_succ_of_le fits
  rw [ofWord_eq, ofWord_eq, BitField.get_set _ _ small]
  simp (disch := first | assumption | decide) only [BitField.get_set_of_apart]

end Header

end Cdcl
