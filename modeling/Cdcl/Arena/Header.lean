/-!
# Clause headers

The flags and the length of a stored clause. In an arena they share one word: two bits of mark,
one each for learnt, frozen and relocated, and 27 bits of length.

Main statement: `ofWord_toWord`, the word determines the header.
-/

namespace Cdcl

structure Header where
  /-- Zero for a clause in use. -/
  mark : Nat := 0
  learnt : Bool
  frozen : Bool := false
  relocated : Bool := false
  size : Nat
  deriving DecidableEq, Repr

namespace Header

/-- The most literals a clause can have. -/
def maxSize : Nat := 1 <<< 27 - 1

/-- Each field fits its bits. -/
def Fits (h : Header) : Prop := h.mark < 4 ∧ h.size ≤ maxSize

def toWord (h : Header) : Nat :=
  h.mark <<< 30 + h.learnt.toNat <<< 29 + h.frozen.toNat <<< 28 +
    h.relocated.toNat <<< 27 + h.size

def ofWord (w : Nat) : Header where
  mark := w >>> 30
  learnt := w >>> 29 % 2 == 1
  frozen := w >>> 28 % 2 == 1
  relocated := w >>> 27 % 2 == 1
  size := w % 1 <<< 27

theorem ofWord_toWord (h : Header) (fits : h.Fits) : ofWord h.toWord = h := by
  obtain ⟨mark, learnt, frozen, relocated, size⟩ := h
  obtain ⟨_, bound⟩ := fits
  simp only [maxSize] at bound
  simp only [toWord, ofWord, mk.injEq, Nat.reduceShiftLeft]
  refine ⟨?_, ?_, ?_, ?_, ?_⟩ <;> cases learnt <;> cases frozen <;> cases relocated <;>
    simp only [Bool.toNat_true, Bool.toNat_false, beq_iff_eq, beq_eq_false_iff_ne] <;> omega

/-- The header as text. -/
def describe (h : Header) : String :=
  s!"ClauseHeader \x7b mark: {h.mark}, learnt: {h.learnt}, frozen: {h.frozen}, " ++
    s!"reloced: {h.relocated}, size: {h.size} \x7d"

end Header

end Cdcl
