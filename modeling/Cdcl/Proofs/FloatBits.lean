/-!
# Bits of floats

A number of single precision is given back by its bits. Its three parts make up the word, and if it is
finite, the exponent and the mantissa that they stand for are packed as they were.

Main statement: `Float32.ofBits_toBits`.
-/

namespace Cdcl

open Float.Model hiding pack unpack
open UnpackedFloat

/-- A packed float is made of its sign, its exponent and its mantissa. -/
theorem packComponents_unpack {spec : Format} (b : BitVec spec.numBits) :
    packComponents spec (Sign.ofBitVec (unpackSign b)) (unpackExponent b) (unpackMantissa b) = b := by
  have sign : (Sign.ofBitVec (unpackSign b)).toBitVec = unpackSign b := by
    generalize unpackSign b = v
    revert v
    decide
  have mantissa := spec.hm
  have exponent := spec.he
  unfold packComponents
  rw [sign]
  -- Bit by bit: a position lies in the mantissa, in the exponent, or is the sign.
  refine BitVec.eq_of_getLsbD_eq fun i bound => ?_
  rw [BitVec.getLsbD_append, BitVec.getLsbD_append]
  unfold unpackMantissa unpackExponent unpackSign
  simp only [BitVec.getLsbD_cast, BitVec.getLsbD_extractLsb]
  split
  · rw [decide_eq_true (by omega), Bool.true_and, Nat.zero_add]
  · split
    all_goals
      rw [decide_eq_true (by omega), Bool.true_and]
      congr 1
      omega

variable {b : BitVec Format.binary32.numBits}

theorem toNat_ne_of_ne {n : Nat} {v w : BitVec n} (ne : v ≠ w) : v.toNat ≠ w.toNat :=
  fun same => ne (BitVec.eq_of_toNat_eq same)

/-- A mantissa with the implicit bit before it has one more bit than it. -/
theorem log2_implicit (m : BitVec 23) : (1#1 ++ m).toNat.log2 = 23 ∧ BitVec.ofNat 23 (1#1 ++ m).toNat = m := by
  have small := m.isLt
  -- The implicit bit is above all bits of the mantissa, so that the two words add up.
  have whole : (1#1 ++ m).toNat = 2 ^ 23 + m.toNat := by
    rw [BitVec.toNat_append, Nat.shiftLeft_eq]
    exact (Nat.two_pow_add_eq_or_of_lt small 1).symm
  refine ⟨?_, BitVec.eq_of_toNat_eq ?_⟩
  · rw [whole, Nat.log2_eq_iff (by omega)]
    omega
  · rw [whole, BitVec.toNat_ofNat]
    omega

/-- What a float stands for is packed as it was. -/
theorem pack_unpack (valid : Format.binary32.Valid b) :
    UnpackedFloat.pack Format.binary32 (UnpackedFloat.unpack Format.binary32 b) = b := by
  have parts := packComponents_unpack b
  have exponent : (unpackExponent b).toNat < 2 ^ 8 := (unpackExponent b).isLt
  have bias : (Format.binary32.exponentBias : Int) = 127 := rfl
  unfold UnpackedFloat.unpack
  dsimp only
  -- The exponent says which kind of number it is: all ones for infinities and NaN, zero for zeros
  -- and subnormal numbers.
  by_cases top : unpackExponent b = -1#_
  · rw [if_pos top]
    by_cases zero : unpackMantissa b = 0#_
    · rw [if_pos zero]
      rw [top, zero] at parts
      exact parts
    · rw [if_neg zero]
      -- A valid float has a single NaN, so the mantissa is known.
      exact (valid.eq_packedNaN top zero).symm
  · have notTop : (unpackExponent b).toNat ≠ 255 := toNat_ne_of_ne top
    rw [if_neg top]
    by_cases low : unpackExponent b = 0#_
    · rw [if_pos low]
      by_cases zero : unpackMantissa b = 0#_
      · rw [dif_pos zero]
        rw [low, zero] at parts
        exact parts
      · -- A subnormal number: its mantissa has no implicit bit, and the exponent stays zero.
        have few : (unpackMantissa b).toNat.log2 < 23 :=
          (Nat.log2_lt (toNat_ne_of_ne zero)).mpr (unpackMantissa b).isLt
        rw [dif_neg zero]
        rw [low] at parts
        unfold UnpackedFloat.pack
        dsimp only
        rw [if_neg, if_neg]
        · rwa [BitVec.ofNat_toNat, BitVec.setWidth_eq]
        · change ¬ _ + 1 = 24
          omega
        · rw [low]
          decide
    · -- A normal number: the implicit bit is added and taken away again.
      obtain ⟨bits, mantissa⟩ := log2_implicit (unpackMantissa b)
      have biased : (((unpackExponent b).toNat : Int) - ((Format.binary32.exponentBias : Int) + (23 : Nat)) +
          Format.binary32.exponentBias + (23 : Nat)).toNat = (unpackExponent b).toNat := by omega
      rw [if_neg low]
      unfold UnpackedFloat.pack
      dsimp only
      rw [biased, if_neg (by omega), if_pos (by rw [bits]; rfl), mantissa, BitVec.ofNat_toNat,
        BitVec.setWidth_eq]
      exact parts

theorem Float32.model_ext {x y : Float32.Model} (bits : x.toBits = y.toBits) : x = y := by
  cases x
  cases y
  cases bits
  rfl

/-- A float is given back by its bits. -/
theorem Float32.ofBits_toBits (x : Float32) : Float32.ofBits x.toBits = x :=
  congrArg Float32.ofModel (Float32.model_ext (congrArg UInt32.ofBitVec (pack_unpack x.toModel.valid)))

end Cdcl
