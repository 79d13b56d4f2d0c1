import VectorDistance.HalfCodec
import VectorDistance.Proofs.RoundingLaws

/-!
# Encoding a half field by field

The half for a 32-bit value, computed from the fields of its bits: the exponent is rebiased,
exponents past the halves saturate and those below flush, and of the thirteen fraction bits
that are dropped the top one is added to the others, with a carry into the exponent. This is
the same half for all bits.
-/

namespace VectorDistance.Half

/-- The sign bit of a 32-bit encoding. -/
def signBit (bits : UInt32) : Bool :=
  bits.toNat / 2 ^ 31 % 2 == 1

/-- The eight exponent bits. -/
def exponentBits (bits : UInt32) : ℕ :=
  bits.toNat / 2 ^ 23 % 256

/-- The 23 fraction bits. -/
def fractionBits (bits : UInt32) : ℕ :=
  bits.toNat % 2 ^ 23

/-- The half for a sign, an exponent field and fraction bits of the 32-bit format. -/
def encodeFields (negative : Bool) (exponent fraction : ℕ) : Half :=
  let rebiased : ℤ := exponent - 127 + 15
  let kept := fraction / 2 ^ 13
  if exponent = 255 then ofParts negative (0x7c00 + if fraction = 0 then 0 else 1)
  else if 31 ≤ rebiased then ofParts negative 0x7c00
  else if rebiased ≤ 0 then ofParts negative 0
  else if fraction / 2 ^ 12 % 2 = 0 then ofParts negative (rebiased.toNat * 1024 + kept)
  else if kept + 1 ≠ 1024 then ofParts negative (rebiased.toNat * 1024 + (kept + 1))
  -- the fraction overflows into the exponent
  else if rebiased + 1 = 31 then ofParts negative 0x7c00
  else ofParts negative ((rebiased + 1).toNat * 1024)

/-- The value of 32 bits by its three fields. -/
theorem ofBits32_eq_ofFields (bits : UInt32) :
    Binary.ofBits32 bits =
      .ofFields Format.single (signBit bits) (exponentBits bits) (fractionBits bits) := rfl

/-- The logarithm of a magnitude with a leading bit and 23 more. -/
theorem log2_significand {fraction : ℕ} (h : fraction < 2 ^ 23) (exponent : ℕ) :
    ((2 ^ 23 + fraction) * 2 ^ exponent).log2 = exponent + 23 := by
  have hpos := Nat.two_pow_pos exponent
  refine (Nat.log2_eq_iff (by positivity)).mpr ⟨?_, ?_⟩
  · rw [pow_add, mul_comm]
    exact Nat.mul_le_mul_right _ (by omega)
  · rw [show exponent + 23 + 1 = 24 + exponent by omega, pow_add]
    exact Nat.mul_lt_mul_of_pos_right (by omega) hpos

/-- Eleven bits are left of a significand of 24: those of the leading one and of the kept
fraction, one more if the top dropped bit is set. -/
theorem roundDiv_significand (fraction exponent : ℕ) :
    roundDiv .away ((2 ^ 23 + fraction) * 2 ^ exponent) (2 ^ (exponent + 13)) =
      1024 + fraction / 2 ^ 13 + fraction / 2 ^ 12 % 2 := by
  rw [pow_add, mul_comm (2 ^ exponent) (2 ^ 13),
    roundDiv_mul_right _ _ _ (Nat.two_pow_pos exponent)]
  unfold roundDiv
  dsimp only
  split
  · omega
  · split <;> omega

/-- A magnitude below the least normal half is flushed. -/
theorem encodeMagnitude_fields_of_le {exponent fraction : ℕ} (h : fraction < 2 ^ 23)
    (hle : exponent ≤ 112) :
    encodeMagnitude (Format.single.magnitudeOfFields exponent fraction) = 0 := by
  have hweight : Format.single.exponentWeight = 2 ^ 23 := by decide
  rw [encodeMagnitude, if_pos]
  rw [Format.magnitudeOfFields, hweight]
  split
  · exact h.trans (by norm_num)
  · calc (2 ^ 23 + fraction) * 2 ^ (exponent - 1)
        < 2 ^ 24 * 2 ^ (exponent - 1) := Nat.mul_lt_mul_of_pos_right (by omega) (by positivity)
      _ ≤ 2 ^ 24 * 2 ^ 111 := Nat.mul_le_mul_left _ (Nat.pow_le_pow_right (by norm_num) (by omega))
      _ = 2 ^ 135 := by norm_num

/-- Any other one has its rebiased exponent, the kept fraction and the rounding bit added up, and
saturates. -/
theorem encodeMagnitude_fields_of_lt {exponent fraction : ℕ} (h : fraction < 2 ^ 23)
    (hlt : 112 < exponent) :
    encodeMagnitude (Format.single.magnitudeOfFields exponent fraction) =
      min 0x7c00 ((exponent - 112) * 1024 + fraction / 2 ^ 13 + fraction / 2 ^ 12 % 2) := by
  have hweight : Format.single.exponentWeight = 2 ^ 23 := by decide
  have hlarge : ¬(2 ^ 23 + fraction) * 2 ^ (exponent - 1) < 2 ^ 135 := by
    rw [not_lt]
    calc 2 ^ 135 = 2 ^ 23 * 2 ^ 112 := by norm_num
      _ ≤ (2 ^ 23 + fraction) * 2 ^ (exponent - 1) :=
        Nat.mul_le_mul (by omega) (Nat.pow_le_pow_right (by norm_num) (by omega))
  rw [Format.magnitudeOfFields, if_neg (by omega), hweight, encodeMagnitude, if_neg hlarge]
  dsimp only
  have hsum (rest : ℕ) : (exponent - 1 + 13 - 125) * 1024 + (1024 + rest) =
      (exponent - 112) * 1024 + rest := by omega
  rw [log2_significand h, show exponent - 1 + 23 - 10 = exponent - 1 + 13 by omega,
    roundDiv_significand, Nat.add_assoc 1024, hsum, ← Nat.add_assoc]

/-- For fields of the 32-bit format that is the half for their value. -/
theorem encode_ofFields (negative : Bool) {exponent fraction : ℕ} (he : exponent < 256)
    (hf : fraction < 2 ^ 23) :
    encode (.ofFields Format.single negative exponent fraction) =
      encodeFields negative exponent fraction := by
  have hlimit : Format.single.exponentLimit = 255 := by decide
  have hweight : Format.single.exponentWeight = 2 ^ 23 := by decide
  unfold encodeFields
  dsimp only
  by_cases hspecial : exponent = 255
  · rw [if_pos hspecial, Binary.ofFields, dif_neg (by omega)]
    by_cases hzero : fraction = 0
    · rw [if_pos hzero, if_pos hzero]
      rfl
    · rw [if_neg hzero, if_neg hzero]
      rfl
  · rw [if_neg hspecial, Binary.ofFields, dif_pos ⟨by omega, by omega⟩, encode]
    by_cases hflushed : exponent ≤ 112
    · rw [encodeMagnitude_fields_of_le hf hflushed, if_neg (by omega), if_pos (by omega)]
    · rw [encodeMagnitude_fields_of_lt hf (by omega)]
      -- the branches only differ in which summand the carry goes to
      split_ifs <;>
      · refine congrArg (ofParts negative) ?_
        omega

/-- Encoding the value of 32 bits is encoding their fields. -/
theorem encode_ofBits32 (bits : UInt32) :
    encode (Binary.ofBits32 bits) =
      encodeFields (signBit bits) (exponentBits bits) (fractionBits bits) := by
  rw [ofBits32_eq_ofFields]
  exact encode_ofFields _ (Nat.mod_lt _ (by norm_num)) (Nat.mod_lt _ (by norm_num))

end VectorDistance.Half
