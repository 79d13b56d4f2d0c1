import Mathlib
import VectorDistance.Proofs.ScaledElements
import VectorDistance.Proofs.SpecialValues

/-!
# Order and signs through the codec

Decoded after encoding, a number has its own sign and a magnitude that comes from its
magnitude by one function: zero below the flush threshold, eleven rounded bits above
it, and the place of the infinities from the overflow threshold on. That function is
monotone across all three ranges, so the codec keeps the order of any two numbers. It
commutes with a change of sign, for NaNs too, and what it once yielded it leaves as it is.
-/

namespace VectorDistance

/-! ## The sign bit -/

namespace Binary

/-- Fields under the other sign stand for the value of the other sign. -/
theorem ofFields_not (F : Format) (s : Bool) (e f : ℕ) :
    ofFields F (!s) e f = -ofFields F s e f := by
  change _ = (ofFields F s e f).neg
  unfold ofFields
  split
  · rfl
  · split
    · rfl
    · rfl

/-- A pattern with its top bit turned around stands for the value of the other sign. -/
theorem ofBits32_xor_sign (bits : UInt32) :
    ofBits32 (bits ^^^ 0x80000000) = -ofBits32 bits := by
  obtain ⟨hlow, hhigh⟩ := xor_top_bit (k := 31) bits.toNat_lt
  have hs : Format.single.signWeight = 2 ^ 31 := by decide
  have he : Format.single.exponentWeight = 2 ^ 23 := by decide
  have hl : Format.single.exponentLimit + 1 = 2 ^ 8 := by decide
  have hbits : (bits ^^^ 0x80000000).toNat = bits.toNat ^^^ 2 ^ 31 := UInt32.toNat_xor _ _
  have htop := bits.toNat_lt
  rw [ofBits32, ofBits32, decode, decode, hs, he, hl, hbits, ← ofFields_not]
  generalize bits.toNat ^^^ 2 ^ 31 = n at hlow hhigh
  -- the fields below the sign bit are read off the same number
  have hsign : (n / 2 ^ 31 % 2 == 1) = !(bits.toNat / 2 ^ 31 % 2 == 1) := by
    rw [Bool.eq_iff_iff]
    simp only [beq_iff_eq, Bool.not_eq_true', beq_eq_false_iff_ne]
    omega
  have hexponent : n / 2 ^ 23 % 2 ^ 8 = bits.toNat / 2 ^ 23 % 2 ^ 8 := by omega
  have hfraction : n % 2 ^ 23 = bits.toNat % 2 ^ 23 := by omega
  rw [hsign, hexponent, hfraction]

end Binary

namespace Half

/-- A half that is put together changes its sign with its sign bit. -/
theorem neg_ofParts (s : Bool) {b : ℕ} (hb : b < 0x8000) :
    (ofParts s b).neg = ofParts (!s) b := by
  obtain ⟨hsign, hexponent, hfraction⟩ := fields_neg (ofParts s b)
  refine eq_of_fields ?_ ?_ ?_
  · rw [hsign, isNegative_ofParts s hb, isNegative_ofParts (!s) hb]
  · rw [hexponent, exponentField_ofParts s hb, exponentField_ofParts (!s) hb]
  · rw [hfraction, fraction_ofParts s hb, fraction_ofParts (!s) hb]

/-- A value of the other sign is encoded as the half of the other sign, a NaN too. -/
theorem encode_neg (x : Single) : encode (-x) = (encode x).neg := by
  change encode x.neg = _
  cases x with
  | nan s => exact (neg_ofParts s (by decide)).symm
  | infinite s => exact (neg_ofParts s (by decide)).symm
  | finite s m hm =>
    have hb := encodeMagnitude_le m
    exact (neg_ofParts s (by omega)).symm

/-! ## Halves that are encoded again -/

/-- The magnitude of a normal half lies between the thresholds of the encoder. -/
theorem normalMagnitude_bounds {h : Half} (hn : h.isNormal = true) :
    2 ^ 135 ≤ h.normalMagnitude ∧ h.normalMagnitude < 65520 * 2 ^ 149 := by
  obtain ⟨hlo, hhi⟩ := isNormal_iff.mp hn
  have hf := h.fraction_lt
  unfold normalMagnitude
  constructor
  · calc 2 ^ 135 = 1024 * 2 ^ 125 := by norm_num
      _ ≤ (1024 + h.fraction) * 2 ^ (h.exponentField + 124) :=
        Nat.mul_le_mul (by omega) (Nat.pow_le_pow_right (by omega) (by omega))
  · calc (1024 + h.fraction) * 2 ^ (h.exponentField + 124)
        ≤ 2047 * 2 ^ 154 :=
          Nat.mul_le_mul (by omega) (Nat.pow_le_pow_right (by omega) (by omega))
      _ < 65520 * 2 ^ 149 := by norm_num

/-- A normal half is encoded as itself: no other one is as near to its own value. -/
theorem encode_decode_of_isNormal {h : Half} (hn : h.isNormal = true) : encode h.decode = h := by
  obtain ⟨hlo, hhi⟩ := normalMagnitude_bounds hn
  obtain ⟨hm, hd⟩ := decode_of_isNormal hn
  have hself : NearestNormal h.decode.exact h := by
    refine ⟨hn, fun g _ => ?_, fun g _ hg => ?_⟩
    · rw [sub_self, abs_zero]
      exact abs_nonneg _
    · rw [sub_self, abs_zero, abs_eq_zero, sub_eq_zero] at hg
      rw [hg]
  refine EncodesAs.eq_encode ?_
  rw [hd] at hself ⊢
  refine .nearest rfl ?_ ?_ rfl hself
  · exact not_lt.mp fun hlt => Nat.not_lt.mpr hlo (flush_iff.mp hlt)
  · exact not_le.mp fun hge => Nat.not_le.mpr hhi (overflow_iff.mp hge)

/-- Zeros are encoded as themselves. -/
theorem encode_decode_zero (s : Bool) : encode (zero.withSign s).decode = zero.withSign s := by
  cases s <;> rfl

/-- Infinities are encoded as themselves. -/
theorem encode_decode_infinity (s : Bool) :
    encode (infinity.withSign s).decode = infinity.withSign s := by
  cases s <;> rfl

/-- What a number was encoded as is encoded as itself. -/
theorem encode_decode_encode {x : Single} (hx : x.isNaN = false) :
    encode (encode x).decode = encode x := by
  have hrule := encodesAs_encode x
  generalize encode x = h at hrule ⊢
  cases hrule with
  | nan hnan => exact Bool.noConfusion (hx.symm.trans hnan)
  | infinite => exact encode_decode_infinity _
  | overflow => exact encode_decode_infinity _
  | flush => exact encode_decode_zero _
  | nearest _ _ _ _ hn => exact encode_decode_of_isNormal hn.normal

/-! ## The order of encoded numbers -/

/-- The size of the rank after encoding from the size of the rank before it. -/
def codedRank (m : ℕ) : ℕ :=
  if m < 65520 * 2 ^ 149 then encodedMagnitude m else 2 ^ Format.single.capacity

/-- The infinities of the 32-bit format rank far beyond `2 ^ 16`. -/
theorem two_pow_le_capacity : 2 ^ 165 ≤ 2 ^ Format.single.capacity :=
  Nat.pow_le_pow_right (by omega) (by decide)

/-- Up to the overflow threshold halves are rounded to at most `2 ^ 16`. -/
theorem encodedMagnitude_le {m : ℕ} (h : m ≤ 65520 * 2 ^ 149) : encodedMagnitude m ≤ 2 ^ 165 := by
  calc encodedMagnitude m ≤ encodedMagnitude (65520 * 2 ^ 149) := encodedMagnitude_mono h
    _ = 2 ^ 165 := by decide +kernel

/-- Zero stays where it is. -/
theorem codedRank_zero : codedRank 0 = 0 := rfl

/-- Sizes keep their order, through the flush and the overflow threshold too. -/
theorem codedRank_mono : Monotone codedRank := by
  intro m n h
  unfold codedRank
  by_cases hn : n < 65520 * 2 ^ 149
  · rw [if_pos (h.trans_lt hn), if_pos hn]
    exact encodedMagnitude_mono h
  · rw [if_neg hn]
    split
    · next hm =>
      -- rounded past the largest half, a number is still below the infinities
      exact (encodedMagnitude_le hm.le).trans two_pow_le_capacity
    · exact le_rfl

/-- The rank of an encoded number has the sign of its rank and the size that belongs to it. -/
theorem exists_rank_decode_encode {x : Single} (hx : x.isNaN = false) :
    ∃ s m, x.rank = some (Binary.signed s m) ∧
      (encode x).decode.rank = some (Binary.signed s (codedRank m)) := by
  have hinfinity (s : Bool) : (infinity.withSign s).decode.rank =
      some (Binary.signed s (2 ^ Format.single.capacity)) := by
    cases s <;> rfl
  cases x with
  | nan => cases hx
  | infinite s =>
    have hbeyond : 65520 * 2 ^ 149 ≤ 2 ^ Format.single.capacity :=
      le_trans (by norm_num) two_pow_le_capacity
    refine ⟨s, _, rfl, ?_⟩
    rw [encode_infinite, hinfinity, codedRank, if_neg (Nat.not_lt.mpr hbeyond)]
  | finite s m hm =>
    refine ⟨s, m, rfl, ?_⟩
    rw [codedRank]
    split
    · next hlt =>
      obtain ⟨-, -, hr, hd⟩ := exists_decode_encode (s := s) hm hlt
      rw [hd]
      rfl
    · next hge => rw [encode_of_ge (Nat.not_lt.mp hge), hinfinity]

/-- Encoding keeps the order of numbers. -/
theorem decode_encode_le {x y : Single} (h : x.le y = true) :
    (encode x).decode.le (encode y).decode = true := by
  obtain ⟨i, j, hi, hj, hij⟩ := Binary.le_iff_rank.mp h
  have hnan {z : Single} {k : ℤ} (hk : z.rank = some k) : z.isNaN = false := by
    rw [← Bool.not_eq_true, ← Binary.rank_eq_none_iff, hk]
    exact Option.some_ne_none k
  obtain ⟨s, m, hm, hxrank⟩ := exists_rank_decode_encode (hnan hi)
  obtain ⟨t, n, hn, hyrank⟩ := exists_rank_decode_encode (hnan hj)
  obtain rfl : i = Binary.signed s m := Option.some.inj (hi.symm.trans hm)
  obtain rfl : j = Binary.signed t n := Option.some.inj (hj.symm.trans hn)
  exact Binary.le_iff_rank.mpr
    ⟨_, _, hxrank, hyrank, Binary.signed_map_mono codedRank_mono codedRank_zero hij⟩

/-- Laws of the codec: decoded after encoding, numbers keep their order; a pattern with its
sign bit turned around, that of a NaN too, is encoded as the half with its sign bit turned
around; and encoding what a number was encoded as changes nothing. -/
theorem codec_laws :
    (∀ x y : Single, x.le y = true → (encode x).decode.le (encode y).decode = true) ∧
    (∀ bits : UInt32, encode (Binary.ofBits32 (bits ^^^ 0x80000000)) =
      (encode (Binary.ofBits32 bits)).neg) ∧
    ∀ x : Single, x.isNaN = false → encode (encode x).decode = encode x := by
  refine ⟨fun _ _ => decode_encode_le, fun bits => ?_, fun _ => encode_decode_encode⟩
  rw [Binary.ofBits32_xor_sign]
  exact encode_neg _

/-- The last number below the overflow threshold and the threshold; a NaN; and the last
number below the flush threshold. -/
theorem codec_laws_thresholds :
    (encode (Binary.ofBits32 0x477fefff)).decode.le
        (encode (Binary.ofBits32 0x477ff000)).decode = true ∧
      encode (Binary.ofBits32 (0x7fc00001 ^^^ 0x80000000)) =
        (encode (Binary.ofBits32 0x7fc00001)).neg ∧
      encode (encode (Binary.ofBits32 0x387fffff)).decode =
        encode (Binary.ofBits32 0x387fffff) :=
  ⟨codec_laws.1 _ _ (by decide +kernel), codec_laws.2.1 0x7fc00001,
    codec_laws.2.2 _ (by decide +kernel)⟩

end Half

end VectorDistance
