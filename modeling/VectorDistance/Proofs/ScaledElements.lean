import Mathlib
import VectorDistance.Proofs.NormRange
import VectorDistance.Proofs.RoundingMonotone

/-!
# Elements divided by a norm

An element is divided in the 64-bit format, narrowed to the 32-bit one and encoded.
Each of the three steps rounds a magnitude that is at most one monotonically and
leaves the sign alone, so that scaled elements keep the order of the sizes of the
elements, their signs, and one as their bound. The first two steps lose a roundoff of
their format each, the third one a part in `2 ^ 11`, unless it flushes a number below
`2 ^ -14` to zero.
-/

namespace VectorDistance

namespace Binary

variable {F G : Format}

/-! ## Quotients up to one -/

/-- The magnitude of a quotient of `magnitude` by `norm` quanta of one format, narrowed
to another one. -/
def quotientMagnitude (F G : Format) (norm magnitude : ℕ) : ℕ :=
  G.roundMagnitude (F.roundMagnitude (magnitude * 2 ^ F.quantum) norm * 2 ^ G.quantum)
    (2 ^ F.quantum)

/-- Larger magnitudes have no smaller quotients. -/
theorem quotientMagnitude_mono (norm : ℕ) {m n : ℕ} (h : m ≤ n) :
    quotientMagnitude F G norm m ≤ quotientMagnitude F G norm n :=
  G.roundMagnitude_mono _
    (Nat.mul_le_mul_right _ (F.roundMagnitude_mono _ (Nat.mul_le_mul_right _ h)))

/-- The narrowed quotient of a number by one that is no smaller. -/
theorem exists_convert_div_eq (hF : F.quantum < F.capacity) (hG : G.quantum < G.capacity)
    (s : Bool) {m n : ℕ} (hm : F.Represents m) (hn : F.Represents n) (hpos : 0 < n) (hle : m ≤ n) :
    quotientMagnitude F G n m ≤ 2 ^ G.quantum ∧ ∃ hr,
      (finite s m hm / finite false n hn).convert G = finite s (quotientMagnitude F G n m) hr := by
  have hone : F.roundMagnitude (m * 2 ^ F.quantum) n ≤ 2 ^ F.quantum :=
    (F.fits_two_pow _).roundMagnitude_le hpos
      ((Nat.mul_le_mul_right _ hle).trans_eq (Nat.mul_comm _ _))
  have hnarrow : quotientMagnitude F G n m ≤ 2 ^ G.quantum :=
    (G.fits_two_pow _).roundMagnitude_le (Nat.two_pow_pos _)
      ((Nat.mul_le_mul_right _ hone).trans_eq (Nat.mul_comm _ _))
  have hltF := hone.trans_lt (Nat.pow_lt_pow_right (by omega) hF)
  have hltG := hnarrow.trans_lt (Nat.pow_lt_pow_right (by omega) hG)
  refine ⟨hnarrow, represents_roundMagnitude hltG, ?_⟩
  change (div _ _).convert G = _
  simp only [div, if_neg hpos.ne', Bool.bne_false]
  rw [ofRatio_of_lt s hltF]
  exact ofRatio_of_lt s hltG

/-- Narrowing a number that the narrower format reaches costs at most one roundoff. -/
theorem convert_approximates {x : Binary F} (hx : x.isFinite = true)
    (hn : G.ClearsUnderflow x.exact) (h : |x.exact| < G.reach) :
    (x.convert G).Approximates x.exact := by
  obtain ⟨s, m, hm, rfl⟩ := exists_of_isFinite hx
  have hG : (2 : ℚ) ^ G.quantum ≠ 0 := by positivity
  have hvalue : (finite s m hm).exact =
      (if s then -((m * 2 ^ G.quantum : ℕ) / (2 ^ F.quantum : ℕ) : ℚ)
        else (m * 2 ^ G.quantum : ℕ) / (2 ^ F.quantum : ℕ)) / 2 ^ G.quantum := by
    rw [exact_finite]
    cases s with
    | false =>
      simp only [signed, Bool.false_eq_true, if_false]
      push_cast
      field_simp
    | true =>
      simp only [signed, if_true]
      push_cast
      field_simp
  rw [← clearsUnderflow_abs] at hn
  rw [hvalue] at h hn ⊢
  rw [abs_signed_ratio] at h hn
  exact ofRatio_approximates_of_clears s (Nat.two_pow_pos _) hn h

end Binary

namespace Half

/-! ## Encoded magnitudes -/

/-- The sign of a finite half is the sign of its number. -/
theorem isNegative_decode {h : Half} (hf : h.isFinite = true) :
    h.decode.isNegative = h.isNegative := by
  obtain ⟨hr, hd⟩ := decode_of_isFinite hf
  rw [hd]
  rfl

/-- The magnitude of the half for a magnitude, both in 32-bit quanta. -/
def encodedMagnitude (m : ℕ) : ℕ :=
  if m < 2 ^ 135 then 0 else roundedMagnitude m

/-- Larger magnitudes have no smaller halves. -/
theorem encodedMagnitude_mono {m n : ℕ} (h : m ≤ n) : encodedMagnitude m ≤ encodedMagnitude n := by
  unfold encodedMagnitude
  by_cases hm : m < 2 ^ 135
  · rw [if_pos hm]
    exact Nat.zero_le _
  · rw [if_neg hm, if_neg (by omega)]
    exact roundedMagnitude_mono (Nat.not_lt.mp hm) h

/-- One is encoded exactly. -/
theorem encodedMagnitude_one : encodedMagnitude (2 ^ 149) = 2 ^ 149 := by
  decide +kernel

/-- The half for a number of at most the largest half's size: its number has the sign
and the encoded magnitude. -/
theorem exists_decode_encode {s : Bool} {m : ℕ} (hm : Format.single.Represents m)
    (hlt : m < 65520 * 2 ^ 149) :
    (encode (.finite s m hm)).isFinite = true ∧ (encode (.finite s m hm)).isNegative = s ∧
      ∃ hr, (encode (.finite s m hm)).decode = .finite s (encodedMagnitude m) hr := by
  unfold encodedMagnitude
  rcases Nat.lt_or_ge m (2 ^ 135) with hsmall | hlarge
  · simp only [if_pos hsmall, encode_of_lt hsmall]
    cases s with
    | false => exact ⟨rfl, rfl, Format.single.represents_zero, rfl⟩
    | true => exact ⟨rfl, rfl, Format.single.represents_zero, rfl⟩
  · obtain ⟨hnormal, hsign, hmag⟩ := ofParts_encodeMagnitude s hlarge hlt
    obtain ⟨hr, hd⟩ := decode_of_isNormal hnormal
    simp only [encode, if_neg (Nat.not_lt.mpr hlarge)]
    refine ⟨(isRegular_of_isNormal hnormal).1, hsign, hmag ▸ hr, ?_⟩
    rw [hd, hsign]
    exact Binary.finite_congr hmag

/-- Encoding flushes a number below `2 ^ -14` or loses at most one part in `2 ^ 11`. -/
theorem encode_error {x : Single} (hx : x.isFinite = true) (h : |x.exact| < 65520) :
    (|x.exact| < 1 / 2 ^ 14 ∧ (encode x).decode.exact = 0) ∨
      |(encode x).decode.exact - x.exact| ≤ |x.exact| / 2 ^ 11 := by
  obtain ⟨s, m, hm, rfl⟩ := Binary.exists_of_isFinite hx
  have hlt : m < 65520 * 2 ^ 149 := Nat.not_le.mp fun hge => absurd (overflow_iff.mpr hge) h.not_ge
  obtain ⟨-, -, hr, hd⟩ := exists_decode_encode hm hlt (s := s)
  have hpos : (0 : ℚ) < 2 ^ 149 := by positivity
  rw [hd]
  rcases Nat.lt_or_ge m (2 ^ 135) with hsmall | hlarge
  · refine Or.inl ⟨flush_iff.mpr hsmall, ?_⟩
    have hzero : encodedMagnitude m = 0 := if_pos hsmall
    exact (congrArg Binary.exact (Binary.finite_congr hzero)).trans (Binary.exact_zero s)
  · have hmag : encodedMagnitude m = roundedMagnitude m := if_neg (Nat.not_lt.mpr hlarge)
    have herr := abs_roundedMagnitude_sub_le hlarge
    rw [← hmag] at herr
    refine Or.inr ?_
    rw [Binary.abs_exact_finite, Binary.exact_finite, Binary.exact_finite, Format.quantum_single,
      abs_signed_sub_signed, ← sub_div, abs_div, abs_of_pos hpos, div_right_comm]
    exact div_le_div_of_nonneg_right herr hpos.le

end Half

namespace HalfVector

open Binary

variable {v : HalfVector} (hv : ∀ h ∈ v, h.isFinite = true) (hne : ¬v.IsZeros)
include hv hne

/-! ## Scaled elements -/

/-- A scaled element is finite, and has the sign of the element and a magnitude that comes
from its magnitude by one monotone function, which does not pass one. -/
theorem exists_monotone_scaleElement :
    ∃ scaled : ℕ → ℕ, Monotone scaled ∧ ∀ h ∈ v, ∃ m : ℕ,
      |h.decode.exact| = m / 2 ^ Format.double.quantum ∧ scaled m ≤ 2 ^ 149 ∧
      (scaleElement (norm v) h).isFinite = true ∧
      (scaleElement (norm v) h).isNegative = h.isNegative ∧
      |(scaleElement (norm v) h).decode.exact| = scaled m / 2 ^ 149 := by
  -- the magnitude of the norm is the same for every element
  obtain ⟨n, hn, hnorm, hpos, -⟩ := exists_norm_eq hv hne
  refine ⟨fun m => Half.encodedMagnitude (quotientMagnitude .double .single n m),
    fun _ _ h => Half.encodedMagnitude_mono (quotientMagnitude_mono n h), fun h hh => ?_⟩
  have hwide : h.decode.toDouble.isFinite = true := by
    rw [isFinite_toDouble, Half.isFinite_decode, hv h hh]
  obtain ⟨s, m, hm, hd⟩ := exists_of_isFinite hwide
  have hsign : s = h.isNegative := by
    rw [← Half.isNegative_decode (hv h hh), ← isNegative_widen Format.single_embedsIn_double
      ((h.isFinite_decode).trans (hv h hh)), ← toDouble, hd]
    rfl
  have hexact : |h.decode.exact| = m / 2 ^ Format.double.quantum := by
    rw [← exact_toDouble, hd, abs_exact_finite]
  have hle : m ≤ n := by
    have hnorm_le := abs_decode_le_norm hv hh (norm_bounds hv hne).1
    rw [hexact, hnorm, exact_finite_false, div_le_div_iff_of_pos_right (by positivity)] at hnorm_le
    exact_mod_cast hnorm_le
  obtain ⟨hone, hr, hquot⟩ := exists_convert_div_eq (G := .single) (by decide) (by decide) s hm hn
    hpos hle
  have hlt : quotientMagnitude .double .single n m < 65520 * 2 ^ 149 :=
    hone.trans_lt (lt_mul_of_one_lt_left (Nat.two_pow_pos _) (by decide))
  obtain ⟨hfin, hneg, hr', hdec⟩ := Half.exists_decode_encode (s := s) hr hlt
  have hscaled : scaleElement (norm v) h = Half.encode (.finite s _ hr) := by
    rw [scaleElement, hd, hnorm, hquot]
  rw [hscaled, hdec, hneg, abs_exact_finite]
  refine ⟨m, hexact, ?_, hfin, hsign, rfl⟩
  exact (Half.encodedMagnitude_mono hone).trans_eq Half.encodedMagnitude_one

/-- A quotient of an element by the norm is zero, or far from underflow, and at most one. -/
theorem quotient_bounds {h : Half} (hh : h ∈ v) :
    (h.decode.exact / (norm v).exact = 0 ∨ 1 / 2 ^ 52 ≤ |h.decode.exact / (norm v).exact|) ∧
      |h.decode.exact / (norm v).exact| ≤ 1 := by
  obtain ⟨hfin, hpos, hle⟩ := norm_bounds hv hne
  rw [abs_div, abs_of_pos hpos, div_le_one hpos]
  refine ⟨?_, abs_decode_le_norm hv hh hfin⟩
  rcases (Half.onGrid_decode (hv h hh)).eq_zero_or_le_abs with hzero | hlarge
  · exact Or.inl (by rw [hzero, zero_div])
  · refine Or.inr ?_
    rw [le_div_iff₀ hpos]
    norm_num [Format.quantum_single] at hlarge hle ⊢
    linarith

/-- The division loses at most a roundoff of the 64-bit format. -/
theorem quotient_near {h : Half} (hh : h ∈ v) :
    (h.decode.toDouble / norm v).Approximates (h.decode.exact / (norm v).exact) := by
  obtain ⟨hfin, hpos, -⟩ := norm_bounds hv hne
  obtain ⟨hclear, hone⟩ := quotient_bounds hv hne hh
  have hwfin : h.decode.toDouble.isFinite = true := by
    rw [isFinite_toDouble, Half.isFinite_decode, hv h hh]
  rw [← exact_toDouble] at hclear hone ⊢
  refine div_approximates hwfin hfin hpos.ne' (hclear.imp_right fun hlarge => ?_) ?_
  · rw [Format.leastNormal_double]
    exact (one_div_le_one_div_of_le (by positivity)
      (pow_le_pow_right₀ one_le_two (by norm_num))).trans hlarge
  · rw [Format.reach_double]
    exact hone.trans_lt (one_lt_pow₀ one_lt_two (by norm_num))

/-- The quotient is narrowed with the roundoffs of both formats. -/
theorem narrowed_near {h : Half} (hh : h ∈ v) :
    ((h.decode.toDouble / norm v).convert Format.single).isFinite = true ∧
      |((h.decode.toDouble / norm v).convert Format.single).exact -
          h.decode.exact / (norm v).exact| ≤ |h.decode.exact / (norm v).exact| / 2 ^ 23 := by
  obtain ⟨hclear, hone⟩ := quotient_bounds hv hne hh
  obtain ⟨hqfin, hq⟩ := quotient_near hv hne hh
  rw [Format.roundoff_double] at hq
  -- only the quotient and its rounded value matter from here on
  generalize h.decode.exact / (norm v).exact = t at hclear hone hq ⊢
  generalize h.decode.toDouble / norm v = q at hqfin hq ⊢
  obtain ⟨hlo, hhi⟩ := abs_le.mp ((abs_abs_sub_abs_le_abs_sub q.exact t).trans hq)
  have hqclear : Format.single.ClearsUnderflow q.exact := by
    rcases hclear with hzero | hlarge
    · rw [hzero, abs_zero, zero_mul, sub_zero] at hq
      exact Or.inl (abs_nonpos_iff.mp hq)
    · refine Or.inr ?_
      rw [Format.leastNormal_single]
      norm_num at hlo hlarge ⊢
      linarith
  have hreach : |q.exact| < Format.single.reach := by
    rw [Format.reach_single]
    norm_num at hhi ⊢
    linarith
  obtain ⟨hzfin, hz⟩ := convert_approximates hqfin hqclear hreach
  refine ⟨hzfin, ?_⟩
  have hsplit := abs_sub_le (q.convert Format.single).exact q.exact t
  rw [Format.roundoff_single] at hz
  norm_num at hz hq hhi ⊢
  linarith

/-- A scaled element is off by at most three parts in `2 ^ 12`, unless the quotient is
small and flushed to zero. -/
theorem scaleElement_near {h : Half} (hh : h ∈ v) :
    (|h.decode.exact / (norm v).exact| < 1 / 2 ^ 13 ∧
        (scaleElement (norm v) h).decode.exact = 0) ∨
      |(scaleElement (norm v) h).decode.exact - h.decode.exact / (norm v).exact| ≤
        |h.decode.exact / (norm v).exact| * (3 / 2 ^ 12) := by
  obtain ⟨hzfin, hz⟩ := narrowed_near hv hne hh
  obtain ⟨-, hone⟩ := quotient_bounds hv hne hh
  rw [scaleElement]
  generalize h.decode.exact / (norm v).exact = t at hz hone ⊢
  generalize (h.decode.toDouble / norm v).convert Format.single = z at hzfin hz ⊢
  obtain ⟨hlo, hhi⟩ := abs_le.mp ((abs_abs_sub_abs_le_abs_sub z.exact t).trans hz)
  have hsmall : |z.exact| < 65520 := by
    norm_num at hz
    linarith
  rcases Half.encode_error hzfin hsmall with ⟨hflush, hzero⟩ | herr
  · refine Or.inl ⟨?_, hzero⟩
    norm_num at hz hflush ⊢
    linarith
  · refine Or.inr ?_
    have hsplit := abs_sub_le (Half.encode z).decode.exact z.exact t
    norm_num at hz herr ⊢
    linarith

end HalfVector

end VectorDistance
