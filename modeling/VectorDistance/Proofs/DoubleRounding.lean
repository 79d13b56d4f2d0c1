import Mathlib
import VectorDistance.Proofs.RegularVectors

/-!
# Sums of halves are rounded once

A sum of two halves is rounded to 24 bits before it is encoded with 11. Two
roundings differ from one only where the first carries a number up to a midpoint
between two neighbouring halves from just below it. A sum of two numbers of
eleven bits is never that close below a midpoint: the larger one is a whole
number of half last bits, so the smaller one would have to make up the tiny rest
and be either too coarse for it or the rest itself, in which case the larger one
would be a midpoint. Below the least normal half the first rounding does nothing.
-/

namespace VectorDistance

/-- Rounding halves away from zero is flooring after half a unit more. -/
theorem roundDiv_away_eq (num : ℕ) {den : ℕ} (hden : 0 < den) :
    roundDiv .away num den = (2 * num + den) / (2 * den) := by
  have hlo := num_lt_roundDiv_away num hden
  have hhi := roundDiv_mul_le .away num den
  refine (Nat.div_eq_of_lt_le ?_ ?_).symm
  · calc roundDiv .away num den * (2 * den) = 2 * (roundDiv .away num den * den) := by ring
      _ ≤ 2 * num + den := hhi
  · calc 2 * num + den < 2 * (roundDiv .away num den * den) + den + den := by omega
      _ = (roundDiv .away num den + 1) * (2 * den) := by ring

/-- No midpoint of a grid of `2 ^ (x + 13)` lies above `n` by half a unit of a
grid of `2 ^ x` or less. -/
def ClearsMidpoints (x n : ℕ) : Prop :=
  ∀ c, n < (2 * c + 1) * 2 ^ (x + 12) → 2 * n + 2 ^ x < 2 * ((2 * c + 1) * 2 ^ (x + 12))

/-- Away from midpoints a rounding to the finer grid does not change the rounding
to the coarser one. -/
theorem roundDiv_roundDiv {x n : ℕ} (h : ClearsMidpoints x n) :
    roundDiv .away (roundDiv .toEven n (2 ^ x) * 2 ^ x) (2 ^ (x + 13)) =
      roundDiv .away n (2 ^ (x + 13)) := by
  have hw := Nat.two_pow_pos x
  have hcoarse : 2 ^ (x + 13) = 8192 * 2 ^ x := by rw [pow_add]; ring
  have hmid : 2 ^ (x + 12) = 4096 * 2 ^ x := by rw [pow_add]; ring
  have hlo := num_lt_roundDiv_away n (Nat.two_pow_pos (x + 13))
  have hhi := roundDiv_mul_le .away n (2 ^ (x + 13))
  have hfine := roundDiv_mul_le .toEven n (2 ^ x)
  rw [roundDiv_away_eq _ (Nat.two_pow_pos _)]
  unfold ClearsMidpoints at h
  rw [hcoarse] at hlo hhi ⊢
  rw [hmid] at h
  generalize roundDiv .away n (8192 * 2 ^ x) = c at hlo hhi ⊢
  have hc : c * (8192 * 2 ^ x) = 8192 * (c * 2 ^ x) := by ring
  -- the lower midpoint is a multiple of the finer grid, which is not passed from above
  have hbelow : 8192 * (c * 2 ^ x) - 4096 * 2 ^ x ≤ roundDiv .toEven n (2 ^ x) * 2 ^ x := by
    have hmul : (2 * c - 1) * 4096 * 2 ^ x = 8192 * (c * 2 ^ x) - 4096 * 2 ^ x := by
      have htwice : 2 * c * 4096 * 2 ^ x = 8192 * (c * 2 ^ x) := by ring
      rw [Nat.sub_mul, Nat.sub_mul, Nat.one_mul, htwice]
    rw [← hmul]
    refine Nat.mul_le_mul_right _ (le_trans ?_ (le_roundDiv .toEven n (2 ^ x)))
    rw [Nat.le_div_iff_mul_le hw]
    omega
  -- the upper midpoint is not reached, since the number is far enough below it
  have habove := h c
  have hupper : (2 * c + 1) * (4096 * 2 ^ x) = 8192 * (c * 2 ^ x) + 4096 * 2 ^ x := by ring
  rw [hupper] at habove
  refine Nat.div_eq_of_lt_le ?_ ?_
  · calc c * (2 * (8192 * 2 ^ x)) = 16384 * (c * 2 ^ x) := by ring
      _ ≤ 2 * (roundDiv .toEven n (2 ^ x) * 2 ^ x) + 8192 * 2 ^ x := by omega
  · calc 2 * (roundDiv .toEven n (2 ^ x) * 2 ^ x) + 8192 * 2 ^ x
        < 16384 * (c * 2 ^ x) + 16384 * 2 ^ x := by omega
      _ = (c + 1) * (2 * (8192 * 2 ^ x)) := by ring

/-! ## Sums of numbers of eleven bits -/

/-- A number of eleven bits is a multiple of any power of two, or small against it. -/
theorem dvd_or_natAbs_lt {a : ℤ} (ha : Format.half.Fits a.natAbs) (e : ℕ) :
    ((2 ^ e : ℕ) : ℤ) ∣ a ∨ a.natAbs < 2 ^ (e + 10) := by
  have hp : Format.half.precision - 1 + e = e + 10 := Nat.add_comm _ _
  rcases ha.dvd_or_lt e with hd | ⟨-, hsmall⟩
  · exact Or.inl (Int.natCast_dvd.mpr hd)
  · rw [hp] at hsmall
    exact Or.inr hsmall

/-- A large number of eleven bits is not a midpoint itself. -/
theorem ne_midpoint {a : ℤ} {x c : ℕ} (ha : Format.half.Fits a.natAbs)
    (hx : 2 ^ (x + 23) ≤ a.natAbs) : a ≠ ((2 * c + 1) * 2 ^ (x + 12) : ℕ) := by
  rintro rfl
  rcases dvd_or_natAbs_lt ha (x + 13) with hd | hsmall
  · have h13 : 2 ^ (x + 13) = 2 * 2 ^ (x + 12) := by rw [pow_add, pow_add]; ring
    rw [Int.natCast_dvd_natCast, h13] at hd
    have heven := Nat.dvd_of_mul_dvd_mul_right (Nat.two_pow_pos (x + 12)) hd
    omega
  · exact hx.not_gt hsmall

/-- A sum of two numbers of eleven bits, the first of them the larger one, is
not just below a midpoint. -/
theorem not_below_midpoint_of_le {a b : ℤ} {x n c : ℕ} (ha : Format.half.Fits a.natAbs)
    (hb : Format.half.Fits b.natAbs) (hab : b.natAbs ≤ a.natAbs) (hn : a + b = n)
    (hx : 2 ^ (x + 23) ≤ n) (hlt : n < (2 * c + 1) * 2 ^ (x + 12)) :
    2 * n + 2 ^ x < 2 * ((2 * c + 1) * 2 ^ (x + 12)) := by
  by_contra hclose
  have hw := Nat.two_pow_pos x
  have h1 : 2 ^ (x + 1) = 2 * 2 ^ x := by rw [pow_add]; ring
  have h11 : 2 ^ (x + 1 + 10) = 2048 * 2 ^ x := by rw [pow_add, pow_add]; ring
  have h12 : 2 ^ (x + 12) = 4096 * 2 ^ x := by rw [pow_add]; ring
  have h22 : 2 ^ (x + 12 + 10) = 4194304 * 2 ^ x := by rw [pow_add, pow_add]; ring
  have h23 : 2 ^ (x + 23) = 8388608 * 2 ^ x := by rw [pow_add]; ring
  have hmidpoint := @ne_midpoint a x c ha
  set mid := (2 * c + 1) * 2 ^ (x + 12) with hmid
  have hmiddvd : ((2 ^ (x + 12) : ℕ) : ℤ) ∣ mid := Int.natCast_dvd_natCast.mpr (Nat.dvd_mul_left _ _)
  -- the larger number is a whole number of half last bits
  have hadvd : ((2 ^ (x + 12) : ℕ) : ℤ) ∣ a :=
    (dvd_or_natAbs_lt ha (x + 12)).resolve_right (by omega)
  -- so is the smaller one together with what is missing to the midpoint
  have hrest : ((2 ^ (x + 12) : ℕ) : ℤ) ∣ b + (mid - n) := by
    have he : b + (mid - n) = mid - a := by rw [← hn]; ring
    rw [he]
    exact dvd_sub hmiddvd hadvd
  rcases dvd_or_natAbs_lt hb (x + 1) with hd | hsmall
  · -- a smaller number of that weight leaves a rest that is larger than the gap
    have hpow : ((2 ^ (x + 1) : ℕ) : ℤ) ∣ ((2 ^ (x + 12) : ℕ) : ℤ) :=
      Int.natCast_dvd_natCast.mpr (Nat.pow_dvd_pow 2 (by omega))
    have hgap : ((2 ^ (x + 1) : ℕ) : ℤ) ∣ mid - n := (dvd_add_right hd).mp (hpow.trans hrest)
    have hle := Int.le_of_dvd (by omega) hgap
    omega
  · -- a smaller one is what is missing, and the larger number is the midpoint
    have hzero : b + (mid - n) = 0 := by
      refine Int.eq_zero_of_abs_lt_dvd hrest ?_
      rw [Int.abs_eq_natAbs]
      omega
    exact hmidpoint (by omega) (by omega)

/-- The size of a sum of two numbers of eleven bits clears the midpoints. -/
theorem clearsMidpoints_natAbs_add {a b : ℤ} {x : ℕ} (ha : Format.half.Fits a.natAbs)
    (hb : Format.half.Fits b.natAbs) (hx : 2 ^ (x + 23) ≤ (a + b).natAbs) :
    ClearsMidpoints x (a + b).natAbs := by
  intro c hlt
  have hsum : ∀ u v : ℤ, Format.half.Fits u.natAbs → Format.half.Fits v.natAbs →
      u + v = ((a + b).natAbs : ℕ) →
      2 * (a + b).natAbs + 2 ^ x < 2 * ((2 * c + 1) * 2 ^ (x + 12)) := by
    intro u v hu hv huv
    rcases Nat.le_total v.natAbs u.natAbs with h | h
    · exact not_below_midpoint_of_le hu hv h huv hx hlt
    · exact not_below_midpoint_of_le hv hu h (by rwa [add_comm]) hx hlt
  rcases Int.natAbs_eq (a + b) with h | h
  · exact hsum a b ha hb h
  · refine hsum (-a) (-b) ?_ ?_ (by omega)
    · rwa [Int.natAbs_neg]
    · rwa [Int.natAbs_neg]

/-- The binade of a magnitude, by the weight of the last of its 24 leading bits. -/
theorem exists_binade {n : ℕ} (hn : 2 ^ 135 ≤ n) :
    ∃ x, 2 ^ (x + 23) ≤ n ∧ n < 2 ^ (x + 24) ∧ Format.single.excess n = x := by
  have hne : n ≠ 0 := (lt_of_lt_of_le (by positivity) hn).ne'
  have hlog : 135 ≤ n.log2 := (Nat.le_log2 hne).mpr hn
  have hp : Format.single.precision = 24 := rfl
  refine ⟨n.log2 - 23, ?_, ?_, ?_⟩
  · rw [show n.log2 - 23 + 23 = n.log2 by omega]
    exact Nat.log2_self_le hne
  · rw [show n.log2 - 23 + 24 = n.log2 + 1 by omega]
    exact Nat.lt_log2_self
  · rw [Format.excess, hp]
    omega

namespace Half

/-- Up to the next power of two, the eleven rounded bits of a magnitude are those
of its binade. -/
theorem roundedMagnitude_of_binade {x y : ℕ} (hlo : 2 ^ (x + 23) ≤ y) (hhi : y ≤ 2 ^ (x + 24)) :
    roundedMagnitude y = roundDiv .away y (2 ^ (x + 13)) * 2 ^ (x + 13) := by
  rcases Nat.lt_or_eq_of_le hhi with hlt | heq
  · have hy0 : y ≠ 0 := (lt_of_lt_of_le (by positivity) hlo).ne'
    have hlog : y.log2 = x + 23 := (Nat.log2_eq_iff hy0).mpr ⟨hlo, hlt⟩
    have hshift : x + 23 - 10 = x + 13 := by omega
    rw [roundedMagnitude, hlog, hshift]
  · -- a power of two lies on both grids
    have hpow : ∀ e ≤ x + 24, roundDiv .away (2 ^ (x + 24)) (2 ^ e) * 2 ^ e = 2 ^ (x + 24) :=
      fun e he => roundDiv_of_dvd .away (by positivity) (Nat.pow_dvd_pow 2 he)
    rw [heq, roundedMagnitude, hpow _ (by rw [Nat.log2_two_pow]; omega), hpow _ (by omega)]

/-- Rounding a sum of two numbers of eleven bits to 24 bits first does not change
its eleven rounded bits. -/
theorem roundedMagnitude_roundMagnitude {a b : ℤ} (ha : Format.half.Fits a.natAbs)
    (hb : Format.half.Fits b.natAbs) (hn : 2 ^ 135 ≤ (a + b).natAbs) :
    roundedMagnitude (Format.single.roundMagnitude (a + b).natAbs 1) =
      roundedMagnitude (a + b).natAbs := by
  obtain ⟨x, hlo, hhi, hexc⟩ := exists_binade hn
  have hdouble := roundDiv_roundDiv (clearsMidpoints_natAbs_add ha hb hlo)
  have hfits : ∀ e, Format.single.Fits (2 ^ e) := fun e => Format.single.fits_two_pow e
  have hylo := (hfits (x + 23)).le_roundMagnitude Nat.one_pos ((Nat.mul_one _).trans_le hlo)
  have hyhi := (hfits (x + 24)).roundMagnitude_le Nat.one_pos
    (hhi.le.trans_eq (Nat.mul_one _).symm)
  rw [roundedMagnitude_of_binade hlo hhi.le, roundedMagnitude_of_binade hylo hyhi, ← hdouble]
  simp only [Format.roundMagnitude, Nat.div_one, hexc, Nat.one_mul]

/-! ## Encoding a sum -/

/-- An exact number rounded once to a half: a zero below the least normal half,
the nearest normal half from there on, the larger of two. -/
inductive RoundsOnce (q : ℚ) : Half → Prop
  /-- Below the least normal half there are only zeros. -/
  | flush (s : Bool) (h : |q| < 1 / 2 ^ 14) : RoundsOnce q (zero.withSign s)
  /-- Everything else goes to the nearest normal half. -/
  | nearest {h : Half} (hq : 1 / 2 ^ 14 ≤ |q|) (hn : NearestNormal q h) : RoundsOnce q h

/-- A 32-bit value that a finite half decodes to. -/
def IsDecoded (x : Single) : Prop :=
  ∃ s m hm, x = .finite s (m * 2 ^ 125) hm ∧ Format.half.Represents m

/-- Finite halves decode to such values. -/
theorem isDecoded_decode {h : Half} (hf : h.isFinite = true) : IsDecoded h.decode :=
  exists_decode_of_isFinite hf

/-- The other sign gives such a value too. -/
theorem IsDecoded.neg {x : Single} (hx : IsDecoded x) : IsDecoded (-x) := by
  obtain ⟨s, m, hm, rfl, hr⟩ := hx
  exact ⟨!s, m, hm, rfl, hr⟩

/-- The magnitude of such a value has eleven bits. -/
theorem fits_signed {m : ℕ} (s : Bool) (hm : Format.half.Represents m) :
    Format.half.Fits (Binary.signed s (m * 2 ^ 125)).natAbs := by
  obtain ⟨a, i, ha, rfl⟩ := hm.1
  rw [Binary.natAbs_signed, Nat.mul_assoc, ← pow_add]
  exact ⟨a, i + 125, ha, rfl⟩

/-- An encoded number is the exact one rounded once when both have the same
eleven rounded bits. -/
theorem roundsOnce_encode {s : Bool} {m n : ℕ} {hm : Format.single.Represents m}
    (hr : inRange (.finite s m hm) = true) (hsmall : n < 2 ^ 135 → m = n)
    (hlarge : 2 ^ 135 ≤ n → 2 ^ 135 ≤ m ∧ roundedMagnitude m = roundedMagnitude n) :
    RoundsOnce (((Binary.signed s n : ℤ) : ℚ) / 2 ^ 149) (encode (.finite s m hm)) := by
  have hpos : (0 : ℚ) < 2 ^ 149 := by positivity
  have habs : |((Binary.signed s n : ℤ) : ℚ) / 2 ^ 149| = (n : ℚ) / 2 ^ 149 := by
    rw [abs_div, Binary.abs_signed, abs_of_pos hpos]
  have hleast : (1 / 2 ^ 14 : ℚ) = ((2 ^ 135 : ℕ) : ℚ) / 2 ^ 149 := by norm_num
  rcases Nat.lt_or_ge n (2 ^ 135) with hn | hn
  · rw [encode_of_lt (by rw [hsmall hn]; exact hn)]
    refine .flush s ?_
    rw [habs, hleast, div_lt_div_iff_of_pos_right hpos]
    exact_mod_cast hn
  · obtain ⟨hm135, hround⟩ := hlarge hn
    have hlt : m < 65520 * 2 ^ 149 := by
      refine Nat.not_le.mp fun hge => ?_
      have hover : 65520 ≤ |(Binary.finite s m hm).exact| := overflow_iff.mpr hge
      linarith [(inRange_iff.mp hr).2]
    obtain ⟨hnormal, hsign, hmag⟩ := ofParts_encodeMagnitude s hm135 hlt
    refine .nearest ?_ (nearestNormal_of_roundedMagnitude hn hnormal hsign (hmag.trans hround))
    rw [habs, hleast, div_le_div_iff_of_pos_right hpos]
    exact_mod_cast hn

/-- The sum of two decoded halves is encoded as the exact sum rounded once. -/
theorem roundsOnce_encode_add {x y : Single} (hx : IsDecoded x) (hy : IsDecoded y)
    (hr : inRange (x + y) = true) : RoundsOnce (x.exact + y.exact) (encode (x + y)) := by
  obtain ⟨s, m, hm, rfl, hmr⟩ := hx
  obtain ⟨t, n, hn, rfl, hnr⟩ := hy
  have hgrid := dvd_add (Binary.natCast_dvd_signed s (Nat.dvd_mul_left (2 ^ 125) m))
    (Binary.natCast_dvd_signed t (Nat.dvd_mul_left (2 ^ 125) n))
  have hround := roundedMagnitude_roundMagnitude (fits_signed s hmr) (fits_signed t hnr)
  obtain ⟨u, hu, -, hadd⟩ := Binary.exists_finite_add s t hm hn
  have hsum : (Binary.finite s (m * 2 ^ 125) hm).exact + (Binary.finite t (n * 2 ^ 125) hn).exact =
      ((Binary.signed s (m * 2 ^ 125) + Binary.signed t (n * 2 ^ 125) : ℤ) : ℚ) / 2 ^ 149 := by
    rw [Binary.exact_finite, Binary.exact_finite, ← add_div]
    push_cast
    rfl
  rw [hsum, ← hu]
  rw [hadd] at hr ⊢
  generalize Binary.signed s (m * 2 ^ 125) + Binary.signed t (n * 2 ^ 125) = total
    at hgrid hround hr ⊢
  have hfit := Binary.roundMagnitude_lt_of_isFinite (inRange_iff.mp hr).1
  rw [Binary.ofRatio_of_lt u hfit] at hr ⊢
  refine roundsOnce_encode hr ?_ ?_
  · -- below the least normal half the sum has ten bits and is exact
    intro hsmall
    obtain ⟨c, hc⟩ := Int.natCast_dvd.mp hgrid
    refine Format.single.roundMagnitude_of_fits ⟨c, 125, ?_, by rw [hc, Nat.mul_comm]⟩
    have hp : Format.single.precision = 24 := rfl
    rw [hp]
    omega
  · intro hlarge
    exact ⟨(Format.single.fits_two_pow 135).le_roundMagnitude Nat.one_pos
      ((Nat.mul_one _).trans_le hlarge), hround hlarge⟩

/-- A sum stays in range when the exact sum is. -/
theorem inRange_add {x y : Single} (hx : x.isFinite = true) (hy : y.isFinite = true)
    (h : |x.exact + y.exact| ≤ 65504) : inRange (x + y) = true := by
  obtain ⟨s, m, hm, rfl⟩ := Binary.exists_of_isFinite hx
  obtain ⟨t, n, hn, rfl⟩ := Binary.exists_of_isFinite hy
  obtain ⟨u, -, -, hadd⟩ := Binary.exists_finite_add s t hm hn
  obtain ⟨hlargest, -⟩ := decode_of_isNormal (h := largest) rfl
  have hpos : (0 : ℚ) < 2 ^ Format.single.quantum := by positivity
  have hquantum : Format.single.quantum = 149 := rfl
  have hmag : largest.normalMagnitude = 2047 * 2 ^ 154 := rfl
  have hbound : (65504 : ℚ) * 2 ^ Format.single.quantum = (largest.normalMagnitude : ℕ) := by
    rw [hmag, hquantum]
    norm_num
  rw [Binary.exact_finite, Binary.exact_finite, ← add_div, abs_div, abs_of_pos hpos,
    div_le_iff₀ hpos, hbound] at h
  -- the largest half is a number of the 32-bit format, so that rounding does not pass it
  have hnum : (Binary.signed s m + Binary.signed t n).natAbs ≤ largest.normalMagnitude * 1 := by
    rw [Nat.mul_one, ← Nat.cast_le (α := ℚ), Nat.cast_natAbs]
    exact_mod_cast h
  obtain ⟨r, hr, hround, hle⟩ := Binary.exists_ofRatio_of_le u hlargest Nat.one_pos hnum
  rw [hadd, hround, inRange_iff, Binary.abs_exact_finite, div_le_iff₀ hpos, hbound]
  exact ⟨rfl, Nat.cast_le.mpr hle⟩

end Half

namespace HalfVector

/-- Every element of the result is the exact one for the elements of `a` and `b`
at its place, rounded once. -/
structure RoundsElementsOnce (op : ℚ → ℚ → ℚ) (a b result : HalfVector) : Prop where
  /-- The operands have one length. -/
  length_eq : a.length = b.length
  /-- The result has that length too. -/
  length_result : result.length = a.length
  /-- Nothing is rounded twice. -/
  element : ∀ (i : ℕ) (x y h : Half), a[i]? = some x → b[i]? = some y → result[i]? = some h →
    Half.RoundsOnce (op x.decode.exact y.decode.exact) h

/-- Elementwise combinations encode the combined elements of equally long vectors. -/
theorem combine_eq_ok_iff {op : Single → Single → Single} {a b c : HalfVector} :
    combine op a b = .ok c ↔ a.length = b.length ∧
      ofSingles (List.zipWith (fun x y => op x.decode y.decode) a b) = .ok c := by
  unfold combine commonDimension
  by_cases h : a.length = b.length
  · rw [if_pos h, and_iff_right h]
    rfl
  · rw [if_neg h]
    refine ⟨fun hc => ?_, fun hc => absurd hc.1 h⟩
    cases hc

/-- What an elementwise operation on `a` and `b` comes to: it is not refused while
the exact results are in range, and a result is rounded once. -/
structure CombinesOnce (op : ℚ → ℚ → ℚ) (a b : HalfVector)
    (outcome : Except Fault HalfVector) : Prop where
  /-- Equally long vectors with exact results up to 65504 have a result. -/
  accepted : a.length = b.length →
    (∀ p ∈ a.zip b, |op p.1.decode.exact p.2.decode.exact| ≤ 65504) → ∃ c, outcome = .ok c
  /-- Every element of a result is rounded once. -/
  rounded : ∀ c, outcome = .ok c → RoundsElementsOnce op a b c

/-- A combination rounds once if its operation does on all encoded elements. -/
theorem roundsElementsOnce_of_combine {op : Single → Single → Single} {exactOp : ℚ → ℚ → ℚ}
    {a b c : HalfVector} (hop : ∀ x ∈ a, ∀ y ∈ b, Half.inRange (op x.decode y.decode) = true →
      Half.RoundsOnce (exactOp x.decode.exact y.decode.exact) (Half.encode (op x.decode y.decode)))
    (h : combine op a b = .ok c) : RoundsElementsOnce exactOp a b c := by
  obtain ⟨hlen, hc⟩ := combine_eq_ok_iff.mp h
  obtain ⟨hrange, rfl⟩ := ofSingles_eq_ok_iff.mp hc
  refine ⟨hlen, by rw [List.length_map, List.length_zipWith, hlen, Nat.min_self], ?_⟩
  intro i x y e hx hy he
  have hz : (List.zipWith (fun x y => op x.decode y.decode) a b)[i]? =
      some (op x.decode y.decode) := by
    rw [List.getElem?_zipWith, hx, hy]
  rw [List.getElem?_map, hz, Option.map_some] at he
  rw [← Option.some.inj he]
  exact hop x (List.mem_of_getElem? hx) y (List.mem_of_getElem? hy)
    (hrange _ (List.mem_of_getElem? hz))

/-- A combination of equally long vectors has a result if all elements are in range. -/
theorem exists_combine_eq_ok {op : Single → Single → Single} {a b : HalfVector}
    (hlen : a.length = b.length)
    (hop : ∀ p ∈ a.zip b, Half.inRange (op p.1.decode p.2.decode) = true) :
    ∃ c, combine op a b = .ok c := by
  have hzip : (a.zip b).map (fun p => op p.1.decode p.2.decode) =
      List.zipWith (fun x y => op x.decode y.decode) a b := by
    rw [List.map_zip_eq_zipWith]
    rfl
  refine ⟨_, combine_eq_ok_iff.mpr ⟨hlen, ofSingles_eq_ok_iff.mpr ⟨?_, rfl⟩⟩⟩
  rw [← hzip]
  exact List.forall_mem_map.mpr hop

section Sums

variable {a b : HalfVector} (ha : ∀ h ∈ a, h.isFinite = true) (hb : ∀ h ∈ b, h.isFinite = true)
include ha hb

/-- Sums of finite vectors are rounded once. -/
theorem combinesOnce_add : CombinesOnce (fun x y => x + y) a b (add a b) where
  accepted hlen hsums := exists_combine_eq_ok hlen fun p hp =>
    Half.inRange_add ((Half.isFinite_decode _).trans (ha _ (List.of_mem_zip hp).1))
      ((Half.isFinite_decode _).trans (hb _ (List.of_mem_zip hp).2)) (hsums p hp)
  rounded c hc := by
    refine roundsElementsOnce_of_combine (fun x hx y hy hr => ?_) hc
    exact Half.roundsOnce_encode_add (Half.isDecoded_decode (ha x hx))
      (Half.isDecoded_decode (hb y hy)) hr

/-- Differences of finite vectors are rounded once. -/
theorem combinesOnce_sub : CombinesOnce (fun x y => x - y) a b (sub a b) where
  accepted hlen hdifferences := exists_combine_eq_ok hlen fun p hp => by
    have hdifference := hdifferences p hp
    rw [sub_eq_add_neg, ← Binary.exact_neg] at hdifference
    refine Half.inRange_add ?_ ?_ hdifference
    · exact (Half.isFinite_decode _).trans (ha _ (List.of_mem_zip hp).1)
    · rw [Binary.isFinite_neg, Half.isFinite_decode]
      exact hb _ (List.of_mem_zip hp).2
  rounded c hc := by
    refine roundsElementsOnce_of_combine (fun x hx y hy hr => ?_) hc
    rw [sub_eq_add_neg, ← Binary.exact_neg]
    exact Half.roundsOnce_encode_add (Half.isDecoded_decode (ha x hx))
      (Half.isDecoded_decode (hb y hy)).neg hr

end Sums

/-- Sums and differences of finite vectors are rounded once: encoding the 32-bit
result gives what encoding the exact one would give. -/
theorem sums_rounded_once {a b : HalfVector} (ha : ∀ h ∈ a, h.isFinite = true)
    (hb : ∀ h ∈ b, h.isFinite = true) :
    CombinesOnce (fun x y => x + y) a b (add a b) ∧
      CombinesOnce (fun x y => x - y) a b (sub a b) :=
  ⟨combinesOnce_add ha hb, combinesOnce_sub ha hb⟩

/-- A sum that the 32-bit format cannot hold, and one halfway between two halves:
2050 and the largest subnormal half, 1025 and one half. -/
theorem sums_rounded_once_subnormal :
    add [⟨0x6801⟩, ⟨0x6401⟩] [⟨0x03ff⟩, ⟨0x3800⟩] = .ok [⟨0x6801⟩, ⟨0x6402⟩] ∧
      RoundsElementsOnce (fun x y => x + y) [⟨0x6801⟩, ⟨0x6401⟩] [⟨0x03ff⟩, ⟨0x3800⟩]
        [⟨0x6801⟩, ⟨0x6402⟩] ∧
      sub [⟨0x6801⟩, ⟨0x6401⟩] [⟨0x03ff⟩, ⟨0x3800⟩] = .ok [⟨0x6801⟩, ⟨0x6401⟩] ∧
      RoundsElementsOnce (fun x y => x - y) [⟨0x6801⟩, ⟨0x6401⟩] [⟨0x03ff⟩, ⟨0x3800⟩]
        [⟨0x6801⟩, ⟨0x6401⟩] := by
  have hadd : add [⟨0x6801⟩, ⟨0x6401⟩] [⟨0x03ff⟩, ⟨0x3800⟩] = .ok [⟨0x6801⟩, ⟨0x6402⟩] := by
    decide +kernel
  have hsub : sub [⟨0x6801⟩, ⟨0x6401⟩] [⟨0x03ff⟩, ⟨0x3800⟩] = .ok [⟨0x6801⟩, ⟨0x6401⟩] := by
    decide +kernel
  obtain ⟨hsum, hdifference⟩ := @sums_rounded_once [⟨0x6801⟩, ⟨0x6401⟩] [⟨0x03ff⟩, ⟨0x3800⟩]
    (by decide) (by decide)
  exact ⟨hadd, hsum.rounded _ hadd, hsub, hdifference.rounded _ hsub⟩

end HalfVector

end VectorDistance
