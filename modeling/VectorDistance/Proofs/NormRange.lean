import Mathlib
import VectorDistance.Proofs.ExactSums
import VectorDistance.Proofs.FiniteResults

/-!
# The range of a norm

A running sum stops growing once it is so large that its terms are less than half of
its last bit. Squares of finite halves are below `2 ^ 32`, so that their sum, however
many they are, ends at `2 ^ 56` at most, and the root of that is a number of the
format: the norm of a finite vector is finite, no larger than `2 ^ 28`, and no smaller
than any element.
-/

namespace VectorDistance

namespace Binary

variable {F : Format}

/-! ## Sums that stop growing -/

/-- A term of less than half of the last bit does not carry a sum past a power of two. -/
theorem abs_add_le_of_small {e : ℕ} (he : 0 < e) (hcap : F.precision - 1 + e < F.capacity)
    {x y : Binary F} (hx : x.isFinite = true) (hy : y.isFinite = true)
    (hxs : |x.exact| ≤ 2 ^ (F.precision - 1 + e) / 2 ^ F.quantum)
    (hys : 2 * |y.exact| < 2 ^ e / 2 ^ F.quantum) :
    (x + y).isFinite = true ∧ |(x + y).exact| ≤ 2 ^ (F.precision - 1 + e) / 2 ^ F.quantum := by
  obtain ⟨s, m, hm, rfl⟩ := exists_of_isFinite hx
  obtain ⟨t, n, hn, rfl⟩ := exists_of_isFinite hy
  have hq : (0 : ℚ) < 2 ^ F.quantum := by positivity
  rw [abs_exact_finite, div_le_div_iff_of_pos_right hq] at hxs
  rw [abs_exact_finite, ← mul_div_assoc, div_lt_div_iff_of_pos_right hq] at hys
  have hm' : m ≤ 2 ^ (F.precision - 1 + e) := by exact_mod_cast hxs
  have hn' : 2 * n < 2 ^ e := by exact_mod_cast hys
  obtain ⟨u, -, -, hadd⟩ := exists_finite_add s t hm hn
  have htotal : (signed s m + signed t n).natAbs ≤ m + n := by
    have h := Int.natAbs_add_le (signed s m) (signed t n)
    rwa [natAbs_signed, natAbs_signed] at h
  -- past the power of two the last bit weighs `2 ^ e`, and the sum is beyond by less than half
  have hround : F.roundMagnitude (signed s m + signed t n).natAbs 1 ≤
      2 ^ (F.precision - 1) * 2 ^ e := by
    have hp : F.precision - 1 < F.precision :=
      Nat.sub_lt (Nat.zero_lt_of_lt F.precision_pos) one_pos
    refine F.roundMagnitude_le_of_lt Nat.one_pos le_rfl
      (Nat.pow_lt_pow_right (by omega) hp) he ?_
    rw [pow_add] at hm'
    have hsplit : (2 * 2 ^ (F.precision - 1) + 1) * (1 * 2 ^ e) =
        2 * (2 ^ (F.precision - 1) * 2 ^ e) + 2 ^ e := by ring
    omega
  rw [← pow_add] at hround
  have hlt := hround.trans_lt (Nat.pow_lt_pow_right (by omega) hcap)
  rw [hadd, ofRatio_of_lt u hlt, abs_exact_finite, div_le_div_iff_of_pos_right hq]
  exact ⟨rfl, by exact_mod_cast hround⟩

/-- So do not any number of such terms. -/
theorem abs_foldl_add_le {e : ℕ} (he : 0 < e) (hcap : F.precision - 1 + e < F.capacity)
    {terms : List (Binary F)} (hterms : ∀ t ∈ terms, t.isFinite = true ∧
      2 * |t.exact| < 2 ^ e / 2 ^ F.quantum) {start : Binary F} (hstart : start.isFinite = true)
    (hle : |start.exact| ≤ 2 ^ (F.precision - 1 + e) / 2 ^ F.quantum) :
    (terms.foldl (· + ·) start).isFinite = true ∧
      |(terms.foldl (· + ·) start).exact| ≤ 2 ^ (F.precision - 1 + e) / 2 ^ F.quantum := by
  induction terms generalizing start with
  | nil => exact ⟨hstart, hle⟩
  | cons t terms ih =>
    obtain ⟨⟨ht, hsmall⟩, hrest⟩ := List.forall_mem_cons.mp hterms
    obtain ⟨hsum, hsumle⟩ := abs_add_le_of_small he hcap hstart ht hle hsmall
    exact ih hrest hsum hsumle

/-! ## Roots -/

/-- The quarters of a root are no more than those of a larger root. -/
theorem rootQuarters_le_four_mul {n r : ℕ} (h : n ≤ r * r) : rootQuarters n ≤ 4 * r := by
  have hfour : 4 * r = 2 * (2 * r) := Nat.mul_assoc 2 2 r
  rw [hfour, rootQuarters_le_two_mul_iff, Nat.mul_mul_mul_comm]
  exact Nat.mul_le_mul_left 4 h

/-- The root of a number up to the square of a number of the format is no more than that. -/
theorem exists_sqrt_of_le {m r : ℕ} {hm : F.Represents m} (hr : F.Represents r)
    (h : m * 2 ^ F.quantum ≤ r * r) :
    ∃ n hn, (finite false m hm).sqrt = finite false n hn ∧ n ≤ r := by
  simp only [sqrt, Bool.false_eq_true, if_false]
  split
  · next hz => exact ⟨m, hm, rfl, hz ▸ Nat.zero_le r⟩
  · exact exists_ofRatio_of_le false hr (by omega)
      ((rootQuarters_le_four_mul h).trans_eq (Nat.mul_comm 4 r))

end Binary

namespace HalfVector

open Binary

variable {v : HalfVector} (hv : ∀ h ∈ v, h.isFinite = true)
include hv

/-- The squared norm of a finite vector is finite and at most `2 ^ 56`. -/
theorem squaredNorm_le : (squaredNorm v).isFinite = true ∧ |(squaredNorm v).exact| ≤ 2 ^ 56 := by
  have hterms : ∀ t ∈ v.map fun h => h.decode.square, t.isFinite = true ∧
      2 * |t.exact| < 2 ^ 182 / 2 ^ Format.single.quantum := by
    intro t ht
    obtain ⟨h, hh, rfl⟩ := List.mem_map.mp ht
    have hpair : HalfKernels.FinitePair (h, h) := ⟨hv h hh, hv h hh⟩
    have hlt := Half.abs_exact_decode_lt (hv h hh)
    have hsq : |h.decode.square.exact| < 2 ^ 16 * 2 ^ 16 := by
      rw [square, HalfKernels.exact_mul_decode (hv h hh) (hv h hh), abs_mul]
      exact mul_lt_mul'' hlt hlt (abs_nonneg _) (abs_nonneg _)
    refine ⟨(HalfKernels.product_roundsSafely hpair).2.isFinite, ?_⟩
    norm_num [Format.quantum_single] at hsq ⊢
    linarith
  have hstart : |(zero true : Single).exact| ≤
      2 ^ (Format.single.precision - 1 + 182) / 2 ^ Format.single.quantum := by
    rw [exact_zero, abs_zero]
    positivity
  -- half of the last bit at `2 ^ 56` weighs `2 ^ 32`, which no square reaches
  obtain ⟨hfin, hle⟩ := abs_foldl_add_le (by omega) (by decide) hterms rfl hstart
  refine ⟨hfin, hle.trans_eq ?_⟩
  have hp : Format.single.precision - 1 + 182 = 56 + Format.single.quantum := rfl
  rw [hp, pow_add, mul_div_cancel_right₀ _ (by positivity)]

/-- Unless a finite vector holds nothing but zeros, its squared norm is a positive number
of at most `2 ^ 56`. -/
theorem exists_squaredNorm_eq (hne : ¬v.IsZeros) :
    ∃ m hm, squaredNorm v = .finite false m hm ∧ 0 < m ∧
      m ≤ 2 ^ 56 * 2 ^ Format.single.quantum := by
  obtain ⟨hfin, hle⟩ := squaredNorm_le hv
  obtain ⟨h, hh, -⟩ : ∃ h ∈ v, ¬h.IsZero := by simpa [IsZeros] using hne
  have hsquares := atLeast_squares fun h hh => Half.isNaN_of_isFinite (hv h hh)
  have hmem : h.decode.square ∈ v.map fun h => h.decode.square := List.mem_map_of_mem hh
  have hsign : (squaredNorm v).isNegative = false :=
    (AtLeast.foldl_negZero hsquares hmem (hsquares _ hmem)).isNegative
  have hzero : ¬(squaredNorm v).isZero = true := mt isZero_squaredNorm_iff.mp hne
  obtain ⟨s, m, hm, hsum⟩ := exists_of_isFinite hfin
  rw [hsum] at hle hsign hzero
  obtain rfl : s = false := hsign
  refine ⟨m, hm, hsum, Nat.pos_of_ne_zero (mt (isZero_finite false hm).mpr hzero), ?_⟩
  rw [abs_exact_finite, div_le_iff₀ (by positivity)] at hle
  exact_mod_cast hle

/-- Its norm is a positive number of at most `2 ^ 28`. -/
theorem exists_norm_eq (hne : ¬v.IsZeros) :
    ∃ n hn, norm v = .finite false n hn ∧ 0 < n ∧ n ≤ 2 ^ 28 * 2 ^ Format.double.quantum := by
  obtain ⟨m, hm, hsum, -, hle⟩ := exists_squaredNorm_eq hv hne
  have hrep : Format.double.Represents (2 ^ 28 * 2 ^ Format.double.quantum) := by
    refine Format.represents_of_dvd (by decide) (Nat.dvd_mul_left _ _) ?_
    rw [pow_add]
    exact Nat.mul_le_mul_right _ (Nat.pow_le_pow_right (by omega) (by decide))
  have hgrids : 2 ^ Format.single.quantum * 2 ^ (Format.double.quantum - Format.single.quantum) =
      2 ^ Format.double.quantum := by
    rw [← pow_add, Nat.add_sub_cancel' Format.single_embedsIn_double.quantum_le]
  have hsquare : m * 2 ^ (Format.double.quantum - Format.single.quantum) *
      2 ^ Format.double.quantum ≤
        2 ^ 28 * 2 ^ Format.double.quantum * (2 ^ 28 * 2 ^ Format.double.quantum) := by
    calc m * 2 ^ (Format.double.quantum - Format.single.quantum) * 2 ^ Format.double.quantum
        ≤ 2 ^ 56 * 2 ^ Format.single.quantum *
            2 ^ (Format.double.quantum - Format.single.quantum) * 2 ^ Format.double.quantum :=
          Nat.mul_le_mul_right _ (Nat.mul_le_mul_right _ hle)
      _ = 2 ^ 28 * 2 ^ Format.double.quantum * (2 ^ 28 * 2 ^ Format.double.quantum) := by
          rw [Nat.mul_assoc (2 ^ 56), hgrids]
          generalize 2 ^ Format.double.quantum = one
          ring
  obtain ⟨n, hn, hroot, hnle⟩ := exists_sqrt_of_le hrep hsquare
  have hnorm : norm v = .finite false n hn := by rw [norm, hsum]; exact hroot
  have hzero : ¬(norm v).isZero = true := mt isZero_norm_iff.mp hne
  rw [hnorm, isZero_finite] at hzero
  exact ⟨n, hn, hnorm, Nat.pos_of_ne_zero hzero, hnle⟩

/-- As a value, the norm is positive and at most `2 ^ 28`. -/
theorem norm_bounds (hne : ¬v.IsZeros) :
    (norm v).isFinite = true ∧ 0 < (norm v).exact ∧ (norm v).exact ≤ 2 ^ 28 := by
  obtain ⟨n, hn, hnorm, hpos, hle⟩ := exists_norm_eq hv hne
  have hq : (0 : ℚ) < 2 ^ Format.double.quantum := by positivity
  have hn0 : (0 : ℚ) < n := Nat.cast_pos.mpr hpos
  rw [hnorm, exact_finite_false, div_le_iff₀ hq]
  exact ⟨rfl, div_pos hn0 hq, by exact_mod_cast hle⟩

/-- No element is larger than the norm. -/
theorem abs_decode_le_norm {h : Half} (hh : h ∈ v) (hfin : (norm v).isFinite = true) :
    |h.decode.exact| ≤ (norm v).exact := by
  obtain ⟨s, m, hm, hd, hr⟩ := Half.exists_decode_of_isFinite (hv h hh)
  have hle := atLeast_norm hv hh hd hr
  have hexact : |h.decode.exact| =
      (m * 2 ^ 125 * 2 ^ (Format.double.quantum - Format.single.quantum) : ℕ) /
        2 ^ Format.double.quantum := by
    rw [← exact_toDouble, hd, toDouble, widen, abs_exact_finite]
  rw [hexact]
  cases hnorm : norm v with
  | nan => rw [hnorm] at hfin; cases hfin
  | infinite => rw [hnorm] at hfin; cases hfin
  | finite t n hn =>
    rw [hnorm] at hle
    cases hle with
    | finite _ hmn =>
      rw [exact_finite_false]
      exact div_le_div_of_nonneg_right (Nat.cast_le.mpr hmn) (by positivity)

end HalfVector

end VectorDistance
