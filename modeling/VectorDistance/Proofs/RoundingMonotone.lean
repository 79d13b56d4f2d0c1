import Mathlib
import VectorDistance.Proofs.RegularVectors

/-!
# Rounding is monotone

A larger number is never rounded to a smaller one. Where two numbers keep the same
last bit, both roundings are rounded quotients by its weight, which keep their order;
where they do not, a power of two lies between them, which is a number of the format
and not passed from either side. The same holds for the eleven bits of a half, whose
rounding is off by at most one part in `2 ^ 11`.
-/

namespace VectorDistance

/-- A larger number has no smaller logarithm. -/
theorem log2_le_log2 {m n : ℕ} (h : m ≤ n) : m.log2 ≤ n.log2 := by
  rw [Nat.log2_eq_log_two, Nat.log2_eq_log_two]
  exact Nat.log_mono_right h

/-- Rounded quotients by one denominator keep their order. -/
theorem roundDiv_mono (tie : Tie) {num num' den : ℕ} (h : num ≤ num') :
    roundDiv tie num den ≤ roundDiv tie num' den := by
  have hquot : num / den ≤ num' / den := Nat.div_le_div_right h
  rcases Nat.lt_or_eq_of_le hquot with hlt | heq
  · calc roundDiv tie num den ≤ num / den + 1 := roundDiv_le tie num den
      _ ≤ num' / den := hlt
      _ ≤ roundDiv tie num' den := le_roundDiv tie num' den
  · -- with one quotient the remainders decide
    have hrem : num % den ≤ num' % den := by
      have hsplit := Nat.div_add_mod num den
      have hsplit' := Nat.div_add_mod num' den
      rw [heq] at hsplit
      omega
    unfold roundDiv
    rw [heq]
    dsimp only
    cases tie with
    | toEven => dsimp only; split_ifs <;> omega
    | away => dsimp only; split_ifs <;> omega

namespace Binary

/-- Every whole number is a natural number with a sign. -/
theorem exists_signed (i : ℤ) : ∃ s m, i = signed s m := by
  rcases i.eq_nat_or_neg with ⟨m, rfl | rfl⟩
  · exact ⟨false, m, rfl⟩
  · exact ⟨true, m, rfl⟩

/-- What is monotone on sizes and keeps zero is monotone under their signs. -/
theorem signed_map_mono {f : ℕ → ℕ} (hf : Monotone f) (hzero : f 0 = 0) {s t : Bool} {m n : ℕ}
    (h : signed s m ≤ signed t n) : signed s (f m) ≤ signed t (f n) := by
  cases s with
  | false =>
    cases t with
    | false => exact Int.ofNat_le.mpr (hf (Int.ofNat_le.mp h))
    | true =>
      -- only zeros have a size that is also at most zero
      change (m : ℤ) ≤ -n at h
      obtain rfl : m = 0 := by omega
      obtain rfl : n = 0 := by omega
      rw [hzero]
      exact le_rfl
  | true =>
    cases t with
    | false =>
      change -(f m : ℤ) ≤ f n
      omega
    | true =>
      have hsizes : n ≤ m := Int.ofNat_le.mp (Int.le_of_neg_le_neg h)
      exact Int.neg_le_neg (Int.ofNat_le.mpr (hf hsizes))

end Binary

namespace Format

variable (F : Format)

/-- A larger magnitude has no fewer excess bits. -/
theorem excess_mono {m n : ℕ} (h : m ≤ n) : F.excess m ≤ F.excess n := by
  have hlog : m.log2 ≤ n.log2 := log2_le_log2 h
  unfold excess
  omega

/-- A larger quotient is not rounded to a smaller magnitude. -/
theorem roundMagnitude_mono {num num' : ℕ} (den : ℕ) (h : num ≤ num') :
    F.roundMagnitude num den ≤ F.roundMagnitude num' den := by
  have hquot : num / den ≤ num' / den := Nat.div_le_div_right h
  rcases Nat.lt_or_eq_of_le (F.excess_mono hquot) with hlt | heq
  · -- the larger quotient lies beyond the power of two where its binade begins
    have hbelow : num / den < 2 ^ (F.precision - 1 + F.excess (num' / den)) := by
      have hp := F.precision_pos
      refine (F.lt_two_pow_excess _).trans_le (Nat.pow_le_pow_right (by omega) ?_)
      omega
    have habove := F.two_pow_le_of_excess_pos (Nat.zero_lt_of_lt hlt)
    calc F.roundMagnitude num den ≤ 2 ^ (F.precision - 1 + F.excess (num' / den)) :=
          F.roundMagnitude_le_two_pow (Nat.zero_lt_of_lt hlt) hbelow
      _ ≤ F.roundMagnitude num' den := F.two_pow_le_roundMagnitude habove
  · rw [roundMagnitude, roundMagnitude, heq]
    exact Nat.mul_le_mul_right _ (roundDiv_mono .toEven h)

end Format

namespace Half

/-- A larger magnitude is not rounded to a smaller one of eleven bits. -/
theorem roundedMagnitude_mono {m n : ℕ} (hm : 2 ^ 135 ≤ m) (h : m ≤ n) :
    roundedMagnitude m ≤ roundedMagnitude n := by
  have hn := hm.trans h
  have hlog : m.log2 ≤ n.log2 := log2_le_log2 h
  obtain ⟨-, -, hshift⟩ := significand_bounds hm
  unfold roundedMagnitude
  rcases Nat.lt_or_eq_of_le hlog with hlt | heq
  · -- the significand of the smaller one is full at most, that of the larger one at least
    have hstep : 2048 * 2 ^ (m.log2 - 10) ≤ 1024 * 2 ^ (n.log2 - 10) := by
      calc 2048 * 2 ^ (m.log2 - 10) = 1024 * 2 ^ (m.log2 - 10 + 1) := by ring
        _ ≤ 1024 * 2 ^ (n.log2 - 10) :=
          Nat.mul_le_mul_left _ (Nat.pow_le_pow_right (by omega) (by omega))
    calc roundDiv .away m (2 ^ (m.log2 - 10)) * 2 ^ (m.log2 - 10)
        ≤ 2048 * 2 ^ (m.log2 - 10) := Nat.mul_le_mul_right _ (roundDiv_significand_bounds hm).2
      _ ≤ 1024 * 2 ^ (n.log2 - 10) := hstep
      _ ≤ _ := Nat.mul_le_mul_right _ (roundDiv_significand_bounds hn).1
  · rw [heq]
    exact Nat.mul_le_mul_right _ (roundDiv_mono .away h)

/-- Eleven bits are off by at most half of the last one. -/
theorem abs_roundedMagnitude_sub_le_half (m : ℕ) :
    |(roundedMagnitude m : ℚ) - m| ≤ 2 ^ (m.log2 - 10) / 2 := by
  have hbelow := num_le_roundDiv .away m (Nat.two_pow_pos (m.log2 - 10))
  have habove := roundDiv_mul_le .away m (2 ^ (m.log2 - 10))
  rw [← roundedMagnitude] at hbelow habove
  have hbelow' : (2 * m : ℚ) ≤ 2 * roundedMagnitude m + 2 ^ (m.log2 - 10) := by
    exact_mod_cast hbelow
  have habove' : (2 * roundedMagnitude m : ℚ) ≤ 2 * m + 2 ^ (m.log2 - 10) := by
    exact_mod_cast habove
  rw [abs_le]
  constructor
  · linarith
  · linarith

/-- That is at most one part in `2 ^ 11`. -/
theorem abs_roundedMagnitude_sub_le {m : ℕ} (hm : 2 ^ 135 ≤ m) :
    |(roundedMagnitude m : ℚ) - m| ≤ m / 2 ^ 11 := by
  obtain ⟨hlo, -, -⟩ := significand_bounds hm
  have hlo' : (1024 * 2 ^ (m.log2 - 10) : ℚ) ≤ m := by exact_mod_cast hlo
  have hhalf := abs_roundedMagnitude_sub_le_half m
  linarith

end Half

end VectorDistance
