import Mathlib
import VectorDistance.Proofs.ExactValue

/-!
# What one rounding does to a value

The rounded magnitude of a format is off by at most half of the last bit it
keeps, keeps every magnitude that fits and stays on every grid it starts from.
Above the least normal magnitude the error is therefore at most one roundoff of
the exact result, and a sum of two numbers of the format obeys this bound even
below, because it is a whole number of quanta. `Approximates` is the form in
which sums, products, quotients and roots hand their error to later arguments.
-/

namespace VectorDistance

/-- A common factor of numerator and denominator is immaterial. -/
theorem roundDiv_mul_right (tie : Tie) (num den : ℕ) {c : ℕ} (hc : 0 < c) :
    roundDiv tie (num * c) (den * c) = roundDiv tie num den := by
  have hd : num * c / (den * c) = num / den := Nat.mul_div_mul_right num den hc
  have hm : num * c % (den * c) = num % den * c := Nat.mul_mod_mul_right c num den
  have hl : 2 * (num % den * c) < den * c ↔ 2 * (num % den) < den := by
    rw [← Nat.mul_assoc]
    exact Nat.mul_lt_mul_right hc
  have hg : den * c < 2 * (num % den * c) ↔ den < 2 * (num % den) := by
    rw [← Nat.mul_assoc]
    exact Nat.mul_lt_mul_right hc
  simp only [roundDiv, hd, hm, hl, hg]

/-- A whole quotient is not rounded. -/
theorem roundDiv_of_dvd (tie : Tie) {num den : ℕ} (hden : 0 < den) (h : den ∣ num) :
    roundDiv tie num den * den = num := by
  have hm : num % den = 0 := Nat.mod_eq_zero_of_dvd h
  simp only [roundDiv, hm, Nat.mul_zero, if_pos hden]
  exact Nat.div_mul_cancel h

namespace Format

variable (F : Format)

/-- Largest relative error of a rounded normal value. -/
def roundoff : ℚ := 1 / 2 ^ F.precision

/-- The least value with a full significand. -/
def leastNormal : ℚ := 2 ^ (F.precision - 1) / 2 ^ F.quantum

/-- Half the power of two just beyond the finite values; whatever lies below it
is rounded to a finite value. -/
def reach : ℚ := 2 ^ (F.capacity - 1) / 2 ^ F.quantum

/-- No underflow: the exact result is zero or at least the least normal value. -/
def ClearsUnderflow (q : ℚ) : Prop := q = 0 ∨ F.leastNormal ≤ |q|

/-- The roundoff is positive. -/
theorem roundoff_pos : 0 < F.roundoff := by
  unfold roundoff
  positivity

/-- The roundoff is less than one. -/
theorem roundoff_lt_one : F.roundoff < 1 := by
  have hp := F.precision_pos
  rw [roundoff, div_lt_one (by positivity)]
  exact one_lt_pow₀ (by norm_num) (by omega)

/-- A magnitude with excess bits has all bits of the precision before them. -/
theorem two_pow_le_of_excess_pos {m : ℕ} (h : 0 < F.excess m) :
    2 ^ (F.precision - 1 + F.excess m) ≤ m := by
  have hp := F.precision_pos
  have hm : m ≠ 0 := by
    rintro rfl
    simp only [excess, Nat.log2_zero] at h
    omega
  have he : F.precision - 1 + F.excess m = m.log2 := by
    unfold excess at h ⊢
    omega
  rw [he]
  exact Nat.log2_self_le hm

/-- The last bit kept weighs one quantum or little against the magnitude. -/
theorem two_pow_excess_le (m : ℕ) :
    2 ^ F.excess m = 1 ∨ 2 ^ (F.precision - 1) * 2 ^ F.excess m ≤ m := by
  rcases Nat.eq_zero_or_pos (F.excess m) with h | h
  · exact Or.inl (by rw [h, pow_zero])
  · rw [← pow_add]
    exact Or.inr (F.two_pow_le_of_excess_pos h)

/-- A rounded magnitude is off by at most half of the last bit that it keeps. -/
theorem abs_roundMagnitude_sub_le (num : ℕ) {den : ℕ} (hden : 0 < den) :
    |(F.roundMagnitude num den : ℚ) - num / den| ≤ 2 ^ F.excess (num / den) / 2 := by
  have hw : 0 < den * 2 ^ F.excess (num / den) := by positivity
  have hlo := num_le_roundDiv .toEven num hw
  have hhi := roundDiv_mul_le .toEven num (den * 2 ^ F.excess (num / den))
  have hd : (0 : ℚ) < den := by exact_mod_cast hden
  have hlo' : (2 * num : ℚ) ≤ 2 * (F.roundMagnitude num den * den) +
      den * 2 ^ F.excess (num / den) := by
    have h : 2 * num ≤ 2 * (F.roundMagnitude num den * den) +
        den * 2 ^ F.excess (num / den) := by
      unfold roundMagnitude
      dsimp only
      linarith [hlo]
    exact_mod_cast h
  have hhi' : (2 * (F.roundMagnitude num den * den) : ℚ) ≤
      2 * num + den * 2 ^ F.excess (num / den) := by
    have h : 2 * (F.roundMagnitude num den * den) ≤
        2 * num + den * 2 ^ F.excess (num / den) := by
      unfold roundMagnitude
      dsimp only
      linarith [hhi]
    exact_mod_cast h
  rw [abs_le]
  constructor
  · rw [← sub_nonneg]
    have : (F.roundMagnitude num den : ℚ) - num / den - -(2 ^ F.excess (num / den) / 2) =
        (2 * (F.roundMagnitude num den * den) + den * 2 ^ F.excess (num / den) - 2 * num) /
          (2 * den) := by
      field_simp
      ring
    rw [this]
    exact div_nonneg (by linarith) (by positivity)
  · rw [← sub_nonneg]
    have : 2 ^ F.excess (num / den) / 2 - ((F.roundMagnitude num den : ℚ) - num / den) =
        (2 * num + den * 2 ^ F.excess (num / den) - 2 * (F.roundMagnitude num den * den)) /
          (2 * den) := by
      field_simp
      ring
    rw [this]
    exact div_nonneg (by linarith) (by positivity)

/-- Halving the weight of the last bit gives one roundoff of the magnitude. -/
theorem half_two_pow_excess_le {m : ℕ} {q : ℚ} (hm : 2 ^ (F.precision - 1) * 2 ^ F.excess m ≤ m)
    (hq : (m : ℚ) ≤ q) : 2 ^ F.excess m / 2 ≤ q * F.roundoff := by
  have hp : (2 : ℚ) ^ F.precision = 2 * 2 ^ (F.precision - 1) := by
    rw [← pow_succ']
    congr 1
    have := F.precision_pos
    omega
  have hc : (2 : ℚ) ^ (F.precision - 1) * 2 ^ F.excess m ≤ q := by
    refine le_trans ?_ hq
    exact_mod_cast hm
  have hpos : (0 : ℚ) < 2 ^ (F.precision - 1) := by positivity
  rw [roundoff, hp, mul_one_div, le_div_iff₀ (by positivity)]
  linarith

/-- From the least normal magnitude on, rounding costs at most one roundoff. -/
theorem roundMagnitude_normal (num : ℕ) {den : ℕ} (hden : 0 < den)
    (h : 2 ^ (F.precision - 1) ≤ num / den) :
    |(F.roundMagnitude num den : ℚ) - num / den| ≤ (num / den : ℚ) * F.roundoff := by
  refine (F.abs_roundMagnitude_sub_le num hden).trans ?_
  refine F.half_two_pow_excess_le ?_ Nat.cast_div_le
  rcases F.two_pow_excess_le (num / den) with h1 | h1
  · rw [h1, Nat.mul_one]
    exact h
  · exact h1

/-- A common factor of numerator and denominator does not change the rounding. -/
theorem roundMagnitude_mul_right (num den : ℕ) {c : ℕ} (hc : 0 < c) :
    F.roundMagnitude (num * c) (den * c) = F.roundMagnitude num den := by
  simp only [roundMagnitude, Nat.mul_div_mul_right num den hc, Nat.mul_right_comm den c,
    roundDiv_mul_right _ _ _ hc]

/-- A magnitude whose excess bits are zero is kept. -/
theorem roundMagnitude_of_dvd {m : ℕ} (h : 2 ^ F.excess m ∣ m) : F.roundMagnitude m 1 = m := by
  simp only [roundMagnitude, Nat.div_one, Nat.one_mul]
  exact roundDiv_of_dvd _ (Nat.two_pow_pos _) h

/-- A magnitude whose significant bits fit is kept. -/
theorem roundMagnitude_of_fits {m : ℕ} (h : F.Fits m) : F.roundMagnitude m 1 = m := by
  obtain ⟨significand, shift, hs, rfl⟩ := h
  refine F.roundMagnitude_of_dvd ((Nat.pow_dvd_pow 2 ?_).trans (Nat.dvd_mul_left _ _))
  by_cases hz : significand = 0
  · have hp := F.precision_pos
    rw [hz, Nat.zero_mul, excess, Nat.log2_zero]
    omega
  · have hlt : significand * 2 ^ shift < 2 ^ (F.precision + shift) := by
      rw [pow_add]
      exact Nat.mul_lt_mul_of_pos_right hs (Nat.two_pow_pos _)
    have hne : significand * 2 ^ shift ≠ 0 := Nat.mul_ne_zero hz (Nat.two_pow_pos _).ne'
    have hlog := (Nat.log2_lt hne).mpr hlt
    unfold excess
    omega

/-- Zero is kept. -/
theorem roundMagnitude_zero {den : ℕ} (hden : 0 < den) : F.roundMagnitude 0 den = 0 := by
  have h := F.roundMagnitude_mul_right 0 1 hden
  rw [Nat.zero_mul, Nat.one_mul] at h
  rw [h]
  exact F.roundMagnitude_of_dvd (Nat.dvd_zero _)

/-- A whole number of quanta is rounded with at most one roundoff, however small. -/
theorem roundMagnitude_whole (m : ℕ) :
    |(F.roundMagnitude m 1 : ℚ) - m| ≤ (m : ℚ) * F.roundoff := by
  rcases F.two_pow_excess_le m with h | h
  · have he : F.roundMagnitude m 1 = m := F.roundMagnitude_of_dvd (by rw [h]; exact one_dvd m)
    rw [he, sub_self, abs_zero]
    exact mul_nonneg (Nat.cast_nonneg m) F.roundoff_pos.le
  · have hr := F.abs_roundMagnitude_sub_le m Nat.one_pos
    simp only [Nat.div_one, Nat.cast_one, div_one] at hr
    exact hr.trans (F.half_two_pow_excess_le h le_rfl)

/-- Rounding stays on every grid of a power of two. -/
theorem dvd_roundMagnitude {e m : ℕ} (h : 2 ^ e ∣ m) : 2 ^ e ∣ F.roundMagnitude m 1 := by
  rcases Nat.le_total (F.excess m) e with he | he
  · rw [F.roundMagnitude_of_dvd ((Nat.pow_dvd_pow 2 he).trans h)]
    exact h
  · refine (Nat.pow_dvd_pow 2 he).trans ?_
    simp only [roundMagnitude, Nat.div_one]
    exact Nat.dvd_mul_left _ _

/-- A quotient with room above it is rounded to a finite magnitude. -/
theorem roundMagnitude_lt {num den : ℕ} (h : num / den < 2 ^ (F.capacity - 1)) :
    F.roundMagnitude num den < 2 ^ F.capacity := by
  have hp := F.precision_pos
  have hc := F.precision_le_capacity
  have hcap : 2 ^ F.capacity = 2 * 2 ^ (F.capacity - 1) := by
    rw [← pow_succ']
    congr 1
    omega
  have hr : F.roundMagnitude num den ≤ num / den + 2 ^ F.excess (num / den) := by
    have h1 := roundDiv_le .toEven num (den * 2 ^ F.excess (num / den))
    rw [← Nat.div_div_eq_div_mul] at h1
    calc F.roundMagnitude num den
        ≤ (num / den / 2 ^ F.excess (num / den) + 1) * 2 ^ F.excess (num / den) :=
          Nat.mul_le_mul_right _ h1
      _ = num / den / 2 ^ F.excess (num / den) * 2 ^ F.excess (num / den) +
          2 ^ F.excess (num / den) := by ring
      _ ≤ num / den + 2 ^ F.excess (num / den) :=
          Nat.add_le_add_right (Nat.div_mul_le_self _ _) _
  have hw : 2 ^ F.excess (num / den) ≤ 2 ^ (F.capacity - 1) := by
    rcases F.two_pow_excess_le (num / den) with h1 | h1
    · rw [h1]
      exact Nat.one_le_two_pow
    · refine le_trans ?_ (h1.trans h.le)
      exact Nat.le_mul_of_pos_left _ (Nat.two_pow_pos _)
  omega

end Format

namespace Binary

variable {F : Format}

/-- A finite number within one roundoff of an exact result. -/
def Approximates (x : Binary F) (q : ℚ) : Prop :=
  x.isFinite = true ∧ |x.exact - q| ≤ |q| * F.roundoff

/-- The difference of two natural numbers under one sign. -/
theorem abs_signed_sub (s : Bool) (r : ℕ) (v : ℚ) :
    |((signed s r : ℤ) : ℚ) - (if s then -v else v)| = |(r : ℚ) - v| := by
  cases s with
  | false => simp [signed]
  | true => simp only [signed, if_true]; push_cast; rw [neg_sub_neg, abs_sub_comm]

/-- A rounded magnitude below the capacity belongs to the format. -/
theorem represents_roundMagnitude {num den : ℕ} (h : F.roundMagnitude num den < 2 ^ F.capacity) :
    F.Represents (F.roundMagnitude num den) :=
  ⟨F.fits_roundMagnitude num den, h⟩

/-- A quotient whose rounded magnitude stays below the capacity is finite. -/
theorem ofRatio_of_lt {num den : ℕ} (s : Bool) (h : F.roundMagnitude num den < 2 ^ F.capacity) :
    (ofRatio s num den : Binary F) = finite s _ (represents_roundMagnitude h) :=
  dif_pos h

/-- A quotient that stays finite is rounded to a magnitude below the capacity. -/
theorem roundMagnitude_lt_of_isFinite {s : Bool} {num den : ℕ}
    (h : (ofRatio s num den : Binary F).isFinite = true) :
    F.roundMagnitude num den < 2 ^ F.capacity := by
  by_contra hge
  rw [ofRatio, dif_neg hge] at h
  cases h

/-- The quanta of a quotient that stays finite. -/
theorem quanta_ofRatio {s : Bool} {num den : ℕ}
    (h : (ofRatio s num den : Binary F).isFinite = true) :
    (ofRatio s num den : Binary F).quanta = some (signed s (F.roundMagnitude num den)) := by
  rw [ofRatio_of_lt s (roundMagnitude_lt_of_isFinite h)]
  rfl

/-- A common factor of a quotient of quanta is immaterial. -/
theorem ofRatio_mul_right (s : Bool) (num den : ℕ) {c : ℕ} (hc : 0 < c) :
    (ofRatio s (num * c) (den * c) : Binary F) = ofRatio s num den := by
  simp only [ofRatio, F.roundMagnitude_mul_right num den hc]

/-- A magnitude of the format is kept. -/
theorem ofRatio_of_represents (s : Bool) {m : ℕ} (h : F.Represents m) :
    (ofRatio s m 1 : Binary F) = finite s m h := by
  have hround := F.roundMagnitude_of_fits h.1
  rw [ofRatio_of_lt s (hround.symm ▸ h.2)]
  exact finite_congr hround

/-- A quotient below the reach of the format becomes a finite number, as far
from the exact result as its rounded magnitude is. -/
theorem ofRatio_approximates {num den : ℕ} (s : Bool)
    (hlt : num / den < 2 ^ (F.capacity - 1))
    (hr : |(F.roundMagnitude num den : ℚ) - num / den| ≤ (num / den : ℚ) * F.roundoff) :
    (ofRatio s num den : Binary F).Approximates
      ((if s then -(num / den : ℚ) else num / den) / 2 ^ F.quantum) := by
  have hq : (0 : ℚ) < 2 ^ F.quantum := by positivity
  have hnn : (0 : ℚ) ≤ num / den := by positivity
  have hf : F.roundMagnitude num den < 2 ^ F.capacity := F.roundMagnitude_lt hlt
  have hv : |(if s then -(num / den : ℚ) else num / den)| = (num / den : ℚ) := by
    cases s <;> simp [abs_of_nonneg hnn]
  rw [ofRatio_of_lt s hf]
  refine ⟨rfl, ?_⟩
  rw [exact_finite, ← sub_div, abs_div, abs_div, abs_of_pos hq, abs_signed_sub, hv,
    div_mul_eq_mul_div]
  exact div_le_div_of_nonneg_right hr hq.le

/-- A signed natural number is the signed value of its magnitude. -/
theorem signed_natAbs {total : ℤ} {s : Bool} (hs : total ≠ 0 → s = decide (total < 0)) :
    (if s then -(total.natAbs : ℚ) else total.natAbs) = total := by
  by_cases hz : total = 0
  · subst hz
    cases s <;> simp
  · rw [hs hz]
    by_cases hn : total < 0
    · have h : ((total.natAbs : ℤ) : ℚ) = ((-total : ℤ) : ℚ) := by
        rw [Int.ofNat_natAbs_of_nonpos hn.le]
      push_cast at h
      simp [hn, h]
    · have h : ((total.natAbs : ℤ) : ℚ) = (total : ℚ) := by
        rw [Int.natAbs_of_nonneg (not_lt.mp hn)]
      simpa [hn] using h

/-- A sum is rounded with at most one roundoff, down to the least values. -/
theorem add_approximates {x y : Binary F} (hx : x.isFinite = true) (hy : y.isFinite = true)
    (h : |x.exact + y.exact| < F.reach) : (x + y).Approximates (x.exact + y.exact) := by
  obtain ⟨s, m, hm, rfl⟩ := exists_of_isFinite hx
  obtain ⟨t, n, hn, rfl⟩ := exists_of_isFinite hy
  have hq : (0 : ℚ) < 2 ^ F.quantum := by positivity
  have hsum : (finite s m hm).exact + (finite t n hn).exact =
      ((signed s m + signed t n : ℤ) : ℚ) / 2 ^ F.quantum := by
    rw [exact_finite, exact_finite, ← add_div]
    push_cast
    rfl
  change (add _ _).Approximates _
  simp only [add]
  rw [hsum] at h ⊢
  generalize signed s m + signed t n = total at h ⊢
  have hlt : total.natAbs / 1 < 2 ^ (F.capacity - 1) := by
    rw [abs_div, abs_of_pos hq, Format.reach, div_lt_div_iff_of_pos_right hq,
      ← Int.cast_abs, Int.abs_eq_natAbs] at h
    rw [Nat.div_one]
    exact_mod_cast h
  have hr := F.roundMagnitude_whole total.natAbs
  have ha := ofRatio_approximates (if total = 0 then s && t else decide (total < 0)) hlt
    (by simpa only [Nat.cast_one, div_one] using hr)
  simp only [Nat.cast_one, div_one] at ha
  rw [signed_natAbs (fun hz => if_neg hz)] at ha
  exact ha

/-- The product of two signed numbers has the product of the magnitudes under
the sign of the operands that differ. -/
theorem signed_mul (s t : Bool) (m n : ℕ) :
    ((signed s m : ℤ) : ℚ) * (signed t n : ℤ) =
      if (s != t) then -((m : ℚ) * n) else (m : ℚ) * n := by
  cases s <;> cases t <;> simp [signed]

/-- A quotient of quanta that clears underflow vanishes or has a full significand. -/
theorem eq_zero_or_le_div_of_clears {num den : ℕ} (hden : 0 < den)
    (h : F.ClearsUnderflow ((num / den : ℚ) / 2 ^ F.quantum)) :
    num = 0 ∨ 2 ^ (F.precision - 1) ≤ num / den := by
  have hq : (0 : ℚ) < 2 ^ F.quantum := by positivity
  have hd : (0 : ℚ) < den := by exact_mod_cast hden
  refine h.imp (fun hz => ?_) fun hle => ?_
  · rw [div_eq_zero_iff, or_iff_left hq.ne', div_eq_zero_iff, or_iff_left hd.ne'] at hz
    exact Nat.cast_eq_zero.mp hz
  · rw [abs_of_nonneg (by positivity), Format.leastNormal, div_le_div_iff_of_pos_right hq,
      le_div_iff₀ hd] at hle
    rw [Nat.le_div_iff_mul_le hden]
    exact_mod_cast hle

/-- A quotient of quanta that clears underflow and lies below the reach is rounded
with at most one roundoff. -/
theorem ofRatio_approximates_of_clears {num den : ℕ} (s : Bool) (hden : 0 < den)
    (hn : F.ClearsUnderflow ((num / den : ℚ) / 2 ^ F.quantum))
    (h : (num / den : ℚ) / 2 ^ F.quantum < F.reach) :
    (ofRatio s num den : Binary F).Approximates
      ((if s then -(num / den : ℚ) else num / den) / 2 ^ F.quantum) := by
  have hq : (0 : ℚ) < 2 ^ F.quantum := by positivity
  have hd : (0 : ℚ) < den := by exact_mod_cast hden
  have hlt : num / den < 2 ^ (F.capacity - 1) := by
    rw [Format.reach, div_lt_div_iff_of_pos_right hq, div_lt_iff₀ hd] at h
    rw [Nat.div_lt_iff_lt_mul hden]
    exact_mod_cast h
  refine ofRatio_approximates s hlt ?_
  rcases eq_zero_or_le_div_of_clears hden hn with rfl | hfull
  · rw [F.roundMagnitude_zero hden]
    simp
  · exact F.roundMagnitude_normal _ hden hfull

/-- The size of a signed quotient of quanta. -/
theorem abs_signed_ratio (s : Bool) (num den : ℕ) :
    |(if s then -(num / den : ℚ) else num / den) / 2 ^ F.quantum| =
      (num / den : ℚ) / 2 ^ F.quantum := by
  have hn : (0 : ℚ) ≤ num / den := by positivity
  have hq : (0 : ℚ) < 2 ^ F.quantum := by positivity
  cases s with
  | false => simp [abs_div, abs_of_pos hq]
  | true => simp [neg_div, abs_div, abs_of_pos hq]

/-- A result whose size clears underflow clears it under both signs. -/
theorem clearsUnderflow_abs {q : ℚ} : F.ClearsUnderflow |q| ↔ F.ClearsUnderflow q := by
  simp only [Format.ClearsUnderflow, abs_eq_zero, abs_abs]

/-- A product that clears underflow is rounded with at most one roundoff. -/
theorem mul_approximates {x y : Binary F} (hx : x.isFinite = true) (hy : y.isFinite = true)
    (hn : F.ClearsUnderflow (x.exact * y.exact)) (h : |x.exact * y.exact| < F.reach) :
    (x * y).Approximates (x.exact * y.exact) := by
  obtain ⟨s, m, hm, rfl⟩ := exists_of_isFinite hx
  obtain ⟨t, n, hn', rfl⟩ := exists_of_isFinite hy
  have hprod : (finite s m hm).exact * (finite t n hn').exact =
      (if (s != t) then -((m * n : ℕ) / (2 ^ F.quantum : ℕ) : ℚ)
        else (m * n : ℕ) / (2 ^ F.quantum : ℕ)) / 2 ^ F.quantum := by
    rw [exact_finite, exact_finite, div_mul_div_comm, signed_mul]
    push_cast
    split
    · field_simp
    · field_simp
  change (mul _ _).Approximates _
  simp only [mul]
  rw [hprod] at h hn ⊢
  rw [← clearsUnderflow_abs] at hn
  rw [abs_signed_ratio] at h hn
  exact ofRatio_approximates_of_clears (s != t) (Nat.two_pow_pos _) hn h

/-- A finite rounded quotient lies on every grid of its rounded magnitude. -/
theorem onGrid_ofRatio {e num den : ℕ} {s : Bool} (hd : 2 ^ e ∣ F.roundMagnitude num den)
    (hf : (ofRatio s num den : Binary F).isFinite = true) :
    OnGrid e (ofRatio s num den : Binary F) := by
  rw [ofRatio_of_lt s (roundMagnitude_lt_of_isFinite hf)]
  exact hd

/-- A finite sum of numbers on a grid lies on the grid. -/
theorem OnGrid.add {e : ℕ} {x y : Binary F} (hx : OnGrid e x) (hy : OnGrid e y)
    (hf : (x + y).isFinite = true) : OnGrid e (x + y) := by
  obtain ⟨s, m, hm, rfl⟩ := exists_of_isFinite hx.isFinite
  obtain ⟨t, n, hn, rfl⟩ := exists_of_isFinite hy.isFinite
  change (Binary.add _ _).isFinite = true at hf
  change OnGrid e (Binary.add _ _)
  have hd : 2 ^ e ∣ (signed s m + signed t n).natAbs := by
    have hxm : ((2 ^ e : ℕ) : ℤ) ∣ signed s m := natCast_dvd_signed s hx
    have hyn : ((2 ^ e : ℕ) : ℤ) ∣ signed t n := natCast_dvd_signed t hy
    exact Int.natCast_dvd.mp (dvd_add hxm hyn)
  simp only [Binary.add] at hf ⊢
  exact onGrid_ofRatio (F.dvd_roundMagnitude hd) hf

/-- A finite product of numbers on grids lies on the product of the grids. -/
theorem OnGrid.mul {d e g : ℕ} {x y : Binary F} (hx : OnGrid d x) (hy : OnGrid e y)
    (hg : d + e = g + F.quantum) (hf : (x * y).isFinite = true) : OnGrid g (x * y) := by
  obtain ⟨s, m, hm, rfl⟩ := exists_of_isFinite hx.isFinite
  obtain ⟨t, n, hn, rfl⟩ := exists_of_isFinite hy.isFinite
  change (Binary.mul _ _).isFinite = true at hf
  change OnGrid g (Binary.mul _ _)
  obtain ⟨b, rfl⟩ := hx
  obtain ⟨c, rfl⟩ := hy
  have hprod : 2 ^ d * b * (2 ^ e * c) = 2 ^ g * (b * c) * 2 ^ F.quantum := by
    calc 2 ^ d * b * (2 ^ e * c) = 2 ^ (d + e) * (b * c) := by rw [pow_add]; ring
      _ = 2 ^ g * (b * c) * 2 ^ F.quantum := by rw [hg, pow_add]; ring
  have hround : F.roundMagnitude (2 ^ d * b * (2 ^ e * c)) (2 ^ F.quantum) =
      F.roundMagnitude (2 ^ g * (b * c)) 1 := by
    have h := F.roundMagnitude_mul_right (2 ^ g * (b * c)) 1 (Nat.two_pow_pos F.quantum)
    rwa [Nat.one_mul, ← hprod] at h
  simp only [Binary.mul] at hf ⊢
  refine onGrid_ofRatio ?_ hf
  rw [hround]
  exact F.dvd_roundMagnitude (Nat.dvd_mul_right _ _)

end Binary

end VectorDistance
