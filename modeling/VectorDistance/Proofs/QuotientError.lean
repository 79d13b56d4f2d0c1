import Mathlib
import VectorDistance.Proofs.RoundingLaws

/-!
# Error of quotients and roots

A quotient that clears underflow is off by one roundoff, like a product. A root
is computed from a whole number of quarters of a quantum, itself off by one
quarter at most; in a format with many more quanta than significant bits that
quarter is less than one roundoff, so a rounded root is off by two. Bounds of
roots are stated for their squares, which are rational.
-/

namespace VectorDistance

/-- A quotient rounds to at most `k` when it is below the midpoint after `k`. -/
theorem roundDiv_le_of_lt (tie : Tie) {num den k : ℕ} (h : 2 * num < (2 * k + 1) * den) :
    roundDiv tie num den ≤ k := by
  have hr := roundDiv_mul_le tie num den
  by_contra hk
  have hmul : (k + 1) * den ≤ roundDiv tie num den * den :=
    Nat.mul_le_mul_right den (not_le.mp hk)
  rw [Nat.add_mul, Nat.one_mul] at hmul
  rw [Nat.add_mul, Nat.one_mul, Nat.mul_assoc] at h
  omega

/-- From the midpoint after an odd `k` on, a quotient rounds to more than `k`. -/
theorem lt_roundDiv_of_le {num den k : ℕ} (hden : 0 < den) (hk : k % 2 = 1)
    (h : (2 * k + 1) * den ≤ 2 * num) : k < roundDiv .toEven num den := by
  rw [Nat.add_mul, Nat.one_mul, Nat.mul_assoc] at h
  have hfloor := Nat.div_add_mod' num den
  have hk' : k ≤ num / den := (Nat.le_div_iff_mul_le hden).mpr (by omega)
  rcases Nat.lt_or_eq_of_le hk' with hlt | heq
  · exact hlt.trans_le (le_roundDiv .toEven num den)
  · rw [← heq] at hfloor
    have hhalf : ¬2 * (num % den) < den := by omega
    simp only [roundDiv, if_neg hhalf, ← heq]
    -- at the midpoint the odd neighbour is not taken
    split
    · exact Nat.lt_succ_self k
    · omega

namespace Format

variable (F : Format)

/-- The roundoff of the 64-bit format. -/
theorem roundoff_double : double.roundoff = 1 / 2 ^ 53 := rfl

/-- The quantum of the 64-bit format. -/
theorem quantum_double : double.quantum = 1074 := rfl

/-- The least normal value of the 64-bit format. -/
theorem leastNormal_double : double.leastNormal = 1 / 2 ^ 1022 := by
  rw [leastNormal, div_eq_div_iff (by positivity) (by positivity), one_mul, ← pow_add]
  rfl

/-- The reach of the 64-bit format. -/
theorem reach_double : double.reach = 2 ^ 1023 := by
  rw [reach, div_eq_iff (by positivity), ← pow_add]
  rfl

/-- Below a power of two rounding stays at or below it. -/
theorem roundMagnitude_le_two_pow {num den e : ℕ} (he : 0 < e)
    (h : num / den < 2 ^ (F.precision - 1 + e)) :
    F.roundMagnitude num den ≤ 2 ^ (F.precision - 1 + e) := by
  have hp := F.precision_pos
  have hexp : F.precision + F.excess (num / den) ≤ F.precision - 1 + e := by
    by_cases hz : num / den = 0
    · rw [hz, excess, Nat.log2_zero]
      omega
    · have hlog := (Nat.log2_lt hz).mpr h
      unfold excess
      omega
  have hr := roundDiv_le .toEven num (den * 2 ^ F.excess (num / den))
  rw [← Nat.div_div_eq_div_mul] at hr
  calc F.roundMagnitude num den
      ≤ 2 ^ F.precision * 2 ^ F.excess (num / den) :=
        Nat.mul_le_mul_right _ (hr.trans (F.div_excess_lt (num / den)))
    _ = 2 ^ (F.precision + F.excess (num / den)) := (pow_add _ _ _).symm
    _ ≤ 2 ^ (F.precision - 1 + e) := Nat.pow_le_pow_right (by omega) hexp

/-- From a power of two on rounding stays at or above it. -/
theorem two_pow_le_roundMagnitude {num den e : ℕ} (h : 2 ^ e ≤ num / den) :
    2 ^ e ≤ F.roundMagnitude num den := by
  have hp := F.precision_pos
  have hne : num / den ≠ 0 := (lt_of_lt_of_le (Nat.two_pow_pos e) h).ne'
  have hlog : e ≤ (num / den).log2 := (Nat.le_log2 hne).mpr h
  have hdiv : 2 ^ F.excess (num / den) ∣ 2 ^ (num / den).log2 := by
    refine Nat.pow_dvd_pow 2 ?_
    unfold excess
    omega
  have hr := le_roundDiv .toEven num (den * 2 ^ F.excess (num / den))
  rw [← Nat.div_div_eq_div_mul] at hr
  calc 2 ^ e ≤ 2 ^ (num / den).log2 := Nat.pow_le_pow_right (by omega) hlog
    _ = 2 ^ (num / den).log2 / 2 ^ F.excess (num / den) * 2 ^ F.excess (num / den) :=
      (Nat.div_mul_cancel hdiv).symm
    _ ≤ num / den / 2 ^ F.excess (num / den) * 2 ^ F.excess (num / den) :=
      Nat.mul_le_mul_right _ (Nat.div_le_div_right (Nat.log2_self_le hne))
    _ ≤ F.roundMagnitude num den := Nat.mul_le_mul_right _ hr

/-- Inside a binade the weight of the last bit is known. -/
theorem excess_of_binade {m e : ℕ} (hlo : 2 ^ (F.precision - 1 + e) ≤ m)
    (hhi : m < 2 ^ (F.precision + e)) : F.excess m = e := by
  have hp := F.precision_pos
  have hne : m ≠ 0 := (lt_of_lt_of_le (Nat.two_pow_pos _) hlo).ne'
  have h1 := (Nat.le_log2 hne).mpr hlo
  have h2 := (Nat.log2_lt hne).mpr hhi
  unfold excess
  omega

section Threshold

variable {num den k e : ℕ} (hden : 0 < den) (hlo : 2 ^ (F.precision - 1) ≤ k)
  (hhi : k < 2 ^ F.precision)

include hden hlo hhi

/-- Quotients before the midpoint after a significand round to it at most. -/
theorem roundMagnitude_le_of_lt (he : 0 < e)
    (h : 2 * num < (2 * k + 1) * (den * 2 ^ e)) :
    F.roundMagnitude num den ≤ k * 2 ^ e := by
  rcases lt_or_ge (num / den) (2 ^ (F.precision - 1 + e)) with hsmall | hlarge
  · refine (F.roundMagnitude_le_two_pow he hsmall).trans ?_
    rw [pow_add]
    exact Nat.mul_le_mul_right _ hlo
  · have hlt : num / den < 2 ^ (F.precision + e) := by
      rw [Nat.div_lt_iff_lt_mul hden, pow_add, Nat.mul_assoc, Nat.mul_comm (2 ^ e)]
      have hmul : (2 * k + 1) * (den * 2 ^ e) ≤ 2 * 2 ^ F.precision * (den * 2 ^ e) :=
        Nat.mul_le_mul_right _ (by omega)
      rw [Nat.mul_assoc 2] at hmul
      omega
    rw [roundMagnitude, F.excess_of_binade hlarge hlt]
    exact Nat.mul_le_mul_right _ (roundDiv_le_of_lt .toEven h)

/-- Quotients from the midpoint after an odd significand on round beyond it. -/
theorem lt_roundMagnitude_of_le (hodd : k % 2 = 1)
    (h : (2 * k + 1) * (den * 2 ^ e) ≤ 2 * num) :
    (k + 1) * 2 ^ e ≤ F.roundMagnitude num den := by
  rcases lt_or_ge (num / den) (2 ^ (F.precision + e)) with hlt | hlarge
  · have hge : 2 ^ (F.precision - 1 + e) ≤ num / den := by
      rw [Nat.le_div_iff_mul_le hden, pow_add, Nat.mul_assoc, Nat.mul_comm (2 ^ e)]
      have hmul : 2 * 2 ^ (F.precision - 1) * (den * 2 ^ e) ≤ (2 * k + 1) * (den * 2 ^ e) :=
        Nat.mul_le_mul_right _ (by omega)
      rw [Nat.mul_assoc 2] at hmul
      omega
    rw [roundMagnitude, F.excess_of_binade hge hlt]
    exact Nat.mul_le_mul_right _ (lt_roundDiv_of_le (by positivity) hodd h)
  · refine le_trans ?_ (F.two_pow_le_roundMagnitude hlarge)
    rw [pow_add]
    exact Nat.mul_le_mul_right _ hhi

end Threshold

end Format

namespace Binary

variable {F : Format}

/-- The quotient of two signed numbers has the quotient of the magnitudes under
the sign of the operands that differ. -/
theorem signed_div (s t : Bool) (m n : ℕ) :
    ((signed s m : ℤ) : ℚ) / (signed t n : ℤ) =
      if (s != t) then -((m : ℚ) / n) else (m : ℚ) / n := by
  cases s <;> cases t <;> simp [signed, neg_div, div_neg]

/-- A quotient that clears underflow is rounded with at most one roundoff. -/
theorem div_approximates {x y : Binary F} (hx : x.isFinite = true) (hy : y.isFinite = true)
    (hy0 : y.exact ≠ 0) (hn : F.ClearsUnderflow (x.exact / y.exact))
    (h : |x.exact / y.exact| < F.reach) : (x / y).Approximates (x.exact / y.exact) := by
  obtain ⟨s, m, hm, rfl⟩ := exists_of_isFinite hx
  obtain ⟨t, n, hn', rfl⟩ := exists_of_isFinite hy
  have hq : (2 : ℚ) ^ F.quantum ≠ 0 := by positivity
  have hnz : n ≠ 0 := by
    rintro rfl
    exact hy0 (exact_zero t)
  have hnq : (n : ℚ) ≠ 0 := by exact_mod_cast hnz
  have hquot : (finite s m hm).exact / (finite t n hn').exact =
      (if (s != t) then -((m * 2 ^ F.quantum : ℕ) / (n : ℕ) : ℚ)
        else (m * 2 ^ F.quantum : ℕ) / (n : ℕ)) / 2 ^ F.quantum := by
    rw [exact_finite, exact_finite, div_div_div_cancel_right₀ hq, signed_div]
    push_cast
    split
    · field_simp
    · field_simp
  change (div _ _).Approximates _
  simp only [div, if_neg hnz]
  rw [hquot] at h hn ⊢
  rw [← clearsUnderflow_abs] at hn
  rw [abs_signed_ratio] at h hn
  exact ofRatio_approximates_of_clears (s != t) (Nat.pos_of_ne_zero hnz) hn h

/-- When a rounded quotient stays within a limit. The limit lies between an odd
significand and its successor, and the exact quotient is compared with the
midpoint of the two. -/
theorem abs_div_le_iff {x y : Binary F} (hx : x.isFinite = true) (hy : y.isFinite = true)
    (hy0 : y.exact ≠ 0) (hxy : (x / y).isFinite = true) (k e : ℕ) (limit : ℚ) (he : 0 < e)
    (hlo : 2 ^ (F.precision - 1) ≤ k) (hhi : k < 2 ^ F.precision) (hodd : k % 2 = 1)
    (hk : (k * 2 ^ e : ℚ) / 2 ^ F.quantum ≤ limit)
    (hk1 : limit < ((k + 1) * 2 ^ e : ℚ) / 2 ^ F.quantum) :
    |(x / y).exact| ≤ limit ↔
      2 * |x.exact| * 2 ^ F.quantum < (2 * k + 1) * 2 ^ e * |y.exact| := by
  obtain ⟨s, m, hm, rfl⟩ := exists_of_isFinite hx
  obtain ⟨t, n, hn, rfl⟩ := exists_of_isFinite hy
  have hq : (0 : ℚ) < 2 ^ F.quantum := by positivity
  have hnz : n ≠ 0 := by
    rintro rfl
    exact hy0 (exact_zero t)
  have hdiv : finite s m hm / finite t n hn = ofRatio (s != t) (m * 2 ^ F.quantum) n := by
    change div _ _ = _
    simp only [div, if_neg hnz]
  have hsize : |(finite s m hm / finite t n hn).exact| =
      (F.roundMagnitude (m * 2 ^ F.quantum) n : ℚ) / 2 ^ F.quantum := by
    rw [hdiv] at hxy ⊢
    rw [ofRatio_of_lt _ (roundMagnitude_lt_of_isFinite hxy), abs_exact_finite]
  have hmid : 2 * |(finite s m hm).exact| * 2 ^ F.quantum <
      (2 * k + 1) * 2 ^ e * |(finite t n hn).exact| ↔
        2 * (m * 2 ^ F.quantum) < (2 * k + 1) * (n * 2 ^ e) := by
    rw [abs_exact_finite, abs_exact_finite, ← mul_lt_mul_iff_left₀ hq]
    have hl : 2 * ((m : ℚ) / 2 ^ F.quantum) * 2 ^ F.quantum * 2 ^ F.quantum =
        (2 * (m * 2 ^ F.quantum) : ℕ) := by
      push_cast
      field_simp
    have hr : (2 * k + 1) * 2 ^ e * ((n : ℚ) / 2 ^ F.quantum) * 2 ^ F.quantum =
        ((2 * k + 1) * (n * 2 ^ e) : ℕ) := by
      push_cast
      field_simp
    rw [hl, hr, Nat.cast_lt]
  rw [hsize, hmid]
  constructor
  · intro hle
    by_contra hge
    have hr := F.lt_roundMagnitude_of_le (Nat.pos_of_ne_zero hnz) hlo hhi hodd (not_lt.mp hge)
    have hr' : ((k + 1) * 2 ^ e : ℚ) ≤ F.roundMagnitude (m * 2 ^ F.quantum) n := by
      exact_mod_cast hr
    exact absurd (hk1.trans_le ((div_le_div_of_nonneg_right hr' hq.le).trans hle)) (lt_irrefl _)
  · intro hlt
    have hr := F.roundMagnitude_le_of_lt (Nat.pos_of_ne_zero hnz) hlo hhi he hlt
    have hr' : (F.roundMagnitude (m * 2 ^ F.quantum) n : ℚ) ≤ k * 2 ^ e := by
      exact_mod_cast hr
    exact (div_le_div_of_nonneg_right hr' hq.le).trans hk

/-- The quarters of a root lie within one quarter of it. -/
theorem rootQuarters_bounds {n : ℕ} (hn : 0 < n) :
    ((rootQuarters n : ℚ) - 1) ^ 2 ≤ 16 * n ∧ (16 * n : ℚ) ≤ (rootQuarters n + 1) ^ 2 := by
  have hlo : ((4 * n).sqrt * (4 * n).sqrt : ℚ) ≤ 4 * n := by exact_mod_cast Nat.sqrt_le (4 * n)
  have hhi : (4 * n : ℚ) ≤ ((4 * n).sqrt + 1) * ((4 * n).sqrt + 1) := by
    exact_mod_cast (Nat.lt_succ_sqrt (4 * n)).le
  have hroot : (1 : ℚ) ≤ (4 * n).sqrt := by
    exact_mod_cast Nat.sqrt_pos.mpr (by omega)
  simp only [rootQuarters]
  split
  · next h =>
    have hsq : ((4 * n).sqrt * (4 * n).sqrt : ℚ) = 4 * n := by exact_mod_cast h
    push_cast
    constructor
    · nlinarith
    · nlinarith
  · push_cast
    constructor
    · nlinarith
    · nlinarith

/-- The quarters of a root stay far below four times the capacity. -/
theorem rootQuarters_le_two_pow_capacity (hcap : F.quantum + 4 ≤ F.capacity) {m : ℕ} (hm : 0 < m)
    (hlt : m < 2 ^ F.capacity) :
    rootQuarters (m * 2 ^ F.quantum) ≤ 2 ^ F.capacity + 1 := by
  have hn : 0 < m * 2 ^ F.quantum := by positivity
  have hlo := (rootQuarters_bounds hn).1
  have hbig : (16 * (m * 2 ^ F.quantum : ℕ) : ℚ) ≤ (2 ^ F.capacity) ^ 2 := by
    have h : 16 * (m * 2 ^ F.quantum) ≤ (2 ^ F.capacity) ^ 2 := by
      calc 16 * (m * 2 ^ F.quantum) ≤ 16 * (2 ^ F.capacity * 2 ^ F.quantum) :=
            Nat.mul_le_mul_left 16 (Nat.mul_le_mul_right _ hlt.le)
        _ = 2 ^ F.capacity * 2 ^ (F.quantum + 4) := by rw [pow_add]; ring
        _ ≤ 2 ^ F.capacity * 2 ^ F.capacity :=
            Nat.mul_le_mul_left _ (Nat.pow_le_pow_right (by omega) hcap)
        _ = (2 ^ F.capacity) ^ 2 := (pow_two _).symm
    exact_mod_cast h
  have hle := abs_le_of_sq_le_sq (hlo.trans hbig) (by positivity)
  have hr : (rootQuarters (m * 2 ^ F.quantum) : ℚ) ≤ 2 ^ F.capacity + 1 := by
    linarith [(abs_le.mp hle).2]
  exact_mod_cast hr

/-- The quarters of a root of a number are no fewer than the significands. -/
theorem two_pow_precision_le_rootQuarters (hprec : 2 * F.precision ≤ F.quantum) {m : ℕ}
    (hm : 0 < m) :
    2 ^ (F.precision + 1) ≤ rootQuarters (m * 2 ^ F.quantum) := by
  have hn : 0 < m * 2 ^ F.quantum := by positivity
  have hhi := (rootQuarters_bounds hn).2
  have hpow : 2 ^ (2 * F.precision) ≤ m * 2 ^ F.quantum :=
    (Nat.pow_le_pow_right (by omega) hprec).trans (Nat.le_mul_of_pos_left _ hm)
  have hsq : (4 * 2 ^ F.precision) ^ 2 ≤ (rootQuarters (m * 2 ^ F.quantum) + 1) ^ 2 := by
    have h : 16 * (m * 2 ^ F.quantum) ≤ (rootQuarters (m * 2 ^ F.quantum) + 1) ^ 2 := by
      exact_mod_cast hhi
    calc (4 * 2 ^ F.precision) ^ 2 = 16 * 2 ^ (2 * F.precision) := by rw [pow_mul']; ring
      _ ≤ 16 * (m * 2 ^ F.quantum) := Nat.mul_le_mul_left 16 hpow
      _ ≤ _ := h
  have hle := (Nat.pow_le_pow_iff_left (by omega)).mp hsq
  have h1 : 1 ≤ 2 ^ F.precision := Nat.one_le_two_pow
  rw [pow_succ]
  omega

/-- A finite number of positive value has the positive sign and a positive magnitude. -/
theorem exists_of_exact_pos {x : Binary F} (hx : x.isFinite = true) (hpos : 0 < x.exact) :
    ∃ m hm, x = finite false m hm ∧ 0 < m ∧ x.exact = m / 2 ^ F.quantum := by
  obtain ⟨s, m, hm, rfl⟩ := exists_of_isFinite hx
  have hq : (0 : ℚ) < 2 ^ F.quantum := by positivity
  rw [exact_finite, div_pos_iff_of_pos_right hq] at hpos
  cases s with
  | false =>
    have hval : ((signed false m : ℤ) : ℚ) = m := by simp [signed]
    rw [hval] at hpos
    exact ⟨m, hm, rfl, by exact_mod_cast hpos, by rw [exact_finite, hval]⟩
  | true =>
    simp only [signed, if_true] at hpos
    push_cast at hpos
    linarith [(Nat.cast_nonneg m : (0 : ℚ) ≤ m)]

/-- The quarters of a root are positive and off by one roundoff at most. -/
theorem quarters_enclose (hprec : 2 * F.precision ≤ F.quantum) {m : ℕ} (hm : 0 < m) :
    (0 : ℚ) < rootQuarters (m * 2 ^ F.quantum) / 4 / 2 ^ F.quantum ∧
      ((rootQuarters (m * 2 ^ F.quantum) / 4 / 2 ^ F.quantum) * (1 - F.roundoff)) ^ 2 ≤
        (m : ℚ) / 2 ^ F.quantum ∧
      (m : ℚ) / 2 ^ F.quantum ≤
        ((rootQuarters (m * 2 ^ F.quantum) / 4 / 2 ^ F.quantum) * (1 + F.roundoff)) ^ 2 := by
  have hr := two_pow_precision_le_rootQuarters hprec hm
  obtain ⟨hlo, hhi⟩ := rootQuarters_bounds (by positivity : 0 < m * 2 ^ F.quantum)
  set r : ℚ := (rootQuarters (m * 2 ^ F.quantum) : ℚ) with hrdef
  have hu1 := F.roundoff_lt_one
  -- one quarter is at most one roundoff of the root
  have hone : 1 ≤ r * F.roundoff := by
    rw [Format.roundoff, mul_one_div, le_div_iff₀ (by positivity), one_mul, hrdef]
    have hp : 2 ^ F.precision ≤ rootQuarters (m * 2 ^ F.quantum) :=
      (Nat.pow_le_pow_right (by omega) (Nat.le_succ _)).trans hr
    exact_mod_cast hp
  have hr0 : 0 < r := pos_of_mul_pos_left (by linarith) F.roundoff_pos.le
  have hval : (m : ℚ) / 2 ^ F.quantum = 16 * (m * 2 ^ F.quantum : ℕ) / (4 * 2 ^ F.quantum) ^ 2 := by
    push_cast
    field_simp
    ring
  rw [hval, div_div, div_mul_eq_mul_div, div_mul_eq_mul_div, div_pow, div_pow]
  refine ⟨by positivity, ?_, ?_⟩
  · refine div_le_div_of_nonneg_right (le_trans ?_ hlo) (by positivity)
    exact pow_le_pow_left₀ (mul_nonneg hr0.le (by linarith)) (by linarith) 2
  · refine div_le_div_of_nonneg_right (hhi.trans ?_) (by positivity)
    exact pow_le_pow_left₀ (by linarith) (by linarith) 2

section Root

variable (hprec : 2 * F.precision ≤ F.quantum) (hcap : F.quantum + 4 ≤ F.capacity)
include hprec hcap

/-- The root of a positive number is its quarters, rounded once. -/
theorem sqrt_approximates {m : ℕ} (hm : 0 < m) (h : F.Represents m) :
    (finite false m h).sqrt.Approximates
      ((rootQuarters (m * 2 ^ F.quantum) / 4 : ℚ) / 2 ^ F.quantum) := by
  have hlo := two_pow_precision_le_rootQuarters hprec hm
  have hhi := rootQuarters_le_two_pow_capacity hcap hm h.2
  have hp := F.precision_pos
  have hpc := F.precision_le_capacity
  have hnormal : 2 ^ (F.precision - 1) ≤ rootQuarters (m * 2 ^ F.quantum) / 4 := by
    have hpow : 2 ^ (F.precision + 1) = 4 * 2 ^ (F.precision - 1) := by
      have he : F.precision + 1 = 2 + (F.precision - 1) := by omega
      rw [he, pow_add]
      rfl
    omega
  have hlt : rootQuarters (m * 2 ^ F.quantum) / 4 < 2 ^ (F.capacity - 1) := by
    have hpow : 2 ^ F.capacity = 2 * 2 ^ (F.capacity - 1) := by
      rw [← pow_succ']
      congr 1
      omega
    have h1 : 1 ≤ 2 ^ (F.capacity - 1) := Nat.one_le_two_pow
    omega
  simp only [sqrt, if_neg hm.ne', Bool.false_eq_true, if_false]
  have happ := ofRatio_approximates false hlt (F.roundMagnitude_normal _ (by omega) hnormal)
  simpa only [Bool.false_eq_true, if_false, Nat.cast_ofNat] using happ

/-- The root of a positive number is positive, finite and off by two roundoffs. -/
theorem sqrt_bounds {x : Binary F} (hx : x.isFinite = true) (hpos : 0 < x.exact) :
    x.sqrt.isFinite = true ∧ 0 < x.sqrt.exact ∧
      x.exact * (1 - F.roundoff) ^ 2 ≤ x.sqrt.exact ^ 2 * (1 + F.roundoff) ^ 2 ∧
      x.sqrt.exact ^ 2 * (1 - F.roundoff) ^ 2 ≤ x.exact * (1 + F.roundoff) ^ 2 := by
  obtain ⟨m, hm, rfl, hm0, hval⟩ := exists_of_exact_pos hx hpos
  obtain ⟨hfin, herr⟩ := sqrt_approximates hprec hcap hm0 hm
  obtain ⟨hq0, hlo, hhi⟩ := quarters_enclose hprec hm0
  rw [← hval] at hlo hhi
  set q : ℚ := rootQuarters (m * 2 ^ F.quantum) / 4 / 2 ^ F.quantum
  set y := (finite false m hm).sqrt.exact
  have hu := F.roundoff_pos
  have hu1 := F.roundoff_lt_one
  have hq1 : 0 < q * (1 - F.roundoff) := mul_pos hq0 (by linarith)
  rw [abs_of_pos hq0] at herr
  obtain ⟨hylo, hyhi⟩ := abs_le.mp herr
  have hypos : 0 < y := by linarith
  refine ⟨hfin, hypos, ?_, ?_⟩
  · calc (finite false m hm).exact * (1 - F.roundoff) ^ 2
        ≤ (q * (1 + F.roundoff)) ^ 2 * (1 - F.roundoff) ^ 2 :=
          mul_le_mul_of_nonneg_right hhi (sq_nonneg _)
      _ = (q * (1 - F.roundoff)) ^ 2 * (1 + F.roundoff) ^ 2 := by ring
      _ ≤ y ^ 2 * (1 + F.roundoff) ^ 2 :=
          mul_le_mul_of_nonneg_right (pow_le_pow_left₀ hq1.le (by linarith) 2) (sq_nonneg _)
  · calc y ^ 2 * (1 - F.roundoff) ^ 2
        ≤ (q * (1 + F.roundoff)) ^ 2 * (1 - F.roundoff) ^ 2 :=
          mul_le_mul_of_nonneg_right (pow_le_pow_left₀ hypos.le (by linarith) 2) (sq_nonneg _)
      _ = (q * (1 - F.roundoff)) ^ 2 * (1 + F.roundoff) ^ 2 := by ring
      _ ≤ (finite false m hm).exact * (1 + F.roundoff) ^ 2 :=
          mul_le_mul_of_nonneg_right hlo (sq_nonneg _)

end Root

end Binary

end VectorDistance
