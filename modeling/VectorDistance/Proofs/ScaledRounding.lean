import Mathlib
import VectorDistance.Proofs.GrowingSums

/-!
# Rounding on a scaled grid

Taken times a power of two, a quotient with a full significand is rounded to the scaled
magnitude, and a whole number of quanta is so however small it is. A root computed from
quarters is not the scaled number of quarters, but lies alike to every number that the
rounding compares it with. So sums never notice by which power of two all their terms are
scaled; products and roots do not as long as they clear underflow, and a quotient of two
numbers scaled alike is the same number.
-/

namespace VectorDistance

/-! ## Rounding looks at multiples only -/

/-- Two numbers that lie to the same side of every multiple of `step`. -/
def LieAlike (step x y : ℕ) : Prop :=
  ∀ j, (j * step ≤ x ↔ j * step ≤ y) ∧ (x ≤ j * step ↔ y ≤ j * step)

namespace LieAlike

variable {step x y : ℕ}

/-- It does not matter which of the numbers comes first. -/
theorem symm (h : LieAlike step x y) : LieAlike step y x :=
  fun j => ⟨(h j).1.symm, (h j).2.symm⟩

/-- Multiples of a multiple are multiples. -/
theorem of_dvd {coarse : ℕ} (h : LieAlike step x y) (hd : step ∣ coarse) :
    LieAlike coarse x y := by
  obtain ⟨c, rfl⟩ := hd
  intro j
  rw [Nat.mul_comm step, ← Nat.mul_assoc]
  exact h (j * c)

/-- Scaled together, numbers lie alike to the scaled multiples. -/
theorem mul_left (h : LieAlike step x y) {c : ℕ} (hc : 0 < c) :
    LieAlike (c * step) (c * x) (c * y) := by
  intro j
  rw [Nat.mul_left_comm j, Nat.mul_le_mul_left_iff hc, Nat.mul_le_mul_left_iff hc,
    Nat.mul_le_mul_left_iff hc, Nat.mul_le_mul_left_iff hc]
  exact h j

/-- Halves of numbers that lie alike have no different quotients. -/
theorem div_le {num num' den : ℕ} (h : LieAlike den (2 * num) (2 * num')) (hden : 0 < den) :
    num / den ≤ num' / den := by
  have hfloor : 2 * (num / den) * den ≤ 2 * num := by
    rw [Nat.mul_assoc]
    exact Nat.mul_le_mul_left 2 (Nat.div_mul_le_self num den)
  have hfloor' := (h _).1.mp hfloor
  rw [Nat.mul_assoc] at hfloor'
  rw [Nat.le_div_iff_mul_le hden]
  omega

end LieAlike

/-- Quotients whose doubles lie alike to the multiples of the denominator are rounded alike. -/
theorem roundDiv_congr (tie : Tie) {num num' den : ℕ} (hden : 0 < den)
    (h : LieAlike den (2 * num) (2 * num')) : roundDiv tie num den = roundDiv tie num' den := by
  have hquot : num / den = num' / den := le_antisymm (h.div_le hden) (h.symm.div_le hden)
  have hsplit := Nat.div_add_mod' num den
  have hsplit' := Nat.div_add_mod' num' den
  rw [← hquot] at hsplit'
  -- the midpoint after the quotient is an odd multiple of half the denominator
  have hmid := h (2 * (num / den) + 1)
  rw [Nat.add_mul, Nat.one_mul, Nat.mul_assoc] at hmid
  have hbelow : 2 * (num % den) < den ↔ 2 * (num' % den) < den := by omega
  have habove : den < 2 * (num % den) ↔ den < 2 * (num' % den) := by omega
  simp only [roundDiv, ← hquot, hbelow, habove]

namespace Format

variable (F : Format)

/-- A magnitude with a full significand lies in the binade of its last bit. -/
theorem binade_of_le {m e : ℕ} (h : 2 ^ (F.precision - 1 + e) ≤ m) :
    e ≤ F.excess m ∧ 2 ^ (F.precision - 1 + F.excess m) ≤ m := by
  have hp := F.precision_pos
  have he : F.excess (2 ^ (F.precision - 1 + e)) = e :=
    F.excess_of_binade le_rfl (Nat.pow_lt_pow_right (by omega) (by omega))
  have hle : e ≤ F.excess m := he.symm.trans_le (F.excess_mono h)
  refine ⟨hle, ?_⟩
  rcases Nat.eq_zero_or_pos (F.excess m) with hz | hpos
  · rwa [hz, ← Nat.le_zero.mp (hz ▸ hle)]
  · exact F.two_pow_le_of_excess_pos hpos

/-- A quotient with a full significand, taken times a power of two, is rounded to the
scaled magnitude. -/
theorem roundMagnitude_mul_two_pow {num den : ℕ} (k : ℕ) (hden : 0 < den)
    (h : num = 0 ∨ 2 ^ (F.precision - 1) ≤ num / den) :
    F.roundMagnitude (num * 2 ^ k) den = F.roundMagnitude num den * 2 ^ k := by
  rcases h with rfl | h
  · rw [Nat.zero_mul, F.roundMagnitude_zero hden, Nat.zero_mul]
  · have hlo := (F.binade_of_le (e := 0) h).2
    have hhi := F.lt_two_pow_excess (num / den)
    set f := F.excess (num / den) with hf
    have hexcess : F.excess (num * 2 ^ k / den) = f + k := by
      refine F.excess_of_binade ?_ ?_
      · rw [Nat.le_div_iff_mul_le hden] at hlo ⊢
        rw [← Nat.add_assoc, pow_add, Nat.mul_right_comm]
        exact Nat.mul_le_mul_right _ hlo
      · rw [Nat.div_lt_iff_lt_mul hden] at hhi ⊢
        rw [← Nat.add_assoc, pow_add _ _ k, Nat.mul_right_comm]
        exact Nat.mul_lt_mul_of_pos_right hhi (Nat.two_pow_pos k)
    rw [roundMagnitude, roundMagnitude, hexcess, ← hf, pow_add, ← Nat.mul_assoc den,
      roundDiv_mul_right _ _ _ (Nat.two_pow_pos k), Nat.mul_assoc]

/-- A whole number of quanta, taken times a power of two, is rounded to the scaled
magnitude, however small it is. -/
theorem roundMagnitude_whole_mul_two_pow (m k : ℕ) :
    F.roundMagnitude (m * 2 ^ k) 1 = F.roundMagnitude m 1 * 2 ^ k := by
  rcases Nat.lt_or_ge m (2 ^ F.precision) with hlt | hge
  · rw [F.roundMagnitude_of_fits (F.fits_mul_two_pow k hlt.le),
      F.roundMagnitude_of_fits ⟨m, 0, hlt, by rw [pow_zero, Nat.mul_one]⟩]
  · refine F.roundMagnitude_mul_two_pow k Nat.one_pos (Or.inr ?_)
    rw [Nat.div_one]
    exact (Nat.pow_le_pow_right (by omega) (Nat.sub_le _ _)).trans hge

/-- The same under a sign. -/
theorem roundQuanta_mul_two_pow (total : ℤ) (k : ℕ) :
    F.roundQuanta (total * 2 ^ k) = F.roundQuanta total * 2 ^ k := by
  obtain ⟨s, m, rfl⟩ := Binary.exists_signed total
  have hcast : ((2 ^ k : ℕ) : ℤ) = 2 ^ k := by push_cast; rfl
  rw [← hcast, ← Binary.signed_mul_natCast, roundQuanta_signed, roundQuanta_signed,
    F.roundMagnitude_whole_mul_two_pow, Binary.signed_mul_natCast]

/-- Quotients with a full significand are rounded alike if their doubles lie alike to the
multiples of some weight of a last bit. -/
theorem roundMagnitude_congr {num num' den e : ℕ} (hden : 0 < den)
    (hfull : 2 ^ (F.precision - 1 + e) ≤ num / den)
    (h : LieAlike (den * 2 ^ e) (2 * num) (2 * num')) :
    F.roundMagnitude num den = F.roundMagnitude num' den := by
  have hp := F.precision_pos
  obtain ⟨he, hlo⟩ := F.binade_of_le hfull
  have hhi := F.lt_two_pow_excess (num / den)
  set f := F.excess (num / den) with hf
  have hexcess : F.excess (num' / den) = f := by
    -- both ends of the binade are multiples of the weight
    have hends (d : ℕ) (hd : e ≤ d) : 2 ^ d ≤ num / den ↔ 2 ^ d ≤ num' / den := by
      have hmul : den * 2 ^ e ∣ 2 * (2 ^ d * den) := by
        rw [Nat.mul_comm (2 ^ d)]
        exact (Nat.mul_dvd_mul_left den (Nat.pow_dvd_pow 2 hd)).trans (Nat.dvd_mul_left _ _)
      have hiff := (h.of_dvd hmul 1).1
      rw [Nat.one_mul, Nat.mul_le_mul_left_iff two_pos, Nat.mul_le_mul_left_iff two_pos] at hiff
      rwa [Nat.le_div_iff_mul_le hden, Nat.le_div_iff_mul_le hden]
    refine F.excess_of_binade ((hends _ (by omega)).mp hlo) ?_
    exact not_le.mp fun hge => not_le.mpr hhi ((hends _ (by omega)).mpr hge)
  rw [roundMagnitude, roundMagnitude, hexcess, ← hf,
    roundDiv_congr .toEven (by positivity)
      (h.of_dvd (Nat.mul_dvd_mul_left den (Nat.pow_dvd_pow 2 he)))]

end Format

namespace Binary

/-! ## Roots -/

/-- The quarters of a scaled root lie alike to the scaled quarters. -/
theorem lieAlike_rootQuarters (n : ℕ) {c : ℕ} (hc : 0 < c) :
    LieAlike (2 * c) (rootQuarters n * c) (rootQuarters (n * (c * c))) := by
  intro j
  have hstep : j * (2 * c) = 2 * (j * c) := Nat.mul_left_comm j 2 c
  have hleft : 2 * (j * c) = 2 * j * c := (Nat.mul_assoc 2 j c).symm
  have hsquare : j * c * (j * c) = j * j * (c * c) := Nat.mul_mul_mul_comm j c j c
  have hfour : 4 * (n * (c * c)) = 4 * n * (c * c) := (Nat.mul_assoc 4 n (c * c)).symm
  have hcc : 0 < c * c := Nat.mul_pos hc hc
  rw [hstep, two_mul_le_rootQuarters_iff, rootQuarters_le_two_mul_iff, hsquare, hfour,
    Nat.mul_le_mul_right_iff hcc, Nat.mul_le_mul_right_iff hcc, hleft,
    Nat.mul_le_mul_right_iff hc, Nat.mul_le_mul_right_iff hc, two_mul_le_rootQuarters_iff,
    rootQuarters_le_two_mul_iff]
  exact ⟨Iff.rfl, Iff.rfl⟩

end Binary

/-- The root of a square scaled twice is rounded to the scaled magnitude. -/
theorem Format.roundMagnitude_rootQuarters_mul (F : Format) {n : ℕ} (k : ℕ)
    (h : 2 ^ (F.precision + 1) ≤ Binary.rootQuarters n) :
    F.roundMagnitude (Binary.rootQuarters (n * (2 ^ k * 2 ^ k))) 4 =
      F.roundMagnitude (Binary.rootQuarters n) 4 * 2 ^ k := by
  have hp := F.precision_pos
  have hsplit : 2 ^ (F.precision + 1) = 2 ^ (F.precision - 1) * 4 := by
    have he : F.precision + 1 = F.precision - 1 + 2 := by omega
    rw [he, pow_add]
    rfl
  have hfull : 2 ^ (F.precision - 1) ≤ Binary.rootQuarters n / 4 := by
    rwa [Nat.le_div_iff_mul_le (by omega), ← hsplit]
  rw [← F.roundMagnitude_mul_two_pow k (by omega) (Or.inr hfull)]
  refine (F.roundMagnitude_congr (e := k) (by omega) ?_ ?_).symm
  · rw [Nat.le_div_iff_mul_le (by omega)] at hfull ⊢
    rw [pow_add, Nat.mul_right_comm]
    exact Nat.mul_le_mul_right _ hfull
  · have hstep : 4 * 2 ^ k = 2 * (2 * 2 ^ k) := Nat.mul_assoc 2 2 (2 ^ k)
    rw [hstep]
    exact (Binary.lieAlike_rootQuarters n (Nat.two_pow_pos k)).mul_left two_pos

namespace Binary

variable {F G : Format}

/-! ## Scaled numbers -/

/-- The second number is `2 ^ k` times the first one; both are finite. -/
def Scaled (k : ℕ) (x y : Binary F) : Prop :=
  ∃ i, x.quanta = some i ∧ y.quanta = some (i * 2 ^ k)

/-- Scaling in terms of the values. -/
theorem scaled_iff {k : ℕ} {x y : Binary F} :
    Scaled k x y ↔ x.isFinite = true ∧ y.isFinite = true ∧ y.exact = 2 ^ k * x.exact := by
  constructor
  · rintro ⟨i, hx, hy⟩
    refine ⟨isFinite_of_quanta hx, isFinite_of_quanta hy, ?_⟩
    rw [exact_of_quanta hx, exact_of_quanta hy]
    push_cast
    ring
  · rintro ⟨hx, hy, h⟩
    obtain ⟨i, hi⟩ := exists_quanta hx
    obtain ⟨j, hj⟩ := exists_quanta hy
    have hq : (2 : ℚ) ^ F.quantum ≠ 0 := by positivity
    rw [exact_of_quanta hi, exact_of_quanta hj, ← mul_div_assoc, div_left_inj' hq] at h
    have hij : j = i * 2 ^ k := by exact_mod_cast h.trans (Rat.mul_comm _ _)
    exact ⟨i, hi, hij ▸ hj⟩

namespace Scaled

variable {j k : ℕ} {x x' y y' : Binary F}

/-- A scaled number is finite before. -/
theorem isFinite_left (h : Scaled k x y) : x.isFinite = true := (scaled_iff.mp h).1

/-- A scaled number is finite after. -/
theorem isFinite_right (h : Scaled k x y) : y.isFinite = true := (scaled_iff.mp h).2.1

/-- The values are scaled. -/
theorem exact_eq (h : Scaled k x y) : y.exact = 2 ^ k * x.exact := (scaled_iff.mp h).2.2

/-- A finite number is one time itself. -/
theorem refl (hx : x.isFinite = true) : Scaled 0 x x := by
  rw [scaled_iff, pow_zero, one_mul]
  exact ⟨hx, hx, rfl⟩

/-- The magnitude of a scaled number is scaled, under the same sign unless it is zero. -/
theorem exists_finite (h : Scaled k x y) :
    ∃ s m hm t hn, x = finite s m hm ∧ y = finite t (m * 2 ^ k) hn ∧ (m = 0 ∨ s = t) := by
  obtain ⟨s, m, hm, rfl⟩ := exists_of_isFinite h.isFinite_left
  obtain ⟨t, n, hn, rfl⟩ := exists_of_isFinite h.isFinite_right
  obtain ⟨i, hi, hin⟩ := h
  obtain rfl : signed s m = i := Option.some.inj hi
  have hsigned : signed s (m * 2 ^ k) = signed t n := by
    rw [signed_mul_natCast]
    push_cast
    exact (Option.some.inj hin).symm
  obtain rfl : m * 2 ^ k = n := by
    have hsize := congrArg Int.natAbs hsigned
    rwa [natAbs_signed, natAbs_signed] at hsize
  refine ⟨s, m, hm, t, hn, rfl, rfl, ?_⟩
  refine (eq_zero_or_eq_of_signed_eq hsigned).imp_left fun hz => ?_
  exact (Nat.mul_eq_zero.mp hz).resolve_right (Nat.two_pow_pos k).ne'

/-- Scaling keeps zeros and makes none. -/
theorem isZero_eq (h : Scaled k x y) : x.isZero = y.isZero := by
  have hp : (2 : ℚ) ^ k ≠ 0 := by positivity
  rw [Bool.eq_iff_iff, ← exact_eq_zero_iff h.isFinite_left, ← exact_eq_zero_iff h.isFinite_right,
    h.exact_eq, mul_eq_zero, or_iff_right hp]

/-- Scaling keeps the sign of what is not negative zero. -/
theorem isNegative_eq (h : Scaled k x y) (hx : x ≠ zero true) (hy : y ≠ zero true) :
    x.isNegative = y.isNegative := by
  obtain ⟨s, m, hm, t, hn, rfl, rfl, rfl | rfl⟩ := h.exists_finite
  · have hpos {u : Bool} {n : ℕ} {hr : F.Represents n} (hz : n = 0)
        (hne : finite u n hr ≠ zero true) : u = false := by
      subst hz
      cases u with
      | false => rfl
      | true => exact absurd rfl hne
    exact (hpos rfl hx).trans (hpos (Nat.zero_mul _) hy).symm
  · rfl

/-- The other signs are scaled alike. -/
theorem neg (h : Scaled k x y) : Scaled k (-x) (-y) := by
  rw [scaled_iff, isFinite_neg, isFinite_neg, exact_neg, exact_neg, h.exact_eq, mul_neg]
  exact ⟨h.isFinite_left, h.isFinite_right, rfl⟩

/-- So are the sizes. -/
theorem abs (h : Scaled k x y) : Scaled k x.abs y.abs := by
  rw [scaled_iff, isFinite_abs, isFinite_abs, exact_abs, exact_abs, h.exact_eq, abs_mul,
    abs_of_pos (by positivity : (0 : ℚ) < 2 ^ k)]
  exact ⟨h.isFinite_left, h.isFinite_right, rfl⟩

/-- And the numbers in a wider format. -/
theorem widen (h : Scaled k x y) (he : F.EmbedsIn G) : Scaled k (x.widen he) (y.widen he) := by
  rw [scaled_iff, isFinite_widen, isFinite_widen, exact_widen, exact_widen]
  exact scaled_iff.mp h

/-- Sums are scaled, however they are rounded. -/
theorem add (hx : Scaled k x x') (hy : Scaled k y y') (h : (x + y).isFinite = true)
    (h' : (x' + y').isFinite = true) : Scaled k (x + y) (x' + y') := by
  obtain ⟨i, hi, hi'⟩ := hx
  obtain ⟨j, hj, hj'⟩ := hy
  refine ⟨_, quanta_add hi hj h, ?_⟩
  rw [quanta_add hi' hj' h', ← add_mul, F.roundQuanta_mul_two_pow]

/-- A running sum of scaled terms is scaled. -/
theorem foldl_add {terms terms' : List (Binary F)} (hterms : List.Forall₂ (Scaled k) terms terms')
    (hstart : Scaled k x x') (h : (terms.foldl (· + ·) x).isFinite = true)
    (h' : (terms'.foldl (· + ·) x').isFinite = true) :
    Scaled k (terms.foldl (· + ·) x) (terms'.foldl (· + ·) x') := by
  induction hterms generalizing x x' with
  | nil => exact hstart
  | cons ht _ ih =>
    exact ih (hstart.add ht (isFinite_start_of_foldl_add _ h) (isFinite_start_of_foldl_add _ h'))
      h h'

/-- Products that clear underflow are scaled by both powers. -/
theorem mul (hx : Scaled j x x') (hy : Scaled k y y') (h : (x * y).isFinite = true)
    (h' : (x' * y').isFinite = true) (hclear : F.ClearsUnderflow (x.exact * y.exact)) :
    Scaled (j + k) (x * y) (x' * y') := by
  obtain ⟨s, m, hm, s', hm', rfl, rfl, hs⟩ := hx.exists_finite
  obtain ⟨t, n, hn, t', hn', rfl, rfl, ht⟩ := hy.exists_finite
  have hfull : m * n = 0 ∨ 2 ^ (F.precision - 1) ≤ m * n / 2 ^ F.quantum := by
    refine eq_zero_or_le_div_of_clears (Nat.two_pow_pos _) ?_
    rw [← clearsUnderflow_abs, abs_mul, abs_exact_finite, abs_exact_finite, div_mul_div_comm,
      ← div_div] at hclear
    push_cast
    exact hclear
  have hround : F.roundMagnitude (m * 2 ^ j * (n * 2 ^ k)) (2 ^ F.quantum) =
      F.roundMagnitude (m * n) (2 ^ F.quantum) * 2 ^ (j + k) := by
    rw [Nat.mul_mul_mul_comm, ← pow_add]
    exact F.roundMagnitude_mul_two_pow (j + k) (Nat.two_pow_pos _) hfull
  -- only products that vanish can change their sign
  have hsign : signed (s' != t') (F.roundMagnitude (m * n) (2 ^ F.quantum)) =
      signed (s != t) (F.roundMagnitude (m * n) (2 ^ F.quantum)) := by
    have hvanish (hz : m * n = 0) (u : Bool) :
        signed u (F.roundMagnitude (m * n) (2 ^ F.quantum)) = 0 := by
      rw [hz, F.roundMagnitude_zero (Nat.two_pow_pos _)]
      exact signed_zero u
    rcases hs with hz | rfl
    · rw [hvanish (by rw [hz, Nat.zero_mul]), hvanish (by rw [hz, Nat.zero_mul])]
    · rcases ht with hz | rfl
      · rw [hvanish (by rw [hz, Nat.mul_zero]), hvanish (by rw [hz, Nat.mul_zero])]
      · rfl
  refine ⟨_, quanta_ofRatio h, (quanta_ofRatio h').trans (congrArg some ?_)⟩
  rw [hround, signed_mul_natCast, hsign]
  push_cast
  rfl

/-- Roots of numbers scaled twice are scaled, in a format with many more quanta than
significant bits. -/
theorem sqrt (hprec : 2 * F.precision ≤ F.quantum) (hx : Scaled (k + k) x y)
    (h : x.sqrt.isFinite = true) (h' : y.sqrt.isFinite = true) : Scaled k x.sqrt y.sqrt := by
  have hq : (2 : ℚ) ^ F.quantum ≠ 0 := by positivity
  obtain ⟨m, hm, hxr⟩ := exists_exact_sqrt h
  obtain ⟨n, hn, hyr⟩ := exists_exact_sqrt h'
  have hmn : n = m * (2 ^ k * 2 ^ k) := by
    have hexact := hx.exact_eq
    rw [hm, hn, ← mul_div_assoc, div_left_inj' hq, pow_add] at hexact
    exact_mod_cast hexact.trans (Rat.mul_comm _ _)
  have hround : F.roundMagnitude (rootQuarters (n * 2 ^ F.quantum)) 4 =
      F.roundMagnitude (rootQuarters (m * 2 ^ F.quantum)) 4 * 2 ^ k := by
    rcases Nat.eq_zero_or_pos m with rfl | hpos
    · have hroot : rootQuarters (0 * 2 ^ F.quantum) = 0 := by
        rw [Nat.zero_mul]
        rfl
      rw [hmn, Nat.zero_mul, hroot, F.roundMagnitude_zero (by omega), Nat.zero_mul]
    · rw [hmn, Nat.mul_right_comm]
      exact F.roundMagnitude_rootQuarters_mul k (two_pow_precision_le_rootQuarters hprec hpos)
  rw [scaled_iff, hxr, hyr, hround]
  refine ⟨h, h', ?_⟩
  push_cast
  ring

/-- Numbers scaled alike under the same signs have the same quotient. -/
theorem div_eq (hx : Scaled k x x') (hy : Scaled k y y') (hsx : x.isNegative = x'.isNegative)
    (hsy : y.isNegative = y'.isNegative) : x / y = x' / y' := by
  obtain ⟨s, m, hm, s', hm', rfl, rfl, -⟩ := hx.exists_finite
  obtain ⟨t, n, hn, t', hn', rfl, rfl, -⟩ := hy.exists_finite
  obtain rfl : s = s' := hsx
  obtain rfl : t = t' := hsy
  have hp : 2 ^ k ≠ 0 := (Nat.two_pow_pos k).ne'
  change Binary.div _ _ = Binary.div _ _
  simp only [Binary.div, Nat.mul_eq_zero, or_iff_left hp]
  rw [Nat.mul_right_comm m, ofRatio_mul_right _ _ _ (Nat.two_pow_pos k)]

end Scaled

end Binary

end VectorDistance
