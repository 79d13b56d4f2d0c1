import Mathlib
import VectorDistance.Proofs.RoundingOrder

/-!
# Sums that need no rounding

So many steps of a grid as a significand holds are a number of the format, on every
grid. Natural numbers up to the size of a significand are of this kind. So are the
partial sums of numbers on one grid whose sizes add up to no more steps, whatever
the signs and however many the numbers are: their sum is exact.
-/

namespace VectorDistance

/-- So many steps of a grid as a significand holds belong to the format. -/
theorem Format.represents_of_dvd {F : Format} {e m : ℕ} (hcap : F.precision + e < F.capacity)
    (hd : 2 ^ e ∣ m) (hm : m ≤ 2 ^ (F.precision + e)) : F.Represents m := by
  refine ⟨?_, hm.trans_lt (Nat.pow_lt_pow_right (by omega) hcap)⟩
  obtain ⟨c, rfl⟩ := hd
  rw [pow_add, Nat.mul_comm] at hm
  rw [Nat.mul_comm]
  exact F.fits_mul_two_pow e (Nat.le_of_mul_le_mul_right hm (Nat.two_pow_pos e))

namespace Binary

variable {F : Format}

/-- Natural numbers up to the size of a significand are numbers of the format. -/
theorem ofNat_of_le {n : ℕ} (hcap : F.precision + F.quantum < F.capacity)
    (h : n ≤ 2 ^ F.precision) :
    ∃ hn, (ofNat n : Binary F) = finite false (n * 2 ^ F.quantum) hn := by
  have hm : n * 2 ^ F.quantum ≤ 2 ^ (F.precision + F.quantum) := by
    rw [pow_add]
    exact Nat.mul_le_mul_right _ h
  exact ⟨_, ofRatio_of_represents false (Format.represents_of_dvd hcap (Nat.dvd_mul_left _ _) hm)⟩

/-- A number of the format that is an integer. -/
structure IsInteger (x : Binary F) (value : ℤ) : Prop where
  /-- The number is finite, and on the grid of the integers. -/
  onGrid : OnGrid F.quantum x
  /-- This is the integer. -/
  exact_eq : x.exact = value

/-- Natural numbers of the format are integers. -/
theorem isInteger_ofNat {n : ℕ} (hcap : F.precision + F.quantum < F.capacity)
    (h : n ≤ 2 ^ F.precision) : IsInteger (ofNat n : Binary F) n := by
  obtain ⟨hn, heq⟩ := ofNat_of_le hcap h
  have hq : (2 : ℚ) ^ F.quantum ≠ 0 := by positivity
  rw [heq]
  refine ⟨Nat.dvd_mul_left _ _, ?_⟩
  rw [exact_finite_false, div_eq_iff hq]
  push_cast
  rfl

/-- So are their negatives. -/
theorem IsInteger.neg {x : Binary F} {value : ℤ} (h : IsInteger x value) :
    IsInteger (-x) (-value) where
  onGrid := h.onGrid.neg
  exact_eq := by rw [exact_neg, h.exact_eq, Int.cast_neg]

/-- A finite number whose value is a whole number of steps of a grid lies on it. -/
theorem onGrid_of_exact {e : ℕ} {x : Binary F} (hx : x.isFinite = true)
    (h : ∃ j : ℤ, x.exact = j * (2 ^ e / 2 ^ F.quantum)) : OnGrid e x := by
  obtain ⟨s, m, hm, rfl⟩ := exists_of_isFinite hx
  obtain ⟨j, hj⟩ := h
  have hq : (2 : ℚ) ^ F.quantum ≠ 0 := by positivity
  have hsteps : signed s m = j * 2 ^ e := by
    rw [exact_finite, ← mul_div_assoc, div_left_inj' hq] at hj
    exact_mod_cast hj
  refine ⟨j.natAbs, ?_⟩
  rw [← natAbs_signed s m, hsteps, Int.natAbs_mul, Int.natAbs_pow, Nat.mul_comm]
  rfl

/-- A factor leaves the sign of a signed natural number as it is. -/
theorem signed_mul_natCast (u : Bool) (m d : ℕ) : signed u (m * d) = signed u m * d := by
  cases u <;> simp [signed]

/-- Signed natural numbers are multiplied with their signs. -/
theorem signed_mul_signed (s t : Bool) (m n : ℕ) :
    signed s m * signed t n = signed (s != t) (m * n) := by
  cases s <;> cases t <;> simp [signed]

/-- A value that is a whole number of steps of a grid, and no more of them than a
significand holds. -/
structure FitsGrid (F : Format) (e : ℕ) (q : ℚ) : Prop where
  /-- The value is a whole number of steps. -/
  multiple : ∃ j : ℤ, q = j * (2 ^ e / 2 ^ F.quantum)
  /-- The significand holds them. -/
  abs_le : |q| ≤ 2 ^ (F.precision + e) / 2 ^ F.quantum

/-- The sign is immaterial. -/
theorem FitsGrid.of_abs {e : ℕ} {q : ℚ} (h : FitsGrid F e |q|) : FitsGrid F e q := by
  obtain ⟨⟨j, hj⟩, hle⟩ := h
  refine ⟨?_, by rwa [abs_abs] at hle⟩
  rcases abs_choice q with hq | hq
  · exact ⟨j, by rw [← hq, hj]⟩
  · exact ⟨-j, by push_cast; linear_combination hq - hj⟩

/-- A rounded quotient of that many quanta is not rounded at all. -/
theorem FitsGrid.ofRatio_eq {e : ℕ} {q : ℚ} (h : FitsGrid F e q)
    (hcap : F.precision + e < F.capacity) {num den : ℕ} (hden : 0 < den) {u : Bool}
    (hnum : q = ((signed u num : ℤ) : ℚ) / den / 2 ^ F.quantum) :
    (ofRatio u num den : Binary F).isFinite = true ∧ (ofRatio u num den : Binary F).exact = q := by
  obtain ⟨⟨j, hj⟩, hle⟩ := h
  have hq : (0 : ℚ) < 2 ^ F.quantum := by positivity
  have hd : (0 : ℚ) < den := by exact_mod_cast hden
  have hsigned : signed u num = j * 2 ^ e * den := by
    rw [hj, ← mul_div_assoc, div_left_inj' hq.ne', eq_div_iff hd.ne'] at hnum
    exact_mod_cast hnum.symm
  have hnat : num = j.natAbs * 2 ^ e * den := by
    rw [← natAbs_signed u num, hsigned, Int.natAbs_mul, Int.natAbs_mul, Int.natAbs_pow]
    rfl
  have hsize : j.natAbs * 2 ^ e ≤ 2 ^ (F.precision + e) := by
    rw [hj, ← mul_div_assoc, abs_div, abs_of_pos hq, div_le_div_iff_of_pos_right hq, abs_mul,
      abs_of_pos (by positivity : (0 : ℚ) < 2 ^ e), ← Int.cast_abs, Int.abs_eq_natAbs] at hle
    exact_mod_cast hle
  have hrep := Format.represents_of_dvd hcap (Nat.dvd_mul_left _ _) hsize
  have heq : (ofRatio u num den : Binary F) = finite u (j.natAbs * 2 ^ e) hrep := by
    calc (ofRatio u num den : Binary F)
        = ofRatio u (j.natAbs * 2 ^ e * den) (1 * den) := by rw [← hnat, Nat.one_mul]
      _ = ofRatio u (j.natAbs * 2 ^ e) 1 := ofRatio_mul_right u _ _ hden
      _ = finite u (j.natAbs * 2 ^ e) hrep := ofRatio_of_represents u hrep
  have hsteps : signed u (j.natAbs * 2 ^ e) = j * 2 ^ e := by
    have hden0 : (den : ℤ) ≠ 0 := by exact_mod_cast hden.ne'
    refine mul_right_cancel₀ hden0 ?_
    rw [← signed_mul_natCast, ← hnat, hsigned]
  rw [heq]
  refine ⟨rfl, ?_⟩
  rw [exact_finite, hsteps, hj]
  push_cast
  exact mul_div_assoc _ _ _

/-- A sum that fits a grid is exact. -/
theorem FitsGrid.add_exact {e : ℕ} {x y : Binary F} (h : FitsGrid F e (x.exact + y.exact))
    (hx : x.isFinite = true) (hy : y.isFinite = true) (hcap : F.precision + e < F.capacity) :
    (x + y).isFinite = true ∧ (x + y).exact = x.exact + y.exact := by
  obtain ⟨s, m, hm, rfl⟩ := exists_of_isFinite hx
  obtain ⟨t, n, hn, rfl⟩ := exists_of_isFinite hy
  obtain ⟨u, hu, -, hadd⟩ := exists_finite_add s t hm hn
  rw [hadd]
  refine h.ofRatio_eq hcap Nat.one_pos ?_
  rw [hu, Nat.cast_one, div_one, exact_finite, exact_finite, ← add_div]
  push_cast
  rfl

/-- So is a difference. -/
theorem FitsGrid.sub_exact {e : ℕ} {x y : Binary F} (h : FitsGrid F e (x.exact - y.exact))
    (hx : x.isFinite = true) (hy : y.isFinite = true) (hcap : F.precision + e < F.capacity) :
    (x - y).isFinite = true ∧ (x - y).exact = x.exact - y.exact := by
  rw [sub_eq_add_neg, ← exact_neg] at h ⊢
  exact h.add_exact hx ((isFinite_neg y).trans hy) hcap

/-- A product that fits a grid is exact. -/
theorem FitsGrid.mul_exact {e : ℕ} {x y : Binary F} (h : FitsGrid F e (x.exact * y.exact))
    (hx : x.isFinite = true) (hy : y.isFinite = true) (hcap : F.precision + e < F.capacity) :
    (x * y).isFinite = true ∧ (x * y).exact = x.exact * y.exact := by
  obtain ⟨s, m, hm, rfl⟩ := exists_of_isFinite hx
  obtain ⟨t, n, hn, rfl⟩ := exists_of_isFinite hy
  change (ofRatio (s != t) (m * n) (2 ^ F.quantum) : Binary F).isFinite = true ∧
    (ofRatio (s != t) (m * n) (2 ^ F.quantum) : Binary F).exact = _
  refine h.ofRatio_eq hcap (Nat.two_pow_pos _) ?_
  rw [exact_finite, exact_finite, div_mul_div_comm, div_div, ← signed_mul_signed]
  push_cast
  rfl

/-- A sum of numbers on a grid that takes no more steps than a significand holds is
exact and on the grid. -/
theorem OnGrid.add_exact {e : ℕ} {x y : Binary F} (hx : OnGrid e x) (hy : OnGrid e y)
    (hcap : F.precision + e < F.capacity)
    (h : |x.exact + y.exact| ≤ 2 ^ (F.precision + e) / 2 ^ F.quantum) :
    OnGrid e (x + y) ∧ (x + y).exact = x.exact + y.exact := by
  obtain ⟨i, hi⟩ := hx.exact_eq
  obtain ⟨j, hj⟩ := hy.exact_eq
  have hmultiple : ∃ k : ℤ, x.exact + y.exact = k * (2 ^ e / 2 ^ F.quantum) :=
    ⟨i + j, by rw [hi, hj]; push_cast; ring⟩
  obtain ⟨hfinite, hexact⟩ :=
    FitsGrid.add_exact ⟨hmultiple, h⟩ hx.isFinite hy.isFinite hcap
  exact ⟨onGrid_of_exact hfinite (hexact ▸ hmultiple), hexact⟩

/-- A running sum of numbers on a grid is exact, if all sizes together take no more
steps than a significand holds. -/
theorem foldl_add_exact {e : ℕ} (hcap : F.precision + e < F.capacity) {start : Binary F}
    {terms : List (Binary F)} (hstart : OnGrid e start) (hterms : ∀ t ∈ terms, OnGrid e t)
    (h : sumOfSizes start terms ≤ 2 ^ (F.precision + e) / 2 ^ F.quantum) :
    OnGrid e (terms.foldl (· + ·) start) ∧
      (terms.foldl (· + ·) start).exact = start.exact + (terms.map exact).sum := by
  induction terms generalizing start with
  | nil => exact ⟨hstart, by simp⟩
  | cons t terms ih =>
    obtain ⟨ht, hrest⟩ := List.forall_mem_cons.mp hterms
    have hR := sum_abs_nonneg exact terms
    have hsize := abs_add_le start.exact t.exact
    simp only [sumOfSizes, List.map_cons, List.sum_cons] at h
    obtain ⟨hgrid, hexact⟩ := hstart.add_exact ht hcap (by linarith)
    have hnext : sumOfSizes (start + t) terms ≤ 2 ^ (F.precision + e) / 2 ^ F.quantum := by
      rw [sumOfSizes, hexact]
      linarith
    obtain ⟨hgrids, hsum⟩ := ih hgrid hrest hnext
    rw [List.foldl_cons, List.map_cons, List.sum_cons, ← add_assoc, ← hexact]
    exact ⟨hgrids, hsum⟩

end Binary

open Binary in
/-- A plain sum of 32-bit numbers on a grid is exact, if all sizes together take no
more steps than a significand holds. -/
theorem sumSingles_exact {e : ℕ} (hcap : Format.single.precision + e < Format.single.capacity)
    {terms : List Single} (hterms : ∀ t ∈ terms, OnGrid e t)
    (h : (terms.map fun t => |t.exact|).sum ≤
      2 ^ (Format.single.precision + e) / 2 ^ Format.single.quantum) :
    OnGrid e (sumSingles terms) ∧ (sumSingles terms).exact = (terms.map exact).sum := by
  have hsizes : sumOfSizes (zero true) terms = (terms.map fun t => |t.exact|).sum := by
    rw [sumOfSizes, exact_zero, abs_zero, zero_add]
  obtain ⟨hgrid, hexact⟩ :=
    foldl_add_exact hcap (onGrid_zero e true) hterms (hsizes.trans_le h)
  rw [exact_zero, zero_add] at hexact
  exact ⟨hgrid, hexact⟩

/-- Integers fit the 32-bit format as long as they fit its significand. -/
theorem Format.single_room : single.precision + single.quantum < single.capacity := by decide

open Binary in
/-- A plain sum of integers whose sizes add up to no more than a significand holds
is their sum. -/
theorem sumSingles_isInteger {ι : Type*} {l : List ι} {term : ι → Single} {value : ι → ℤ}
    (hterm : ∀ i ∈ l, IsInteger (term i) (value i))
    (hsize : (l.map fun i => |value i|).sum ≤ 2 ^ Format.single.precision) :
    IsInteger (sumSingles (l.map term)) (l.map value).sum := by
  have hgrid : ∀ t ∈ l.map term, OnGrid Format.single.quantum t := by
    intro t ht
    obtain ⟨i, hi, rfl⟩ := List.mem_map.mp ht
    exact (hterm i hi).onGrid
  have hexacts : (l.map term).map exact = (l.map value).map ((↑) : ℤ → ℚ) := by
    rw [List.map_map, List.map_map]
    exact List.map_congr_left fun i hi => (hterm i hi).exact_eq
  have hsizes : ((l.map term).map fun t => |t.exact|) =
      (l.map fun i => |value i|).map ((↑) : ℤ → ℚ) := by
    rw [List.map_map, List.map_map]
    refine List.map_congr_left fun i hi => ?_
    rw [Function.comp_apply, Function.comp_apply, (hterm i hi).exact_eq, Int.cast_abs]
  have hfit : ((l.map term).map fun t => |t.exact|).sum ≤
      2 ^ (Format.single.precision + Format.single.quantum) / 2 ^ Format.single.quantum := by
    rw [hsizes, ← Int.cast_list_sum, pow_add, mul_div_cancel_right₀ _ (by positivity)]
    exact_mod_cast hsize
  obtain ⟨hgrids, hsum⟩ := sumSingles_exact Format.single_room hgrid hfit
  exact ⟨hgrids, by rw [hsum, hexacts, Int.cast_list_sum]⟩

end VectorDistance
