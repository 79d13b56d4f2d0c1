import Mathlib
import VectorDistance.Proofs.KernelError
import VectorDistance.Proofs.QuotientError

/-!
# The sums behind a cosine and their quotient

The three sums of a cosine are rounded independently of each other. Products of
halves are exact in the 32-bit format and the first addition to zero is exact,
so that a sum over `dimension` pairs makes `dimension - 1` roundings. The 64-bit
format then has room for the roots of the norms, their product and the
quotient: each of them clears underflow and stays far below the reach, and the
cosine is within six roundoffs of the exact quotient of the three sums.
-/

namespace VectorDistance

/-- The Cauchy-Schwarz inequality for two values on the elements of a list. -/
theorem sum_abs_mul_sq_le {ι : Type*} (f g : ι → ℚ) (l : List ι) :
    (l.map fun i => |f i * g i|).sum ^ 2 ≤
      (l.map fun i => f i ^ 2).sum * (l.map fun i => g i ^ 2).sum := by
  induction l with
  | nil => simp
  | cons i l ih =>
    simp only [List.map_cons, List.sum_cons]
    set S := (l.map fun i => |f i * g i|).sum
    set A := (l.map fun i => f i ^ 2).sum
    set B := (l.map fun i => g i ^ 2).sum
    have hS : 0 ≤ S := Binary.sum_abs_nonneg _ l
    have hA : 0 ≤ A := List.sum_nonneg (by simp [sq_nonneg])
    have hB : 0 ≤ B := List.sum_nonneg (by simp [sq_nonneg])
    have hf := sq_abs (f i)
    have hg := sq_abs (g i)
    rw [abs_mul, ← hf, ← hg]
    set x := |f i|
    set y := |g i|
    have hx : 0 ≤ x := abs_nonneg _
    have hy : 0 ≤ y := abs_nonneg _
    -- twice the mixed term is at most the sum of the crossed products
    have hcross : 2 * (S * (x * y)) ≤ A * y ^ 2 + B * x ^ 2 := by
      have hsq : (2 * (S * (x * y))) ^ 2 ≤ (A * y ^ 2 + B * x ^ 2) ^ 2 := by
        calc (2 * (S * (x * y))) ^ 2 = 4 * (S ^ 2 * (x * y) ^ 2) := by ring
          _ ≤ 4 * (A * B * (x * y) ^ 2) := by
            exact mul_le_mul_of_nonneg_left (mul_le_mul_of_nonneg_right ih (sq_nonneg _))
              (by norm_num)
          _ = (A * y ^ 2 + B * x ^ 2) ^ 2 - (A * y ^ 2 - B * x ^ 2) ^ 2 := by ring
          _ ≤ (A * y ^ 2 + B * x ^ 2) ^ 2 := sub_le_self _ (sq_nonneg _)
      exact (abs_le_of_sq_le_sq' hsq (by positivity)).2
    calc (x * y + S) ^ 2 = S ^ 2 + 2 * (S * (x * y)) + x ^ 2 * y ^ 2 := by ring
      _ ≤ A * B + (A * y ^ 2 + B * x ^ 2) + x ^ 2 * y ^ 2 := by linarith
      _ = (x ^ 2 + A) * (y ^ 2 + B) := by ring

namespace HalfKernels

open Binary

/-! ## The three sums -/

/-- Square of the left element of a pair. -/
def leftTerm (p : Half × Half) : Single := p.1.decode.square

/-- Square of the right element of a pair. -/
def rightTerm (p : Half × Half) : Single := p.2.decode.square

/-- The three sums of a cosine run side by side. -/
theorem foldl_push (pairs : List (Half × Half)) (sums : CosineSums) :
    pairs.foldl (fun sums p => sums.push p.1 p.2) sums =
      ⟨(pairs.map productTerm).foldl (· + ·) sums.dot,
        (pairs.map leftTerm).foldl (· + ·) sums.leftNorm,
        (pairs.map rightTerm).foldl (· + ·) sums.rightNorm⟩ := by
  induction pairs generalizing sums with
  | nil => rfl
  | cons p pairs ih => exact ih (sums.push p.1 p.2)

/-- The three sums of a cosine add up terms from zero. -/
theorem ofVectors_eq (a b : HalfVector) :
    CosineSums.ofVectors a b =
      ⟨((a.zip b).map productTerm).foldl (· + ·) (zero false),
        ((a.zip b).map leftTerm).foldl (· + ·) (zero false),
        ((a.zip b).map rightTerm).foldl (· + ·) (zero false)⟩ :=
  foldl_push (a.zip b) CosineSums.start

/-- A sum of exact products over pairs of a dimension in range. -/
theorem exactTerms_sum {l : List (Half × Half)} {term : Half × Half → Single}
    {value : Half × Half → ℚ} (hlen : l.length ≤ maxDimension)
    (hgrid : ∀ p ∈ l, OnGrid 101 (term p)) (hexact : ∀ p ∈ l, (term p).exact = value p)
    (hsize : ∀ p ∈ l, |value p| ≤ 2 ^ 34) :
    OnGrid 101 ((l.map term).foldl (· + ·) (zero false)) ∧
      |((l.map term).foldl (· + ·) (zero false)).exact - (l.map value).sum| ≤
        (Format.single.growth (l.length - 1) - 1) * (l.map fun p => |value p|).sum ∧
      (l.map fun p => |value p|).sum ≤ maxDimension * 2 ^ 34 := by
  have hvalues : (l.map term).map exact = l.map value := by
    rw [List.map_map]
    exact List.map_congr_left hexact
  have hsizes : ((l.map term).map fun t => |t.exact|) = l.map fun p => |value p| := by
    rw [List.map_map]
    exact List.map_congr_left fun p hp => by rw [Function.comp_apply, hexact p hp]
  have hsum := sum_abs_le_of_forall hlen hsize
  have hterms : ∀ t ∈ l.map term, OnGrid 101 t := by
    intro t ht
    obtain ⟨p, hp, rfl⟩ := List.mem_map.mp ht
    exact hgrid p hp
  have hroom : Format.single.growth ((l.map term).length - 1) *
      ((l.map term).map fun t => |t.exact|).sum < Format.single.reach := by
    have hg := growth_le (by omega : l.length - 1 ≤ maxDimension + 3)
    rw [hsizes, List.length_map, Format.reach_single]
    calc Format.single.growth (l.length - 1) * (l.map fun p => |value p|).sum
        ≤ 2 * (maxDimension * 2 ^ 34) :=
          mul_le_mul (by linarith) hsum (sum_abs_nonneg value l) (by norm_num)
      _ < 2 ^ 127 := by norm_num [maxDimension]
  obtain ⟨hon, herr⟩ := foldl_add_zero_error false hterms hroom
  rw [hvalues, hsizes, List.length_map] at herr
  exact ⟨hon, herr, hsum⟩

/-! ## The quotient -/

namespace CosineSums

/-- Sums that are neither zero norms nor anywhere near the ends of a format. -/
structure Usable (sums : CosineSums) : Prop where
  /-- The dot product is a multiple of `2 ^ -48`. -/
  dot : OnGrid 101 sums.dot
  /-- The left norm is a multiple of `2 ^ -48`. -/
  leftNorm : OnGrid 101 sums.leftNorm
  /-- The right norm is a multiple of `2 ^ -48`. -/
  rightNorm : OnGrid 101 sums.rightNorm
  /-- The dot product is small against the reach. -/
  dot_le : |sums.dot.exact| ≤ 2 ^ 60
  /-- The left norm is positive. -/
  leftNorm_pos : 0 < sums.leftNorm.exact
  /-- The left norm is small against the reach. -/
  leftNorm_le : sums.leftNorm.exact ≤ 2 ^ 60
  /-- The right norm is positive. -/
  rightNorm_pos : 0 < sums.rightNorm.exact
  /-- The right norm is small against the reach. -/
  rightNorm_le : sums.rightNorm.exact ≤ 2 ^ 60

/-- The rounded product of the rounded roots of both norms. -/
def roots (sums : CosineSums) : Double :=
  sums.leftNorm.toDouble.sqrt * sums.rightNorm.toDouble.sqrt

/-- The midpoint after the last number of the 64-bit format up to `1 + 10 ^ -5`. -/
def limit : ℚ := (2 * 4503644663366769 + 1) / 2 ^ 53

/-- How a computed cosine lies to the three sums behind it. -/
structure Encloses (sums : CosineSums) (s : Double) : Prop where
  /-- The cosine is finite. -/
  isFinite : s.isFinite = true
  /-- It carries the sign of the dot product. -/
  nonneg : 0 ≤ sums.dot.exact → 0 ≤ s.exact
  /-- It is at most six roundoffs above the quotient of the sums. -/
  upper : s.exact ^ 2 * (sums.leftNorm.exact * sums.rightNorm.exact) *
    (1 - Format.double.roundoff) ^ 6 ≤ sums.dot.exact ^ 2 * (1 + Format.double.roundoff) ^ 6
  /-- It is at most six roundoffs below the quotient of the sums. -/
  lower : sums.dot.exact ^ 2 * (1 - Format.double.roundoff) ^ 6 ≤
    s.exact ^ 2 * (sums.leftNorm.exact * sums.rightNorm.exact) *
      (1 + Format.double.roundoff) ^ 6
  /-- It leaves the range exactly when the dot product reaches the limit. -/
  within_iff : |s.exact| ≤ 1 + 1 / 10 ^ 5 ↔ |sums.dot.exact| < limit * sums.roots.exact

end CosineSums

/-- Roots of positive sums are accurate and of moderate size. -/
theorem sqrt_toDouble {x : Single} (hx : OnGrid 101 x) (hpos : 0 < x.exact)
    (hle : x.exact ≤ 2 ^ 60) :
    x.toDouble.sqrt.isFinite = true ∧ 1 / 2 ^ 25 ≤ x.toDouble.sqrt.exact ∧
      x.toDouble.sqrt.exact ≤ 2 ^ 31 ∧
      x.exact * (1 - Format.double.roundoff) ^ 2 ≤
        x.toDouble.sqrt.exact ^ 2 * (1 + Format.double.roundoff) ^ 2 ∧
      x.toDouble.sqrt.exact ^ 2 * (1 - Format.double.roundoff) ^ 2 ≤
        x.exact * (1 + Format.double.roundoff) ^ 2 := by
  have hval := exact_toDouble x
  have hfin : x.toDouble.isFinite = true := x.isFinite_toDouble.trans hx.isFinite
  obtain ⟨hroot, hrpos, hlo, hhi⟩ := sqrt_bounds (by decide) (by decide) hfin (hval ▸ hpos)
  rw [hval] at hlo hhi
  have hstep : 1 / 2 ^ 48 ≤ x.exact := by
    rcases hx.eq_zero_or_le_abs with h | h
    · exact absurd h hpos.ne'
    · rw [abs_of_pos hpos, Format.quantum_single] at h
      norm_num at h ⊢
      exact h
  rw [Format.roundoff_double] at hlo hhi ⊢
  refine ⟨hroot, ?_, ?_, hlo, hhi⟩
  · refine le_of_sq_le_sq ?_ hrpos.le
    norm_num at hlo hstep ⊢
    linarith
  · refine le_of_sq_le_sq ?_ (by positivity)
    norm_num at hhi hle ⊢
    linarith

/-- Of factors within two and one roundoffs the products are within their sum. -/
theorem scaled_le {c d e f v : ℚ} (hv1 : v < 1) (hv : 0 < v) (hd : 0 ≤ d)
    (he : 0 ≤ e) (h1 : c * (1 - v) ^ 2 ≤ d * (1 + v) ^ 2)
    (h2 : e * (1 - v) ^ 2 ≤ f * (1 + v) ^ 2) :
    c * e * (1 - v) ^ 4 ≤ d * f * (1 + v) ^ 4 := by
  calc c * e * (1 - v) ^ 4 = c * (1 - v) ^ 2 * (e * (1 - v) ^ 2) := by ring
    _ ≤ d * (1 + v) ^ 2 * (f * (1 + v) ^ 2) :=
      mul_le_mul h1 h2 (by positivity) (by positivity)
    _ = d * f * (1 + v) ^ 4 := by ring

variable {sums : CosineSums}

/-- Neither root of usable sums is small. -/
theorem le_mul_sqrt (h : sums.Usable) :
    1 / 2 ^ 50 ≤ sums.leftNorm.toDouble.sqrt.exact * sums.rightNorm.toDouble.sqrt.exact := by
  obtain ⟨-, hplo, -⟩ := sqrt_toDouble h.leftNorm h.leftNorm_pos h.leftNorm_le
  obtain ⟨-, hqlo, -⟩ := sqrt_toDouble h.rightNorm h.rightNorm_pos h.rightNorm_le
  calc (1 : ℚ) / 2 ^ 50 = 1 / 2 ^ 25 * (1 / 2 ^ 25) := by norm_num
    _ ≤ _ := mul_le_mul hplo hqlo (by positivity) (le_trans (by positivity) hplo)

/-- So their product clears underflow in the 64-bit format. -/
theorem clearsUnderflow_roots (h : sums.Usable) : Format.double.ClearsUnderflow
    (sums.leftNorm.toDouble.sqrt.exact * sums.rightNorm.toDouble.sqrt.exact) := by
  refine Or.inr ?_
  rw [Format.leastNormal_double]
  calc (1 : ℚ) / 2 ^ 1022 ≤ 1 / 2 ^ 50 :=
        one_div_le_one_div_of_le (by positivity) (pow_le_pow_right₀ one_le_two (by norm_num))
    _ ≤ _ := le_mul_sqrt h
    _ ≤ _ := le_abs_self _

/-- The product of the roots is accurate and of moderate size. -/
theorem roots_bounds (h : sums.Usable) :
    sums.roots.isFinite = true ∧ 1 / 2 ^ 51 ≤ sums.roots.exact ∧ sums.roots.exact ≤ 2 ^ 63 ∧
      sums.leftNorm.exact * sums.rightNorm.exact * (1 - Format.double.roundoff) ^ 6 ≤
        sums.roots.exact ^ 2 * (1 + Format.double.roundoff) ^ 4 ∧
      sums.roots.exact ^ 2 * (1 - Format.double.roundoff) ^ 4 ≤
        sums.leftNorm.exact * sums.rightNorm.exact * (1 + Format.double.roundoff) ^ 6 := by
  obtain ⟨hpf, hplo, hphi, hp1, hp2⟩ := sqrt_toDouble h.leftNorm h.leftNorm_pos h.leftNorm_le
  obtain ⟨hqf, hqlo, hqhi, hq1, hq2⟩ := sqrt_toDouble h.rightNorm h.rightNorm_pos h.rightNorm_le
  have hA := h.leftNorm_pos
  have hB := h.rightNorm_pos
  set A := sums.leftNorm.exact
  set B := sums.rightNorm.exact
  set p := sums.leftNorm.toDouble.sqrt.exact
  set q := sums.rightNorm.toDouble.sqrt.exact
  have hv := Format.double.roundoff_pos
  have hv1 := Format.double.roundoff_lt_one
  set v := Format.double.roundoff with hvdef
  have hp0 : 0 < p := lt_of_lt_of_le (by positivity) hplo
  have hq0 : 0 < q := lt_of_lt_of_le (by positivity) hqlo
  have hpqlo : 1 / 2 ^ 50 ≤ p * q := le_mul_sqrt h
  have hpqhi : p * q ≤ 2 ^ 62 := by
    calc p * q ≤ 2 ^ 31 * 2 ^ 31 := mul_le_mul hphi hqhi hq0.le (by positivity)
      _ = 2 ^ 62 := by norm_num
  have habs : |p * q| = p * q := abs_of_pos (mul_pos hp0 hq0)
  obtain ⟨hfin, herr⟩ := mul_approximates hpf hqf (clearsUnderflow_roots h)
    (by
      rw [Format.reach_double, habs]
      refine lt_of_le_of_lt hpqhi ?_
      exact pow_lt_pow_right₀ one_lt_two (by norm_num))
  change |sums.roots.exact - p * q| ≤ |p * q| * v at herr
  rw [habs] at herr
  obtain ⟨hlo, hhi⟩ := abs_le.mp herr
  have hlo' : p * q * (1 - v) ≤ sums.roots.exact := by linarith
  have hhi' : sums.roots.exact ≤ p * q * (1 + v) := by linarith
  have hpq : 0 < p * q := mul_pos hp0 hq0
  have hv2 : v ≤ 1 / 2 := by
    rw [hvdef, Format.roundoff_double]
    norm_num
  have hhalf : p * q * (1 / 2) ≤ sums.roots.exact :=
    (mul_le_mul_of_nonneg_left (by linarith) hpq.le).trans hlo'
  have htwice : sums.roots.exact ≤ p * q * 2 :=
    hhi'.trans (mul_le_mul_of_nonneg_left (by linarith) hpq.le)
  have hr0 : 0 < sums.roots.exact := lt_of_lt_of_le (by linarith) hhalf
  refine ⟨hfin, by norm_num at hpqlo ⊢; linarith, by norm_num at hpqhi ⊢; linarith, ?_, ?_⟩
  · calc A * B * (1 - v) ^ 6 = A * B * (1 - v) ^ 4 * (1 - v) ^ 2 := by ring
      _ ≤ p ^ 2 * q ^ 2 * (1 + v) ^ 4 * (1 - v) ^ 2 :=
        mul_le_mul_of_nonneg_right (scaled_le hv1 hv (sq_nonneg p) hB.le hp1 hq1) (sq_nonneg _)
      _ = (p * q * (1 - v)) ^ 2 * (1 + v) ^ 4 := by ring
      _ ≤ sums.roots.exact ^ 2 * (1 + v) ^ 4 :=
        mul_le_mul_of_nonneg_right
          (pow_le_pow_left₀ (mul_nonneg hpq.le (by linarith)) hlo' 2) (by positivity)
  · calc sums.roots.exact ^ 2 * (1 - v) ^ 4
        ≤ (p * q * (1 + v)) ^ 2 * (1 - v) ^ 4 :=
          mul_le_mul_of_nonneg_right (pow_le_pow_left₀ hr0.le hhi' 2) (by positivity)
      _ = p ^ 2 * q ^ 2 * (1 - v) ^ 4 * (1 + v) ^ 2 := by ring
      _ ≤ A * B * (1 + v) ^ 4 * (1 + v) ^ 2 :=
        mul_le_mul_of_nonneg_right (scaled_le hv1 hv hA.le (sq_nonneg q) hp2 hq2) (sq_nonneg _)
      _ = A * B * (1 + v) ^ 6 := by ring

/-- A quotient of the 64-bit format stays within `1 + 10 ^ -5` as long as the
exact quotient stays before the midpoint that follows. -/
theorem abs_div_within_iff {x y : Double} (hx : x.isFinite = true) (hy : y.isFinite = true)
    (hy0 : 0 < y.exact) (hxy : (x / y).isFinite = true) :
    |(x / y).exact| ≤ 1 + 1 / 10 ^ 5 ↔ |x.exact| < CosineSums.limit * y.exact := by
  have hq : (2 : ℚ) ^ 1074 = 2 ^ 52 * 2 ^ 1022 := by rw [← pow_add]
  have hp : (0 : ℚ) < 2 ^ 1022 := by positivity
  have hiff := abs_div_le_iff hx hy hy0.ne' hxy 4503644663366769 1022 (1 + 1 / 10 ^ 5)
    (by decide) (by decide) (by decide) (by decide)
    (by
      rw [Format.quantum_double, hq, mul_div_mul_right _ _ hp.ne']
      norm_num)
    (by
      rw [Format.quantum_double, hq, mul_div_mul_right _ _ hp.ne']
      norm_num)
  rw [hiff, Format.quantum_double, hq, abs_of_pos hy0, CosineSums.limit, div_mul_eq_mul_div,
    lt_div_iff₀ (by positivity)]
  generalize (2 : ℚ) ^ 1022 = p at hp
  have hl : 2 * |x.exact| * (2 ^ 52 * p) = |x.exact| * 2 ^ 53 * p := by ring
  have hr : (2 * (4503644663366769 : ℕ) + 1 : ℚ) * p * y.exact =
      (2 * 4503644663366769 + 1) * y.exact * p := by
    push_cast
    ring
  rw [hl, hr, mul_lt_mul_iff_left₀ hp]

/-- The quotient behind a cosine is finite and off by one roundoff. -/
theorem quotient_approximates (h : sums.Usable) :
    (sums.dot.toDouble / sums.roots).Approximates (sums.dot.exact / sums.roots.exact) := by
  obtain ⟨hrf, hrlo, hrhi, -, -⟩ := roots_bounds h
  have hr0 : 0 < sums.roots.exact := lt_of_lt_of_le (by positivity) hrlo
  have hdval := exact_toDouble sums.dot
  have hdf : sums.dot.toDouble.isFinite = true := (isFinite_toDouble _).trans h.dot.isFinite
  have hstep : sums.dot.exact = 0 ∨ 1 / 2 ^ 48 ≤ |sums.dot.exact| := by
    refine h.dot.eq_zero_or_le_abs.imp_right (le_trans ?_)
    norm_num [Format.quantum_single]
  have hquot : |sums.dot.exact / sums.roots.exact| = |sums.dot.exact| / sums.roots.exact := by
    rw [abs_div, abs_of_pos hr0]
  have hclear : Format.double.ClearsUnderflow (sums.dot.exact / sums.roots.exact) := by
    refine hstep.imp (fun hz => by rw [hz, zero_div]) fun hd => ?_
    rw [hquot, Format.leastNormal_double]
    calc (1 : ℚ) / 2 ^ 1022 ≤ 1 / 2 ^ 111 :=
          one_div_le_one_div_of_le (by positivity) (pow_le_pow_right₀ one_le_two (by norm_num))
      _ = 1 / 2 ^ 48 / 2 ^ 63 := by norm_num
      _ ≤ |sums.dot.exact| / sums.roots.exact :=
          div_le_div₀ (abs_nonneg _) hd hr0 hrhi
  have hreach : |sums.dot.exact / sums.roots.exact| < Format.double.reach := by
    rw [hquot, Format.reach_double]
    calc |sums.dot.exact| / sums.roots.exact ≤ 2 ^ 60 / (1 / 2 ^ 51) :=
          div_le_div₀ (by positivity) h.dot_le (by positivity) hrlo
      _ = 2 ^ 111 := by norm_num
      _ < 2 ^ 1023 := pow_lt_pow_right₀ one_lt_two (by norm_num)
  rw [← hdval] at hclear hreach ⊢
  exact div_approximates hdf hrf hr0.ne' hclear hreach

/-- Usable sums have a cosine, their quotient. -/
theorem similarity_eq (h : sums.Usable) :
    sums.similarity = .ok (sums.dot.toDouble / sums.roots) := by
  have hzero : ¬(sums.leftNorm.isZero || sums.rightNorm.isZero) = true := by
    rw [Bool.or_eq_true, ← exact_eq_zero_iff h.leftNorm.isFinite,
      ← exact_eq_zero_iff h.rightNorm.isFinite]
    exact not_or.mpr ⟨h.leftNorm_pos.ne', h.rightNorm_pos.ne'⟩
  rw [CosineSums.similarity, if_neg hzero, CosineSums.roots]

/-- A quotient within one roundoff, multiplied out and squared. -/
theorem sq_mul_bounds {s d r v : ℚ} (hr : 0 < r) (hv : 0 < v) (hv1 : v < 1)
    (h : |s - d / r| ≤ |d / r| * v) :
    (s * r) ^ 2 ≤ (d * (1 + v)) ^ 2 ∧ (d * (1 - v)) ^ 2 ≤ (s * r) ^ 2 := by
  have hmul : |s * r - d| ≤ |d| * v := by
    have hsplit : s * r - d = (s - d / r) * r := by rw [sub_mul, div_mul_cancel₀ d hr.ne']
    rw [abs_div, abs_of_pos hr] at h
    rw [hsplit, abs_mul, abs_of_pos hr]
    calc |s - d / r| * r ≤ |d| / r * v * r := mul_le_mul_of_nonneg_right h hr.le
      _ = |d| * v := by field_simp
  constructor
  · refine sq_le_sq.mpr ?_
    rw [abs_mul d, abs_of_pos (by linarith : 0 < 1 + v)]
    linarith [abs_sub_abs_le_abs_sub (s * r) d]
  · refine sq_le_sq.mpr ?_
    rw [abs_mul d, abs_of_pos (by linarith : 0 < 1 - v)]
    linarith [abs_sub_abs_le_abs_sub d (s * r), abs_sub_comm (s * r) d]

/-- Usable sums have a cosine, which lies close to their quotient. -/
theorem similarity_encloses (h : sums.Usable) :
    ∃ s, sums.similarity = .ok s ∧ sums.Encloses s := by
  obtain ⟨hrf, hrlo, -, hr1, hr2⟩ := roots_bounds h
  have hr0 : 0 < sums.roots.exact := lt_of_lt_of_le (by positivity) hrlo
  have hdf : sums.dot.toDouble.isFinite = true := (isFinite_toDouble _).trans h.dot.isFinite
  obtain ⟨hfin, herr⟩ := quotient_approximates h
  have hiff := abs_div_within_iff hdf hrf hr0 hfin
  rw [exact_toDouble] at hiff
  have hv := Format.double.roundoff_pos
  have hv1 := Format.double.roundoff_lt_one
  obtain ⟨hupper, hlower⟩ := sq_mul_bounds hr0 hv hv1 herr
  set s := sums.dot.toDouble / sums.roots
  set D := sums.dot.exact
  set r := sums.roots.exact
  set v := Format.double.roundoff
  refine ⟨s, similarity_eq h, hfin, fun hD => ?_, ?_, ?_, hiff⟩
  · have hquot : 0 ≤ D / r := div_nonneg hD hr0.le
    rw [abs_of_nonneg hquot] at herr
    nlinarith [(abs_le.mp herr).1]
  · calc s.exact ^ 2 * (sums.leftNorm.exact * sums.rightNorm.exact) * (1 - v) ^ 6
        = s.exact ^ 2 * (sums.leftNorm.exact * sums.rightNorm.exact * (1 - v) ^ 6) := by ring
      _ ≤ s.exact ^ 2 * (r ^ 2 * (1 + v) ^ 4) := mul_le_mul_of_nonneg_left hr1 (sq_nonneg _)
      _ = (s.exact * r) ^ 2 * (1 + v) ^ 4 := by ring
      _ ≤ (D * (1 + v)) ^ 2 * (1 + v) ^ 4 :=
        mul_le_mul_of_nonneg_right hupper (pow_nonneg (by linarith) 4)
      _ = D ^ 2 * (1 + v) ^ 6 := by ring
  · calc D ^ 2 * (1 - v) ^ 6 = (D * (1 - v)) ^ 2 * (1 - v) ^ 4 := by ring
      _ ≤ (s.exact * r) ^ 2 * (1 - v) ^ 4 :=
        mul_le_mul_of_nonneg_right hlower (pow_nonneg (by linarith) 4)
      _ = s.exact ^ 2 * (r ^ 2 * (1 - v) ^ 4) := by ring
      _ ≤ s.exact ^ 2 * (sums.leftNorm.exact * sums.rightNorm.exact * (1 + v) ^ 6) :=
        mul_le_mul_of_nonneg_left hr2 (sq_nonneg _)
      _ = s.exact ^ 2 * (sums.leftNorm.exact * sums.rightNorm.exact) * (1 + v) ^ 6 := by ring

end HalfKernels

end VectorDistance
