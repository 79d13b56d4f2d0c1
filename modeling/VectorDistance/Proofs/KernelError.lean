import Mathlib
import VectorDistance.Proofs.SummationError
import VectorDistance.Registry

/-!
# Error of the half kernels

Differences of decoded halves are multiples of `2 ^ -24` below `2 ^ 17`, and
products of two such numbers are multiples of `2 ^ -48` below `2 ^ 36`. Neither
these nor sums of sixteen thousand of them come near the ends of the 32-bit
format, so that every operation of a kernel rounds safely and at most
`dimension + 3` roundings lie between a term and the sum.
-/

namespace VectorDistance

namespace Format

/-- The roundoff of the 32-bit format. -/
theorem roundoff_single : single.roundoff = 1 / 2 ^ 24 := rfl

/-- The least normal value of the 32-bit format. -/
theorem leastNormal_single : single.leastNormal = 1 / 2 ^ 126 := by
  rw [leastNormal, div_eq_div_iff (by positivity) (by positivity), one_mul, ← pow_add]
  rfl

/-- The quantum of the 32-bit format. -/
theorem quantum_single : single.quantum = 149 := rfl

/-- The reach of the 32-bit format. -/
theorem reach_single : single.reach = 2 ^ 127 := by
  rw [reach, div_eq_iff (by positivity), ← pow_add]
  rfl

end Format

namespace Binary

variable {F : Format}

/-- Products of multiples of `2 ^ -24` below `2 ^ 18` round safely and are
multiples of `2 ^ -48`. -/
theorem mul_roundsSafely {x y : Single} (hx : OnGrid 125 x) (hy : OnGrid 125 y)
    (hxs : |x.exact| < 2 ^ 18) (hys : |y.exact| < 2 ^ 18) :
    (x * y).RoundsSafely (x.exact * y.exact) ∧ OnGrid 101 (x * y) := by
  have hclear : Format.single.ClearsUnderflow (x.exact * y.exact) := by
    obtain ⟨i, hi⟩ := hx.exact_eq
    obtain ⟨j, hj⟩ := hy.exact_eq
    have hmul : ∃ k : ℤ, x.exact * y.exact = k * (1 / 2 ^ 48) :=
      ⟨i * j, by rw [hi, hj, Format.quantum_single]; push_cast; ring⟩
    refine (eq_zero_or_le_abs_of_multiple (by positivity) hmul).imp_right (le_trans ?_)
    norm_num [Format.leastNormal_single]
  have hreach : |x.exact * y.exact| < Format.single.reach := by
    rw [abs_mul]
    refine (mul_lt_mul'' hxs hys (abs_nonneg _) (abs_nonneg _)).trans_le ?_
    norm_num [Format.reach_single]
  have happ := mul_approximates hx.isFinite hy.isFinite hclear hreach
  exact ⟨⟨happ, hclear⟩, hx.mul hy rfl happ.1⟩

end Binary

namespace HalfKernels

open Binary

/-- Products of finite halves are exact. -/
theorem exact_mul_decode {x y : Half} (hx : x.isFinite = true) (hy : y.isFinite = true) :
    (x.decode * y.decode).exact = x.decode.exact * y.decode.exact := by
  obtain ⟨s, _, _, hxd, ⟨a, i, ha, rfl⟩, hm⟩ := Half.exists_decode_of_isFinite hx
  obtain ⟨t, _, _, hyd, ⟨b, j, hb, rfl⟩, hn⟩ := Half.exists_decode_of_isFinite hy
  have hrep : Format.single.Represents (a * 2 ^ i * (b * 2 ^ j) * 2 ^ 101) := by
    refine ⟨⟨a * b, i + j + 101, ?_, by ring⟩, ?_⟩
    · exact (Nat.mul_lt_mul'' ha hb).trans_le (by decide)
    · calc a * 2 ^ i * (b * 2 ^ j) * 2 ^ 101
          < 2 ^ 40 * 2 ^ 40 * 2 ^ 101 :=
            Nat.mul_lt_mul_of_pos_right (Nat.mul_lt_mul'' hm hn) (by positivity)
        _ ≤ 2 ^ Format.single.capacity := by
          rw [← pow_add, ← pow_add]
          exact Nat.pow_le_pow_right (by decide) (by decide)
  have hmul : x.decode * y.decode = finite (s != t) _ hrep := by
    rw [hxd, hyd]
    change mul _ _ = _
    have hnum : a * 2 ^ i * 2 ^ 125 * (b * 2 ^ j * 2 ^ 125) =
        a * 2 ^ i * (b * 2 ^ j) * 2 ^ 101 * 2 ^ 149 := by ring
    simp only [mul, Format.quantum_single]
    rw [hnum, ← Nat.one_mul (2 ^ 149), ← Nat.mul_assoc, Nat.mul_one,
      ofRatio_mul_right _ _ _ (by positivity), ofRatio_of_represents _ hrep]
  rw [hmul, hxd, hyd, exact_finite, exact_finite, exact_finite, Format.quantum_single,
    div_mul_div_comm, signed_mul]
  have hcast (c : Bool) (n : ℕ) : ((signed c n : ℤ) : ℚ) = if c then -(n : ℚ) else n := by
    cases c <;> simp [signed]
  rw [hcast, div_eq_div_iff (by positivity) (by positivity)]
  split
  · push_cast
    ring
  · push_cast
    ring

/-- What looks at the left elements of pairs only looks at the left vector. -/
theorem map_zip_left {α β γ : Type} {a : List α} {b : List β} (hlen : a.length = b.length)
    (f : α → γ) : ((a.zip b).map fun p => f p.1) = a.map f := by
  calc ((a.zip b).map fun p => f p.1) = ((a.zip b).map Prod.fst).map f := List.map_map.symm
    _ = a.map f := by rw [List.map_fst_zip hlen.le]

/-- What looks at the right elements only looks at the right vector. -/
theorem map_zip_right {α β γ : Type} {a : List α} {b : List β} (hlen : a.length = b.length)
    (f : β → γ) : ((a.zip b).map fun p => f p.2) = b.map f := by
  calc ((a.zip b).map fun p => f p.2) = ((a.zip b).map Prod.snd).map f := List.map_map.symm
    _ = b.map f := by rw [List.map_snd_zip hlen.ge]

/-- Squared difference of one pair of elements. -/
def squareTerm (p : Half × Half) : Single := (p.1.decode - p.2.decode).square

/-- Product of one pair of elements. -/
def productTerm (p : Half × Half) : Single := p.1.decode * p.2.decode

/-- Absolute difference of one pair of elements. -/
def taxicabTerm (p : Half × Half) : Single := (p.1.decode - p.2.decode).abs

/-- The squared distance sums one term for each pair of elements. -/
theorem squaredDistance_eq (a b : HalfVector) :
    squaredDistance a b = sumSingles ((a.zip b).map squareTerm) := by
  rw [List.map_zip_eq_zipWith]
  rfl

/-- The inner product sums one term for each pair of elements. -/
theorem innerProduct_eq (a b : HalfVector) :
    innerProduct a b = sumSingles ((a.zip b).map productTerm) := by
  rw [List.map_zip_eq_zipWith]
  rfl

/-- The taxicab distance sums one term for each pair of elements. -/
theorem taxicabDistance_eq (a b : HalfVector) :
    taxicabDistance a b = sumSingles ((a.zip b).map taxicabTerm) := by
  rw [List.map_zip_eq_zipWith]
  rfl

/-- A pair of finite halves. -/
def FinitePair (p : Half × Half) : Prop := p.1.isFinite = true ∧ p.2.isFinite = true

section Terms

variable {p : Half × Half}

/-- Differences of finite halves round safely, and stay multiples of `2 ^ -24`
below `2 ^ 18`. -/
theorem difference_roundsSafely (h : FinitePair p) :
    (p.1.decode - p.2.decode).RoundsSafely (p.1.decode.exact - p.2.decode.exact) ∧
      OnGrid 125 (p.1.decode - p.2.decode) ∧ |(p.1.decode - p.2.decode).exact| < 2 ^ 18 := by
  have hx := Half.onGrid_decode h.1
  have hy := (Half.onGrid_decode h.2).neg
  have hsize : |p.1.decode.exact + (-p.2.decode).exact| < 2 ^ 17 := by
    refine (abs_add_le _ _).trans_lt ?_
    rw [exact_neg, abs_neg]
    linarith [Half.abs_exact_decode_lt h.1, Half.abs_exact_decode_lt h.2]
  have hreach : (2 : ℚ) ^ 17 < Format.single.reach := by
    norm_num [Format.reach_single]
  have happ := add_approximates hx.isFinite hy.isFinite (hsize.trans hreach)
  have hclear := clearsUnderflow_add
    (by norm_num [Format.leastNormal_single, Format.quantum_single]) hx hy
  have hgrid := hx.add hy happ.1
  rw [exact_neg, ← sub_eq_add_neg] at happ hclear hsize
  refine ⟨⟨happ, hclear⟩, hgrid, ?_⟩
  have hle := happ.near.abs_le
  have hg : Format.single.growth 1 ≤ 2 := by
    norm_num [Format.growth_one, Format.roundoff_single]
  have h0 := abs_nonneg (p.1.decode.exact - p.2.decode.exact)
  change |(p.1.decode + -p.2.decode).exact| < 2 ^ 18
  nlinarith

/-- Products of finite halves lie below `2 ^ 32`, well within the bound of a term. -/
theorem abs_mul_decode_le (h : FinitePair p) :
    |p.1.decode.exact * p.2.decode.exact| ≤ 2 ^ 34 := by
  have hx := Half.abs_exact_decode_lt h.1
  have hy := Half.abs_exact_decode_lt h.2
  rw [abs_mul]
  exact (mul_le_mul hx.le hy.le (abs_nonneg _) (by positivity)).trans (by norm_num)

/-- Differences of finite halves lie below `2 ^ 17`. -/
theorem abs_sub_decode_le (h : FinitePair p) :
    |p.1.decode.exact - p.2.decode.exact| ≤ 2 ^ 17 := by
  have hx := Half.abs_exact_decode_lt h.1
  have hy := Half.abs_exact_decode_lt h.2
  exact (abs_sub _ _).trans (by linarith)

/-- Squared differences round safely. -/
theorem square_roundsSafely (h : FinitePair p) :
    (squareTerm p).RoundsSafely
        ((p.1.decode - p.2.decode).exact * (p.1.decode - p.2.decode).exact) ∧
      OnGrid 101 (squareTerm p) := by
  obtain ⟨-, hgrid, hsize⟩ := difference_roundsSafely h
  exact mul_roundsSafely hgrid hgrid hsize hsize

/-- Products round safely. -/
theorem product_roundsSafely (h : FinitePair p) :
    (productTerm p).RoundsSafely (p.1.decode.exact * p.2.decode.exact) ∧
      OnGrid 101 (productTerm p) := by
  have hx := Half.abs_exact_decode_lt h.1
  have hy := Half.abs_exact_decode_lt h.2
  exact mul_roundsSafely (Half.onGrid_decode h.1) (Half.onGrid_decode h.2)
    (hx.trans (by norm_num)) (hy.trans (by norm_num))

/-- A squared difference is three roundings away from the exact one. -/
theorem squareTerm_near (h : FinitePair p) :
    Near (1 + 1 + 1) (squareTerm p) ((p.1.decode.exact - p.2.decode.exact) ^ 2) := by
  have hd := (difference_roundsSafely h).1.1.near
  rw [pow_two]
  exact hd.mul hd (square_roundsSafely h).1.1

/-- A product is one rounding away from the exact one. -/
theorem productTerm_near (h : FinitePair p) :
    Near 1 (productTerm p) (p.1.decode.exact * p.2.decode.exact) :=
  (product_roundsSafely h).1.1.near

/-- An absolute difference is one rounding away from the exact one. -/
theorem taxicabTerm_near (h : FinitePair p) :
    Near 1 (taxicabTerm p) |p.1.decode.exact - p.2.decode.exact| :=
  (difference_roundsSafely h).1.1.near.abs

end Terms

/-- So many roundings move a sum by less than one part in a thousand. -/
theorem growth_le {n : ℕ} (h : n ≤ maxDimension + 3) :
    Format.single.growth n - 1 ≤ 1 / 2 ^ 10 := by
  have hb := Format.single.growth_mul_le_one (maxDimension + 3)
  have hg := Format.single.growth_mono h
  rw [Format.roundoff_single] at hb
  norm_num [maxDimension] at hb hg ⊢
  linarith

/-- The sizes of the terms over a dimension in range have a bounded sum. -/
theorem sum_abs_le_of_forall {l : List (Half × Half)} {value : Half × Half → ℚ}
    (hlen : l.length ≤ maxDimension) (hsize : ∀ p ∈ l, |value p| ≤ 2 ^ 34) :
    (l.map fun p => |value p|).sum ≤ maxDimension * 2 ^ 34 := by
  have h := List.sum_le_card_nsmul (l.map fun p => |value p|) (2 ^ 34) (by
    intro x hx
    obtain ⟨p, hp, rfl⟩ := List.mem_map.mp hx
    exact hsize p hp)
  rw [List.length_map, nsmul_eq_mul] at h
  refine h.trans (mul_le_mul_of_nonneg_right ?_ (by positivity))
  exact_mod_cast hlen

/-- A kernel that sums terms of at most three roundings over pairs of a
dimension in range is accurate, and its additions round safely. -/
theorem sumSingles_accurate {l : List (Half × Half)} {term : Half × Half → Single}
    {value : Half × Half → ℚ} {n : ℕ} (hn : n ≤ 3) (hlen : l.length ≤ maxDimension)
    (hgrid : ∀ p ∈ l, OnGrid 101 (term p)) (hnear : ∀ p ∈ l, Near n (term p) (value p))
    (hsize : ∀ p ∈ l, |value p| ≤ 2 ^ 34) :
    (sumSingles (l.map term)).isFinite = true ∧
      |(sumSingles (l.map term)).exact - (l.map value).sum| ≤
        (l.map fun p => |value p|).sum / 2 ^ 10 ∧
      SumsSafely (zero true) (l.map term) := by
  have hS := sum_abs_nonneg value l
  have hg := growth_le (Nat.add_le_add hlen hn)
  have hsum := sum_abs_le_of_forall hlen hsize
  have hroom : Format.single.growth (l.length + n) * (l.map fun p => |value p|).sum <
      Format.single.reach := by
    rw [Format.reach_single]
    calc Format.single.growth (l.length + n) * (l.map fun p => |value p|).sum
        ≤ 2 * (maxDimension * 2 ^ 34) := mul_le_mul (by linarith) hsum hS (by norm_num)
      _ < 2 ^ 127 := by norm_num [maxDimension]
  obtain ⟨hfin, herr, hsafe⟩ := foldl_add_near (onGrid_zero 101 true) (exact_zero true)
    (by norm_num [Format.leastNormal_single, Format.quantum_single]) hgrid hnear hroom
  refine ⟨hfin, herr.trans ?_, hsafe⟩
  rw [div_eq_inv_mul, ← one_div]
  exact mul_le_mul_of_nonneg_right hg hS

/-- The sum over corresponding elements of an exact function of their values. -/
def exactSum (value : ℚ → ℚ → ℚ) (a b : HalfVector) : ℚ :=
  (List.zipWith (fun x y => value x.decode.exact y.decode.exact) a b).sum

/-- No operation of the three kernels overflows, underflows or loses more than
one roundoff. -/
structure RoundSafely (a b : HalfVector) : Prop where
  /-- The differences behind both distances. -/
  difference : ∀ p ∈ a.zip b,
    (p.1.decode - p.2.decode).RoundsSafely (p.1.decode.exact - p.2.decode.exact)
  /-- The squares of the differences. -/
  square : ∀ p ∈ a.zip b, (squareTerm p).RoundsSafely
    ((p.1.decode - p.2.decode).exact * (p.1.decode - p.2.decode).exact)
  /-- The products. -/
  product : ∀ p ∈ a.zip b,
    (productTerm p).RoundsSafely (p.1.decode.exact * p.2.decode.exact)
  /-- The additions of the squared distance. -/
  squaredSums : SumsSafely (zero true) ((a.zip b).map squareTerm)
  /-- The additions of the inner product. -/
  productSums : SumsSafely (zero true) ((a.zip b).map productTerm)
  /-- The additions of the taxicab distance. -/
  taxicabSums : SumsSafely (zero true) ((a.zip b).map taxicabTerm)

/-- An exact sum takes one term from each pair of elements. -/
theorem exactSum_eq (value : ℚ → ℚ → ℚ) (a b : HalfVector) :
    exactSum value a b =
      ((a.zip b).map fun p => value p.1.decode.exact p.2.decode.exact).sum := by
  rw [exactSum, List.map_zip_eq_zipWith]
  rfl

/-- There are at most as many pairs as elements are read. -/
theorem length_zip_take_le (n : ℕ) (a b : HalfVector) :
    ((a.take n).zip (b.take n)).length ≤ n := by
  rw [List.length_zip, List.length_take, List.length_take]
  omega

section Vectors

variable {a b : HalfVector}

/-- Finite vectors have finite pairs of elements. -/
theorem finitePair_of_mem_zip (ha : ∀ h ∈ a, h.isFinite = true)
    (hb : ∀ h ∈ b, h.isFinite = true) : ∀ p ∈ a.zip b, FinitePair p :=
  fun _ hp => ⟨ha _ (List.of_mem_zip hp).1, hb _ (List.of_mem_zip hp).2⟩

variable (hlen : (a.zip b).length ≤ maxDimension) (h : ∀ p ∈ a.zip b, FinitePair p)
include hlen h

/-- The squared distance is accurate. -/
theorem squaredDistance_accurate :
    (squaredDistance a b).isFinite = true ∧
      |(squaredDistance a b).exact - exactSum (fun x y => (x - y) ^ 2) a b| ≤
        exactSum (fun x y => (x - y) ^ 2) a b / 2 ^ 10 ∧
      SumsSafely (zero true) ((a.zip b).map squareTerm) := by
  have hsize : ∀ p ∈ a.zip b, |(p.1.decode.exact - p.2.decode.exact) ^ 2| ≤ 2 ^ 34 := by
    intro p hp
    rw [abs_pow]
    exact (pow_le_pow_left₀ (abs_nonneg _) (abs_sub_decode_le (h p hp)) 2).trans (by norm_num)
  have hacc := sumSingles_accurate le_rfl hlen (fun p hp => (square_roundsSafely (h p hp)).2)
    (fun p hp => squareTerm_near (h p hp)) hsize
  simp only [abs_sq] at hacc
  rw [squaredDistance_eq, exactSum_eq]
  exact hacc

/-- The inner product is accurate, against the sizes of its terms. -/
theorem innerProduct_accurate :
    (innerProduct a b).isFinite = true ∧
      |(innerProduct a b).exact - exactSum (fun x y => x * y) a b| ≤
        exactSum (fun x y => |x * y|) a b / 2 ^ 10 ∧
      SumsSafely (zero true) ((a.zip b).map productTerm) := by
  have hsize : ∀ p ∈ a.zip b, |p.1.decode.exact * p.2.decode.exact| ≤ 2 ^ 34 :=
    fun p hp => abs_mul_decode_le (h p hp)
  rw [innerProduct_eq, exactSum_eq, exactSum_eq]
  exact sumSingles_accurate (by omega) hlen (fun p hp => (product_roundsSafely (h p hp)).2)
    (fun p hp => productTerm_near (h p hp)) hsize

/-- The taxicab distance is accurate. -/
theorem taxicabDistance_accurate :
    (taxicabDistance a b).isFinite = true ∧
      |(taxicabDistance a b).exact - exactSum (fun x y => |x - y|) a b| ≤
        exactSum (fun x y => |x - y|) a b / 2 ^ 10 ∧
      SumsSafely (zero true) ((a.zip b).map taxicabTerm) := by
  have hsize : ∀ p ∈ a.zip b, |(|p.1.decode.exact - p.2.decode.exact|)| ≤ 2 ^ 34 := by
    intro p hp
    rw [abs_abs]
    exact (abs_sub_decode_le (h p hp)).trans (by norm_num)
  have hacc := sumSingles_accurate (by omega) hlen
    (fun p hp => (difference_roundsSafely (h p hp)).2.1.abs.mono (by omega))
    (fun p hp => taxicabTerm_near (h p hp)) hsize
  simp only [abs_abs] at hacc
  rw [taxicabDistance_eq, exactSum_eq]
  exact hacc

/-- Over finite elements no operation of the kernels overflows or underflows. -/
theorem roundSafely : RoundSafely a b where
  difference p hp := (difference_roundsSafely (h p hp)).1
  square p hp := (square_roundsSafely (h p hp)).1
  product p hp := (product_roundsSafely (h p hp)).1
  squaredSums := (squaredDistance_accurate hlen h).2.2
  productSums := (innerProduct_accurate hlen h).2.2
  taxicabSums := (taxicabDistance_accurate hlen h).2.2

end Vectors

end HalfKernels

namespace Registry

open HalfKernels

/-- Forward error of the three sums: over finite elements a bound registry
answers with a finite number, off by at most `2 ^ -10` of the exact sum of the
sizes of the terms, and no operation on the way overflows or underflows. -/
theorem sums_accurate (host : CapabilitySet) {dimension : ℕ} {a b : HalfVector}
    (hpos : 1 ≤ dimension) (hmax : dimension ≤ maxDimension)
    (ha : dimension ≤ a.length) (hb : dimension ≤ b.length)
    (hfa : ∀ h ∈ a.take dimension, h.isFinite = true)
    (hfb : ∀ h ∈ b.take dimension, h.isFinite = true) :
    (∃ s, (fresh.bind host .portable).squaredDistance dimension a b = .ok s ∧
      s.isFinite = true ∧
      |s.exact - exactSum (fun x y => (x - y) ^ 2) (a.take dimension) (b.take dimension)| ≤
        exactSum (fun x y => (x - y) ^ 2) (a.take dimension) (b.take dimension) / 2 ^ 10) ∧
    (∃ s, (fresh.bind host .portable).taxicabDistance dimension a b = .ok s ∧
      s.isFinite = true ∧
      |s.exact - exactSum (fun x y => |x - y|) (a.take dimension) (b.take dimension)| ≤
        exactSum (fun x y => |x - y|) (a.take dimension) (b.take dimension) / 2 ^ 10) ∧
    (∃ s, (fresh.bind host .portable).innerProduct dimension a b = .ok s ∧
      s.isFinite = true ∧
      |s.exact - exactSum (fun x y => x * y) (a.take dimension) (b.take dimension)| ≤
        exactSum (fun x y => |x * y|) (a.take dimension) (b.take dimension) / 2 ^ 10) ∧
    RoundSafely (a.take dimension) (b.take dimension) := by
  have hlen : ((a.take dimension).zip (b.take dimension)).length ≤ maxDimension := by
    rw [List.length_zip, List.length_take, List.length_take]
    omega
  have hpairs := finitePair_of_mem_zip hfa hfb
  obtain ⟨hsf, hse, -⟩ := squaredDistance_accurate hlen hpairs
  obtain ⟨htf, hte, -⟩ := taxicabDistance_accurate hlen hpairs
  obtain ⟨hif, hie, -⟩ := innerProduct_accurate hlen hpairs
  exact ⟨⟨_, onHalves_of_portable host _ hpos hmax ha hb, hsf, hse⟩,
    ⟨_, onHalves_of_portable host _ hpos hmax ha hb, htf, hte⟩,
    ⟨_, onHalves_of_portable host _ hpos hmax ha hb, hif, hie⟩, roundSafely hlen hpairs⟩

/-- The sums of two pairs of halves, a subnormal one and the largest among them. -/
theorem sums_accurate_largest :
    ∃ s, (fresh.bind .none .portable).squaredDistance 2
        [Half.largest, Half.leastPositive] [Half.negOne, Half.one] = .ok s ∧
      s.isFinite = true ∧
      |s.exact - exactSum (fun x y => (x - y) ^ 2)
          [Half.largest, Half.leastPositive] [Half.negOne, Half.one]| ≤
        exactSum (fun x y => (x - y) ^ 2)
          [Half.largest, Half.leastPositive] [Half.negOne, Half.one] / 2 ^ 10 :=
  (sums_accurate .none (by decide) (by decide) (by decide) (by decide) (by decide)
    (by decide)).1

end Registry

end VectorDistance
