import Mathlib
import VectorDistance.Proofs.ExactSums
import VectorDistance.Proofs.KernelError

/-!
# Kernels without rounding

The kernels are exact as soon as the exact terms, and nothing but these, fit one
grid: all are whole numbers of its steps, and no more of them together than a
significand holds. A difference then fits the grid too, or one of half the exponent
if it is squared, since a whole number has at least half the factors of two of its
square. Grids far below the finest possible term or far above the largest can be
replaced by others well within the format. What is exact does not depend on the
order of the pairs.
-/

namespace VectorDistance

namespace HalfKernels

open Binary

/-- All exact terms over these pairs are whole numbers of steps of one power of two,
and the sizes of the terms add up to no more than `2 ^ 24` of them. -/
def FitsSignificand (value : ℚ → ℚ → ℚ) (pairs : List (Half × Half)) : Prop :=
  ∃ k : ℤ, (∀ p ∈ pairs, ∃ j : ℤ, value p.1.decode.exact p.2.decode.exact = j * 2 ^ k) ∧
    (pairs.map fun p => |value p.1.decode.exact p.2.decode.exact|).sum ≤ 2 ^ 24 * 2 ^ k

/-- What the terms of a kernel have in common: over finite pairs the exact ones are
moderate multiples of `2 ^ -48`, and those that fit a grid are computed exactly. -/
structure ExactOnGrids (term : Half × Half → Single) (value : ℚ → ℚ → ℚ) : Prop where
  /-- Exact terms lie on one grid. -/
  multiple : ∀ p, FinitePair p → ∃ j : ℤ, value p.1.decode.exact p.2.decode.exact = j * (1 / 2 ^ 48)
  /-- They are moderate. -/
  abs_le : ∀ p, FinitePair p → |value p.1.decode.exact p.2.decode.exact| ≤ 2 ^ 34
  /-- They are computed exactly where they fit a grid. -/
  exact : ∀ p, FinitePair p → ∀ e, 101 ≤ e → e ≤ 189 →
    FitsGrid Format.single e (value p.1.decode.exact p.2.decode.exact) →
    (term p).isFinite = true ∧ (term p).exact = value p.1.decode.exact p.2.decode.exact

/-- The grids in question lie within the 32-bit format. -/
theorem room_of_le {e : ℕ} (h : e ≤ 189) :
    Format.single.precision + e < Format.single.capacity :=
  lt_of_le_of_lt (Nat.add_le_add_left h _) (by decide)

/-- Decoded halves are whole multiples of `2 ^ -24`. -/
theorem exists_exact_decode_eq {h : Half} (hf : h.isFinite = true) :
    ∃ j : ℤ, h.decode.exact = j * (1 / 2 ^ 24) := by
  obtain ⟨j, hj⟩ := (Half.onGrid_decode hf).exact_eq
  refine ⟨j, hj.trans ?_⟩
  rw [Format.quantum_single]
  norm_num

/-! ## The three kernels -/

/-- Products are exact in any case. -/
theorem productTerm_exactOnGrids : ExactOnGrids productTerm fun x y => x * y where
  multiple p hp := by
    obtain ⟨i, hi⟩ := exists_exact_decode_eq hp.1
    obtain ⟨j, hj⟩ := exists_exact_decode_eq hp.2
    exact ⟨i * j, by rw [hi, hj]; push_cast; ring⟩
  abs_le p hp := abs_mul_decode_le hp
  exact p hp _ _ _ _ := ⟨(product_roundsSafely hp).1.1.1, exact_mul_decode hp.1 hp.2⟩

/-- Exact differences lie on the grid of the halves. -/
theorem exists_exact_sub_eq {p : Half × Half} (hp : FinitePair p) :
    ∃ j : ℤ, p.1.decode.exact - p.2.decode.exact = j * (1 / 2 ^ 24) := by
  obtain ⟨i, hi⟩ := exists_exact_decode_eq hp.1
  obtain ⟨j, hj⟩ := exists_exact_decode_eq hp.2
  exact ⟨i - j, by rw [hi, hj]; push_cast; ring⟩

/-- A difference that fits a grid is exact. -/
theorem difference_exact {p : Half × Half} (hp : FinitePair p) {e : ℕ} (he : e ≤ 189)
    (h : FitsGrid Format.single e (p.1.decode.exact - p.2.decode.exact)) :
    (p.1.decode - p.2.decode).isFinite = true ∧
      (p.1.decode - p.2.decode).exact = p.1.decode.exact - p.2.decode.exact :=
  h.sub_exact (Half.onGrid_decode hp.1).isFinite (Half.onGrid_decode hp.2).isFinite (room_of_le he)

/-- Differences are exact where their sizes fit a grid. -/
theorem taxicabTerm_exactOnGrids : ExactOnGrids taxicabTerm fun x y => |x - y| where
  multiple p hp := by
    obtain ⟨j, hj⟩ := exists_exact_sub_eq hp
    refine ⟨|j| * 2 ^ 24, ?_⟩
    rw [hj, abs_mul, abs_of_pos (by positivity : (0 : ℚ) < 1 / 2 ^ 24)]
    push_cast
    ring
  abs_le p hp := by
    rw [abs_abs]
    exact (abs_sub_decode_le hp).trans (by norm_num)
  exact p hp e _ he hfits := by
    obtain ⟨hfinite, hexact⟩ := difference_exact hp he hfits.of_abs
    rw [taxicabTerm, isFinite_abs, exact_abs, hexact]
    exact ⟨hfinite, rfl⟩

/-- A multiple of `2 ^ -24` whose square fits a grid fits one of half the exponent. -/
theorem fitsGrid_of_sq {d : ℚ} (hd : ∃ c : ℤ, d = c * (1 / 2 ^ 24)) {k : ℕ}
    (h : FitsGrid Format.single (101 + k) (d ^ 2)) :
    FitsGrid Format.single (k / 2 + 125) d := by
  have hprecision : Format.single.precision = 24 := rfl
  have hstep (n : ℕ) : (2 : ℚ) ^ (n + 125) / 2 ^ 149 = 2 ^ n * (1 / 2 ^ 24) := by
    rw [pow_add]
    ring
  obtain ⟨c, rfl⟩ := hd
  obtain ⟨⟨j, hj⟩, hle⟩ := h
  rw [Format.quantum_single] at hj hle
  rw [hprecision] at hle
  have hsq : c ^ 2 = j * 2 ^ k := by
    have hscaled : (c : ℚ) ^ 2 = j * 2 ^ k := by
      rw [pow_add] at hj
      linear_combination 2 ^ 48 * hj
    exact_mod_cast hscaled
  -- half of the factors of two of the square, rounded down, are those of the number
  have hdvd : ((2 : ℤ) ^ (k / 2)) ^ 2 ∣ c ^ 2 := by
    rw [hsq, ← pow_mul]
    exact (pow_dvd_pow 2 (by omega)).mul_left j
  obtain ⟨i, rfl⟩ := (Int.pow_dvd_pow_iff two_ne_zero).mp hdvd
  refine ⟨⟨i, ?_⟩, ?_⟩
  · rw [Format.quantum_single, hstep]
    push_cast
    ring
  · have hroom : (2 : ℚ) ^ k ≤ 2 * (2 ^ (k / 2)) ^ 2 := by
      rw [← pow_mul, ← pow_succ']
      exact pow_le_pow_right₀ one_le_two (by omega)
    have hbound : (2 : ℚ) ^ (24 + (k / 2 + 125)) / 2 ^ 149 = 2 ^ (k / 2) := by
      rw [← add_assoc, Nat.add_comm 24, hstep, pow_add]
      ring
    have hsquare : (2 : ℚ) ^ (24 + (101 + k)) / 2 ^ 149 = 2 ^ k * (1 / 2 ^ 24) := by
      rw [show 24 + (101 + k) = k + 125 by omega, hstep]
    rw [abs_of_nonneg (sq_nonneg _), hsquare] at hle
    rw [hprecision, Format.quantum_single, hbound]
    refine abs_le_of_sq_le_sq ?_ (by positivity)
    linarith [sq_nonneg ((2 : ℚ) ^ (k / 2))]

/-- Squares of differences are exact where they fit a grid. -/
theorem squareTerm_exactOnGrids : ExactOnGrids squareTerm fun x y => (x - y) ^ 2 where
  multiple p hp := by
    obtain ⟨j, hj⟩ := exists_exact_sub_eq hp
    refine ⟨j ^ 2, ?_⟩
    rw [hj]
    push_cast
    ring
  abs_le p hp := by
    rw [abs_pow]
    exact (pow_le_pow_left₀ (abs_nonneg _) (abs_sub_decode_le hp) 2).trans (by norm_num)
  exact p hp e hmin he hfits := by
    obtain ⟨k, rfl⟩ := Nat.exists_eq_add_of_le hmin
    have hdifference := fitsGrid_of_sq (exists_exact_sub_eq hp) hfits
    obtain ⟨hfinite, hexact⟩ := difference_exact hp (by omega) hdifference
    rw [pow_two, ← hexact] at hfits ⊢
    exact hfits.mul_exact hfinite hfinite (room_of_le he)

/-! ## Sums of terms that fit a grid -/

section Sums

variable {term : Half × Half → Single} {value : ℚ → ℚ → ℚ} {pairs : List (Half × Half)}
  (hterm : ExactOnGrids term value)
include hterm

/-- Terms that fit some grid fit one of the 32-bit format. -/
theorem ExactOnGrids.exists_grid (hlen : pairs.length ≤ maxDimension)
    (hpairs : ∀ p ∈ pairs, FinitePair p) (h : FitsSignificand value pairs) :
    ∃ e, 101 ≤ e ∧ e ≤ 189 ∧
      (∀ p ∈ pairs, ∃ j : ℤ, value p.1.decode.exact p.2.decode.exact =
        j * (2 ^ e / 2 ^ Format.single.quantum)) ∧
      (pairs.map fun p => |value p.1.decode.exact p.2.decode.exact|).sum ≤
        2 ^ (Format.single.precision + e) / 2 ^ Format.single.quantum := by
  obtain ⟨k, hmultiple, hsize⟩ := h
  -- the exponent of the step, moved to where the terms can be
  set m := max (min k 40) (-48) with hm
  obtain ⟨e, he⟩ : ∃ e : ℕ, (e : ℤ) = m + 149 :=
    ⟨(m + 149).toNat, Int.toNat_of_nonneg (by omega)⟩
  have hstep : (2 : ℚ) ^ e / 2 ^ Format.single.quantum = 2 ^ m := by
    rw [Format.quantum_single, ← zpow_natCast 2 e, he, zpow_add₀ two_ne_zero]
    norm_num
  have hsum : (2 : ℚ) ^ (Format.single.precision + e) / 2 ^ Format.single.quantum =
      2 ^ 24 * 2 ^ m := by
    rw [← hstep, pow_add, mul_div_assoc]
    rfl
  refine ⟨e, by omega, by omega, fun p hp => ?_, ?_⟩
  · rw [hstep]
    by_cases hk : k < -48
    · obtain ⟨j, hj⟩ := hterm.multiple p (hpairs p hp)
      refine ⟨j, hj.trans ?_⟩
      rw [show m = -48 by omega]
      norm_num
    · obtain ⟨j, hj⟩ := hmultiple p hp
      obtain ⟨n, hn⟩ : ∃ n : ℕ, k = n + m := ⟨(k - m).toNat, by omega⟩
      refine ⟨j * 2 ^ n, ?_⟩
      rw [hj, hn, zpow_add₀ two_ne_zero, zpow_natCast]
      push_cast
      ring
  · rw [hsum]
    by_cases hk : 40 < k
    · refine (sum_abs_le_of_forall hlen fun p hp => hterm.abs_le p (hpairs p hp)).trans ?_
      rw [show m = 40 by omega]
      norm_num [maxDimension]
    · refine hsize.trans (mul_le_mul_of_nonneg_left ?_ (by positivity))
      exact zpow_le_zpow_right₀ one_le_two (by omega)

/-- A kernel over finite pairs whose terms fit a grid is exact. -/
theorem ExactOnGrids.sumSingles_exact (hlen : pairs.length ≤ maxDimension)
    (hpairs : ∀ p ∈ pairs, FinitePair p) (h : FitsSignificand value pairs) :
    (sumSingles (pairs.map term)).isFinite = true ∧
      (sumSingles (pairs.map term)).exact =
        (pairs.map fun p => value p.1.decode.exact p.2.decode.exact).sum := by
  obtain ⟨e, hmin, hmax, hmultiple, hsize⟩ := hterm.exists_grid hlen hpairs h
  have hexact : ∀ p ∈ pairs, (term p).isFinite = true ∧
      (term p).exact = value p.1.decode.exact p.2.decode.exact := by
    intro p hp
    refine hterm.exact p (hpairs p hp) e hmin hmax ⟨hmultiple p hp, le_trans ?_ hsize⟩
    refine List.single_le_sum ?_ _ (List.mem_map_of_mem hp)
    exact List.forall_mem_map.mpr fun _ _ => abs_nonneg _
  have hvalues : (pairs.map term).map Binary.exact =
      pairs.map fun p => value p.1.decode.exact p.2.decode.exact := by
    rw [List.map_map]
    exact List.map_congr_left fun p hp => (hexact p hp).2
  have hsizes : ((pairs.map term).map fun t => |t.exact|) =
      pairs.map fun p => |value p.1.decode.exact p.2.decode.exact| := by
    rw [List.map_map]
    exact List.map_congr_left fun p hp => by rw [Function.comp_apply, (hexact p hp).2]
  have hgrid : ∀ t ∈ pairs.map term, OnGrid e t := List.forall_mem_map.mpr fun p hp =>
    onGrid_of_exact (hexact p hp).1 ((hexact p hp).2 ▸ hmultiple p hp)
  obtain ⟨hon, hsum⟩ := VectorDistance.sumSingles_exact (room_of_le hmax) hgrid (hsizes ▸ hsize)
  exact ⟨hon.isFinite, hsum.trans (congrArg List.sum hvalues)⟩

end Sums

/-- Pairs in another order fit as well. -/
theorem FitsSignificand.perm {value : ℚ → ℚ → ℚ} {pairs pairs' : List (Half × Half)}
    (h : FitsSignificand value pairs) (hperm : pairs'.Perm pairs) :
    FitsSignificand value pairs' := by
  obtain ⟨k, hmultiple, hsize⟩ := h
  exact ⟨k, fun p hp => hmultiple p (hperm.mem_iff.mp hp), (hperm.map _).sum_eq.trans_le hsize⟩

/-- A kernel answers with the exact sum over the first elements of two buffers, in
whatever order their pairs come. -/
structure SumsExactly (call : ℕ → HalfVector → HalfVector → Except Fault Single)
    (value : ℚ → ℚ → ℚ) (dimension : ℕ) (a b : HalfVector) : Prop where
  /-- The answer is the sum of the exact terms. -/
  answer : ∃ s, call dimension a b = .ok s ∧ s.isFinite = true ∧
    s.exact = exactSum value (a.take dimension) (b.take dimension)
  /-- Buffers with these pairs in another order have an answer of the same value. -/
  permuted : ∀ a' b' : HalfVector, dimension ≤ a'.length → dimension ≤ b'.length →
    ((a'.take dimension).zip (b'.take dimension)).Perm
      ((a.take dimension).zip (b.take dimension)) →
    ∃ s s', call dimension a b = .ok s ∧ call dimension a' b' = .ok s' ∧
      s'.isFinite = true ∧ s'.exact = s.exact

end HalfKernels

namespace Registry

open HalfKernels

section Bound

variable (host : CapabilitySet) {dimension : ℕ} (hpos : 1 ≤ dimension)
  (hmax : dimension ≤ maxDimension)
include hpos hmax

/-- A portable kernel that sums terms which are exact where they fit a grid, on finite
elements that do. -/
theorem sumsExactly_onHalves {term : Half × Half → Single} {value : ℚ → ℚ → ℚ}
    {kernel : HalfStrategy → HalfVector → HalfVector → Single} (hterm : ExactOnGrids term value)
    (hkernel : ∀ x y, kernel .portable x y = sumSingles ((x.zip y).map term)) {a b : HalfVector}
    (ha : dimension ≤ a.length) (hb : dimension ≤ b.length)
    (hpairs : ∀ p ∈ (a.take dimension).zip (b.take dimension), FinitePair p)
    (hfits : FitsSignificand value ((a.take dimension).zip (b.take dimension))) :
    SumsExactly ((fresh.bind host .portable).onHalves fun strategy x y => .ok (kernel strategy x y))
      value dimension a b := by
  -- the exact sum does not see the order of the pairs
  have hanswer (a' b' : HalfVector) (ha' : dimension ≤ a'.length) (hb' : dimension ≤ b'.length)
      (hperm : ((a'.take dimension).zip (b'.take dimension)).Perm
        ((a.take dimension).zip (b.take dimension))) :
      ∃ s, (fresh.bind host .portable).onHalves (fun strategy x y => .ok (kernel strategy x y))
          dimension a' b' = .ok s ∧ s.isFinite = true ∧
            s.exact = exactSum value (a.take dimension) (b.take dimension) := by
    obtain ⟨hfinite, hexact⟩ := hterm.sumSingles_exact ((length_zip_take_le _ a' b').trans hmax)
      (fun p hp => hpairs p (hperm.mem_iff.mp hp)) (hfits.perm hperm)
    refine ⟨_, onHalves_of_portable host _ hpos hmax ha' hb', ?_, ?_⟩
    · rw [hkernel]
      exact hfinite
    · rw [hkernel, hexact, exactSum_eq]
      exact (hperm.map _).sum_eq
  refine ⟨hanswer a b ha hb (List.Perm.refl _), fun a' b' ha' hb' hperm => ?_⟩
  obtain ⟨s, hs, -, hexact⟩ := hanswer a b ha hb (List.Perm.refl _)
  obtain ⟨s', hs', hfinite', hexact'⟩ := hanswer a' b' ha' hb' hperm
  exact ⟨s, s', hs, hs', hfinite', hexact'.trans hexact.symm⟩

end Bound

/-- Exact accumulation: over finite elements whose exact terms fit a significand, the
three sums of a bound registry are the exact ones, for every dimension in range, and
their values do not depend on the order of the pairs. -/
theorem exact_accumulation (host : CapabilitySet) {dimension : ℕ} {a b : HalfVector}
    (hpos : 1 ≤ dimension) (hmax : dimension ≤ maxDimension)
    (ha : dimension ≤ a.length) (hb : dimension ≤ b.length)
    (hfa : ∀ h ∈ a.take dimension, h.isFinite = true)
    (hfb : ∀ h ∈ b.take dimension, h.isFinite = true) :
    (FitsSignificand (fun x y => (x - y) ^ 2) ((a.take dimension).zip (b.take dimension)) →
      SumsExactly (fresh.bind host .portable).squaredDistance (fun x y => (x - y) ^ 2)
        dimension a b) ∧
    (FitsSignificand (fun x y => x * y) ((a.take dimension).zip (b.take dimension)) →
      SumsExactly (fresh.bind host .portable).innerProduct (fun x y => x * y)
        dimension a b) ∧
    (FitsSignificand (fun x y => |x - y|) ((a.take dimension).zip (b.take dimension)) →
      SumsExactly (fresh.bind host .portable).taxicabDistance (fun x y => |x - y|)
        dimension a b) := by
  have hpairs := finitePair_of_mem_zip hfa hfb
  refine ⟨sumsExactly_onHalves host hpos hmax squareTerm_exactOnGrids ?_ ha hb hpairs,
    sumsExactly_onHalves host hpos hmax productTerm_exactOnGrids ?_ ha hb hpairs,
    sumsExactly_onHalves host hpos hmax taxicabTerm_exactOnGrids ?_ ha hb hpairs⟩
  · exact squaredDistance_eq
  · exact innerProduct_eq
  · exact taxicabDistance_eq

/-- Two products that cancel: the inner product is zero, and so is the one over the
pairs turned around. -/
theorem exact_accumulation_cancelling :
    FitsSignificand (fun x y => x * y) [(Half.one, Half.one), (Half.one, Half.negOne)] ∧
    ∃ s s', (fresh.bind .none .portable).innerProduct 2
        [Half.one, Half.one] [Half.one, Half.negOne] = .ok s ∧ s.exact = 0 ∧
      (fresh.bind .none .portable).innerProduct 2
        [Half.one, Half.one] [Half.negOne, Half.one] = .ok s' ∧ s'.exact = s.exact := by
  have hone : Half.one.decode.exact = 1 := by
    rw [Binary.exact, show Half.one.decode.quanta = some (2 ^ 149) by decide +kernel]
    norm_num [Format.quantum_single]
  have hnegOne : Half.negOne.decode.exact = -1 := by
    rw [Binary.exact, show Half.negOne.decode.quanta = some (-2 ^ 149) by decide +kernel]
    norm_num [Format.quantum_single]
  have hfits : FitsSignificand (fun x y => x * y)
      [(Half.one, Half.one), (Half.one, Half.negOne)] := by
    refine ⟨0, ?_, ?_⟩
    · simp only [List.forall_mem_cons, hone, hnegOne]
      exact ⟨⟨1, by norm_num⟩, ⟨-1, by norm_num⟩, fun p hp => absurd hp List.not_mem_nil⟩
    · simp only [List.map_cons, List.map_nil, List.sum_cons, List.sum_nil, hone, hnegOne]
      norm_num
  have hsums := (@exact_accumulation .none 2 [Half.one, Half.one] [Half.one, Half.negOne]
    (by decide) (by decide) (by decide) (by decide) (by decide) (by decide)).2.1 hfits
  obtain ⟨s, hs, -, hexact⟩ := hsums.answer
  obtain ⟨t, s', ht, hs', -, hsame⟩ := hsums.permuted [Half.one, Half.one]
    [Half.negOne, Half.one] (by decide) (by decide) (by decide)
  obtain rfl : s = t := Except.ok.inj (hs.symm.trans ht)
  refine ⟨hfits, s, s', hs, ?_, hs', hsame⟩
  rw [hexact, exactSum]
  simp [hone, hnegOne]

end Registry

end VectorDistance
