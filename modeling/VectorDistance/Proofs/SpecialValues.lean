import Mathlib
import VectorDistance.Proofs.HalfRounding
import VectorDistance.Proofs.KernelError
import VectorDistance.Proofs.SpecialSums

/-!
# Special values through the kernels

What the kernels answer when elements are NaNs, infinities, subnormals or zeros
of either sign. Terms are classified pair by pair: `MeasuresGap` says that a term
is undefined, infinite or zero exactly when the difference of its pair is, which
holds of squares and absolute values because no square of a difference vanishes.
Sums over finite pairs stay in range by the error bounds of the kernels, for
every dimension in range, and the rest follows from where sums can end.
-/

namespace VectorDistance

namespace Half

open Binary

/-- What is neither a NaN nor finite is an infinity. -/
theorem isInfinite_iff {h : Half} :
    h.isInfinite = true ↔ h.isNaN = false ∧ h.isFinite = false := by
  simp only [isInfinite, isNaN, isFinite, Bool.and_eq_true, Bool.and_eq_false_iff, beq_iff_eq,
    beq_eq_false_iff_ne, bne_eq_false_iff_eq]
  tauto

/-- Finite halves are not NaNs. -/
theorem isNaN_of_isFinite {h : Half} (hf : h.isFinite = true) : h.isNaN = false := by
  rw [← isNaN_decode]
  exact Binary.isNaN_of_isFinite (h.isFinite_decode.trans hf)

/-- There is one infinity of each sign. -/
theorem eq_infinity_withSign {h : Half} (hi : h.isInfinite = true) :
    h = infinity.withSign h.isNegative := by
  obtain ⟨he, hf⟩ : h.exponentField = 31 ∧ h.fraction = 0 := by
    simpa only [isInfinite, Bool.and_eq_true, beq_iff_eq] using hi
  exact eq_withSign rfl he hf

/-- An infinity is decoded as the infinity of its sign. -/
theorem decode_of_isInfinite {h : Half} (hi : h.isInfinite = true) :
    h.decode = .infinite h.isNegative := by
  have hh := eq_infinity_withSign hi
  generalize h.isNegative = s at hh ⊢
  subst hh
  cases s with
  | false => rfl
  | true => rfl

/-- Exactly the infinities are decoded as one. -/
theorem exists_decode_eq_infinite_iff {h : Half} :
    (∃ s, h.decode = .infinite s) ↔ h.isInfinite = true := by
  refine ⟨?_, fun hi => ⟨_, decode_of_isInfinite hi⟩⟩
  rintro ⟨s, hs⟩
  rw [isInfinite_iff, ← isNaN_decode, ← isFinite_decode, hs]
  exact ⟨rfl, rfl⟩

/-- Two halves are decoded as one infinity exactly when both are that infinity. -/
theorem exists_decode_eq_and_iff {g h : Half} :
    (∃ s, g.decode = .infinite s ∧ h.decode = .infinite s) ↔ g.isInfinite = true ∧ g = h := by
  constructor
  · rintro ⟨s, hg, hh⟩
    have hgi := exists_decode_eq_infinite_iff.mp ⟨s, hg⟩
    have hhi := exists_decode_eq_infinite_iff.mp ⟨s, hh⟩
    rw [decode_of_isInfinite hgi] at hg
    rw [decode_of_isInfinite hhi] at hh
    injection hg with hgs
    injection hh with hhs
    exact ⟨hgi, by rw [eq_infinity_withSign hgi, eq_infinity_withSign hhi, hgs, hhs]⟩
  · rintro ⟨hi, rfl⟩
    exact ⟨_, decode_of_isInfinite hi, decode_of_isInfinite hi⟩

end Half

namespace HalfKernels

open Binary

/-! ## Pairs of elements -/

/-- The difference of a pair is undefined: one element is a NaN, or both are the
same infinity. -/
def UndefinedDifference (p : Half × Half) : Prop :=
  p.1.isNaN = true ∨ p.2.isNaN = true ∨ (p.1.isInfinite = true ∧ p.1 = p.2)

/-- The product of a pair is undefined: one element is a NaN, or one is a zero and
the other an infinity. -/
def UndefinedProduct (p : Half × Half) : Prop :=
  p.1.isNaN = true ∨ p.2.isNaN = true ∨
    (p.1.decode.isZero = true ∧ p.2.isInfinite = true) ∨
    (p.2.decode.isZero = true ∧ p.1.isInfinite = true)

instance (p : Half × Half) : Decidable (UndefinedDifference p) :=
  inferInstanceAs (Decidable (_ ∨ _ ∨ _))

instance (p : Half × Half) : Decidable (UndefinedProduct p) :=
  inferInstanceAs (Decidable (_ ∨ _ ∨ _ ∨ _))

/-- A pair with an infinity among its elements. -/
def InfinitePair (p : Half × Half) : Prop := p.1.isInfinite = true ∨ p.2.isInfinite = true

section Pairs

variable {p : Half × Half}

/-- Finite elements have a difference. -/
theorem FinitePair.not_undefinedDifference (h : FinitePair p) : ¬UndefinedDifference p := by
  rintro (hnan | hnan | ⟨hinf, -⟩)
  · exact Bool.noConfusion ((Half.isNaN_of_isFinite h.1).symm.trans hnan)
  · exact Bool.noConfusion ((Half.isNaN_of_isFinite h.2).symm.trans hnan)
  · exact Bool.noConfusion (h.1.symm.trans (Half.isInfinite_iff.mp hinf).2)

/-- Unless its difference is undefined, a pair is finite or has an infinity. -/
theorem infinitePair_iff (h : ¬UndefinedDifference p) : InfinitePair p ↔ ¬FinitePair p := by
  obtain ⟨hleft, hright, -⟩ : p.1.isNaN = false ∧ p.2.isNaN = false ∧ _ := by
    simpa only [UndefinedDifference, not_or, Bool.not_eq_true] using h
  simp only [InfinitePair, FinitePair, Half.isInfinite_iff, hleft, hright, true_and, not_and_or,
    Bool.not_eq_true]

/-- A number that tells how far apart the elements of a pair are: undefined,
infinite, zero or other than zero as their difference. -/
structure MeasuresGap (p : Half × Half) (x : Single) : Prop where
  /-- Undefined exactly when the difference is. -/
  isNaN_iff : x.isNaN = true ↔ UndefinedDifference p
  /-- Finite exactly for finite elements. -/
  isFinite_iff : x.isFinite = true ↔ FinitePair p
  /-- Zero exactly for elements of equal value. -/
  exact_eq_zero_iff : FinitePair p → (x.exact = 0 ↔ p.1.decode.exact = p.2.decode.exact)

/-- The rounded difference tells how far apart the elements are. -/
theorem measuresGap_difference : MeasuresGap p (p.1.decode - p.2.decode) where
  isNaN_iff := by
    rw [isNaN_sub_iff, Half.isNaN_decode, Half.isNaN_decode, Half.exists_decode_eq_and_iff]
    rfl
  isFinite_iff := by
    constructor
    · intro h
      have hxy := isFinite_of_add h
      rwa [isFinite_neg, Half.isFinite_decode, Half.isFinite_decode] at hxy
    · intro h
      exact (difference_roundsSafely h).1.1.1
  exact_eq_zero_iff h := (difference_roundsSafely h).1.1.exact_eq_zero_iff.trans sub_eq_zero

/-- So does its square. -/
theorem measuresGap_squareTerm : MeasuresGap p (squareTerm p) where
  isNaN_iff := by
    rw [squareTerm, isNaN_square]
    exact measuresGap_difference.isNaN_iff
  isFinite_iff := by
    refine ⟨fun h => ?_, fun h => (square_roundsSafely h).1.1.1⟩
    exact measuresGap_difference.isFinite_iff.mp (isFinite_of_mul h).1
  exact_eq_zero_iff h := by
    rw [(square_roundsSafely h).1.1.exact_eq_zero_iff, mul_self_eq_zero]
    exact measuresGap_difference.exact_eq_zero_iff h

/-- So does its absolute value. -/
theorem measuresGap_taxicabTerm : MeasuresGap p (taxicabTerm p) where
  isNaN_iff := by
    rw [taxicabTerm, isNaN_abs]
    exact measuresGap_difference.isNaN_iff
  isFinite_iff := by
    rw [taxicabTerm, isFinite_abs]
    exact measuresGap_difference.isFinite_iff
  exact_eq_zero_iff h := by
    rw [taxicabTerm, exact_abs, abs_eq_zero]
    exact measuresGap_difference.exact_eq_zero_iff h

/-- Without a sign the only infinity is the positive one, and it stands for an
infinite element. -/
theorem MeasuresGap.eq_infinite_iff {x : Single} (h : MeasuresGap p x)
    (hs : x.isNegative = false) (hp : ¬UndefinedDifference p) :
    x = .infinite false ↔ InfinitePair p := by
  have hnan : x.isNaN = false := Bool.eq_false_iff.mpr fun hx => hp (h.isNaN_iff.mp hx)
  rw [infinitePair_iff hp, ← h.isFinite_iff]
  constructor
  · rintro rfl
    exact Bool.false_ne_true
  · intro hfin
    obtain ⟨s, rfl⟩ := (infinite_or_isFinite hnan).resolve_right hfin
    obtain rfl : s = false := hs
    rfl

/-- The product of a pair is a NaN exactly when it is undefined. -/
theorem isNaN_productTerm : (productTerm p).isNaN = true ↔ UndefinedProduct p := by
  rw [productTerm, isNaN_mul_iff, Half.isNaN_decode, Half.isNaN_decode,
    Half.exists_decode_eq_infinite_iff, Half.exists_decode_eq_infinite_iff]
  rfl

/-- Only finite elements have a finite product. -/
theorem isFinite_productTerm : (productTerm p).isFinite = true ↔ FinitePair p := by
  refine ⟨fun h => ?_, fun h => (product_roundsSafely h).1.1.1⟩
  have hxy := isFinite_of_mul h
  rwa [Half.isFinite_decode, Half.isFinite_decode] at hxy

end Pairs

/-! ## Sums over pairs -/

section Sums

variable {pairs : List (Half × Half)} {term : Half × Half → Single}

/-- Beginnings of two vectors are paired as the vectors are. -/
theorem exists_take_of_front {front : List (Half × Half)} {a b : HalfVector}
    (h : front <+: a.zip b) : ∃ n, front = (a.take n).zip (b.take n) := by
  refine ⟨front.length, ?_⟩
  rw [List.zip_eq_zipWith, ← List.take_zipWith]
  exact List.prefix_iff_eq_take.mp h

/-- A kernel ends where its terms lead, if it stays in range over finite pairs. -/
theorem sumsTo_sumSingles (hterm : ∀ p ∈ pairs, (term p).isFinite = true → FinitePair p)
    (hfin : ∀ front, front <+: pairs → (∀ p ∈ front, FinitePair p) →
      (sumSingles (front.map term)).isFinite = true) :
    SumsTo (pairs.map term) (sumSingles (pairs.map term)) := by
  refine sumsTo_foldl fun front hfront hall => ?_
  rw [List.prefix_iff_eq_take.mp hfront, ← List.map_take] at hall ⊢
  have hstart := List.take_prefix front.length pairs
  exact hfin _ hstart fun p hp =>
    hterm p (hstart.subset hp) (hall _ (List.mem_map_of_mem hp))

end Sums

/-- What a distance over these pairs is. -/
structure DistanceOutcome (pairs : List (Half × Half)) (s : Single) : Prop where
  /-- It is a NaN exactly when the difference of some pair is undefined. -/
  isNaN_iff : s.isNaN = true ↔ ∃ p ∈ pairs, UndefinedDifference p
  /-- If it is none, it is infinite exactly when an element is. -/
  eq_infinite_iff : s.isNaN = false → (s = .infinite false ↔ ∃ p ∈ pairs, InfinitePair p)
  /-- Otherwise it is positive zero exactly when corresponding elements have equal values. -/
  eq_zero_iff : s.isNaN = false → s ≠ .infinite false →
    (s = .zero false ↔ ∀ p ∈ pairs, p.1.decode.exact = p.2.decode.exact)
  /-- Otherwise it is a positive number. -/
  pos : s.isNaN = false → s ≠ .infinite false → s ≠ .zero false →
    s.isFinite = true ∧ 0 < s.exact
  /-- It never carries a minus sign. -/
  isNegative : s.isNaN = false → s.isNegative = false

/-- What an inner product over these pairs is. -/
structure ProductOutcome (pairs : List (Half × Half)) (s : Single) : Prop where
  /-- It is a NaN exactly when some product is undefined or both infinities are
  among the products. -/
  isNaN_iff : s.isNaN = true ↔ (∃ p ∈ pairs, UndefinedProduct p) ∨
    ((∃ p ∈ pairs, productTerm p = .infinite false) ∧ ∃ p ∈ pairs, productTerm p = .infinite true)
  /-- If it is none, it is an infinity exactly when a product is that one. -/
  eq_infinite_iff : s.isNaN = false → ∀ sign,
    (s = .infinite sign ↔ ∃ p ∈ pairs, productTerm p = .infinite sign)
  /-- Otherwise it is finite. -/
  isFinite : s.isNaN = false → (∀ sign, s ≠ .infinite sign) → s.isFinite = true
  /-- It is negative zero exactly when all products are. -/
  eq_negZero_iff : s = .zero true ↔ ∀ p ∈ pairs, productTerm p = .zero true

section Distance

variable {pairs : List (Half × Half)} {term : Half × Half → Single}
  (hterm : ∀ p, MeasuresGap p (term p)) (hsign : ∀ p, (term p).isNegative = false)
include hterm hsign

/-- Terms without a sign are undefined exactly when some difference is. -/
theorem undefinedSum_map_iff :
    UndefinedSum (pairs.map term) ↔ ∃ p ∈ pairs, UndefinedDifference p := by
  constructor
  · rintro (⟨t, ht, hnan⟩ | ⟨-, hneg⟩)
    · obtain ⟨p, hp, rfl⟩ := List.mem_map.mp ht
      exact ⟨p, hp, (hterm p).isNaN_iff.mp hnan⟩
    · obtain ⟨p, -, heq⟩ := List.mem_map.mp hneg
      have hs := hsign p
      rw [heq] at hs
      exact Bool.noConfusion hs
  · rintro ⟨p, hp, hundef⟩
    exact Or.inl ⟨term p, List.mem_map_of_mem hp, (hterm p).isNaN_iff.mpr hundef⟩

/-- If no difference is undefined, an infinite term stands for an infinite element. -/
theorem infinite_mem_map_iff (hdef : ∀ p ∈ pairs, ¬UndefinedDifference p) :
    .infinite false ∈ pairs.map term ↔ ∃ p ∈ pairs, InfinitePair p := by
  rw [List.mem_map]
  exact exists_congr fun p => and_congr_right fun hp =>
    (hterm p).eq_infinite_iff (hsign p) (hdef p hp)

/-- If no difference is undefined, all terms are at least zero. -/
theorem atLeast_of_mem_map (hdef : ∀ p ∈ pairs, ¬UndefinedDifference p) :
    ∀ t ∈ pairs.map term, AtLeast 0 t := by
  intro t ht
  obtain ⟨p, hp, rfl⟩ := List.mem_map.mp ht
  exact atLeast_zero (Bool.eq_false_iff.mpr fun hx => hdef p hp ((hterm p).isNaN_iff.mp hx))
    (hsign p)

/-- Over finite elements the sum is zero exactly when no term is anything else. -/
theorem sumSingles_eq_zero_iff (hne : pairs ≠ []) (hall : ∀ p ∈ pairs, FinitePair p) :
    sumSingles (pairs.map term) = .zero false ↔
      ∀ p ∈ pairs, p.1.decode.exact = p.2.decode.exact := by
  have hterms := atLeast_of_mem_map hterm hsign fun p hp => (hall p hp).not_undefinedDifference
  constructor
  · intro hzero p hp
    by_contra hvalues
    have hmem : term p ∈ pairs.map term := List.mem_map_of_mem hp
    have hone := (hterms _ hmem).one (mt ((hterm p).exact_eq_zero_iff (hall p hp)).mp hvalues)
    have hsum := AtLeast.foldl_negZero hterms hmem hone
    rw [← sumSingles, hzero] at hsum
    exact not_atLeast_one_zero false hsum
  · intro hvalues
    have hzeros : ∀ t ∈ pairs.map term, t = .zero false := by
      intro t ht
      obtain ⟨p, hp, rfl⟩ := List.mem_map.mp ht
      exact eq_zero_of_exact ((hterm p).isFinite_iff.mpr (hall p hp)) (hsign p)
        (((hterm p).exact_eq_zero_iff (hall p hp)).mpr (hvalues p hp))
    obtain ⟨p, rest, rfl⟩ := List.exists_cons_of_ne_nil hne
    rw [List.map_cons] at hterms hzeros ⊢
    obtain ⟨hfirst, hrest⟩ := List.forall_mem_cons.mp hzeros
    rw [sumSingles, List.foldl_cons, (hterms _ List.mem_cons_self).negZero_add, hfirst]
    exact foldl_add_posZero hrest

/-- A kernel whose terms measure gaps without a sign has the outcome of a distance. -/
theorem distanceOutcome (hne : pairs ≠ [])
    (hfin : ∀ front, front <+: pairs → (∀ p ∈ front, FinitePair p) →
      (sumSingles (front.map term)).isFinite = true) :
    DistanceOutcome pairs (sumSingles (pairs.map term)) := by
  have hsum := sumsTo_sumSingles (fun p _ => (hterm p).isFinite_iff.mp) hfin
  have hnan := hsum.isNaN_iff.trans (undefinedSum_map_iff hterm hsign)
  have hwhole := hfin pairs List.prefix_rfl
  have hzero := sumSingles_eq_zero_iff hterm hsign hne
  generalize hs : sumSingles (pairs.map term) = s at *
  have hdef (h : s.isNaN = false) : ∀ p ∈ pairs, ¬UndefinedDifference p :=
    fun p hp hundef => Bool.eq_false_iff.mp h (hnan.mpr ⟨p, hp, hundef⟩)
  have hinf (h : s.isNaN = false) : s = .infinite false ↔ ∃ p ∈ pairs, InfinitePair p :=
    (hsum.eq_infinite_iff h false).trans (infinite_mem_map_iff hterm hsign (hdef h))
  have hall (h : s.isNaN = false) (hi : s ≠ .infinite false) : ∀ p ∈ pairs, FinitePair p := by
    intro p hp
    by_contra hpair
    exact hi ((hinf h).mpr ⟨p, hp, (infinitePair_iff (hdef h p hp)).mpr hpair⟩)
  have hnonneg (h : s.isNaN = false) : AtLeast 0 s := by
    obtain ⟨p, rest, rfl⟩ := List.exists_cons_of_ne_nil hne
    have hterms := atLeast_of_mem_map hterm hsign (hdef h)
    rw [← hs]
    exact AtLeast.foldl_negZero hterms (List.mem_map_of_mem List.mem_cons_self)
      (hterms _ (List.mem_map_of_mem List.mem_cons_self))
  exact
    { isNaN_iff := hnan
      eq_infinite_iff := hinf
      eq_zero_iff := fun h hi => hzero (hall h hi)
      pos := fun h hi hz => by
        have hfinite := hwhole (hall h hi)
        refine ⟨hfinite, AtLeast.exact_pos ((hnonneg h).one fun h0 => hz ?_) hfinite⟩
        exact eq_zero_of_exact hfinite (hnonneg h).isNegative h0
      isNegative := fun h => (hnonneg h).isNegative }

end Distance

/-- The sum of products has the outcome of an inner product. -/
theorem productOutcome {pairs : List (Half × Half)}
    (hfin : ∀ front, front <+: pairs → (∀ p ∈ front, FinitePair p) →
      (sumSingles (front.map productTerm)).isFinite = true) :
    ProductOutcome pairs (sumSingles (pairs.map productTerm)) := by
  have hsum := sumsTo_sumSingles (fun p _ => isFinite_productTerm.mp) hfin
  exact
    { isNaN_iff := by
        rw [hsum.isNaN_iff, UndefinedSum, List.mem_map, List.mem_map]
        simp only [List.mem_map, exists_exists_and_eq_and, isNaN_productTerm]
      eq_infinite_iff := fun h sign => (hsum.eq_infinite_iff h sign).trans List.mem_map
      isFinite := fun h hi => (infinite_or_isFinite h).resolve_left fun ⟨sign, hs⟩ => hi sign hs
      eq_negZero_iff := by
        rw [sumSingles, foldl_add_eq_negZero_iff, List.forall_mem_map]
        exact and_iff_right rfl }

/-- Over beginnings of the two vectors that have only finite elements the kernels
stay in range. -/
theorem isFinite_sumSingles_of_front {a b : HalfVector}
    (hlen : (a.zip b).length ≤ maxDimension) {front : List (Half × Half)}
    (hfront : front <+: a.zip b) (h : ∀ p ∈ front, FinitePair p) :
    (sumSingles (front.map squareTerm)).isFinite = true ∧
      (sumSingles (front.map taxicabTerm)).isFinite = true ∧
      (sumSingles (front.map productTerm)).isFinite = true := by
  have hle := hfront.length_le.trans hlen
  obtain ⟨n, rfl⟩ := exists_take_of_front hfront
  rw [← squaredDistance_eq, ← taxicabDistance_eq, ← innerProduct_eq]
  exact ⟨(squaredDistance_accurate hle h).1, (taxicabDistance_accurate hle h).1,
    (innerProduct_accurate hle h).1⟩

end HalfKernels

namespace Registry

open HalfKernels

/-- Special values through the kernels: for every dimension in range and whatever
the bits of the elements, the distances and the inner product of a bound registry
are undefined, infinite, zero or other numbers exactly as the pairs of elements
demand. -/
theorem special_values (host : CapabilitySet) {dimension : ℕ} {a b : HalfVector}
    (hpos : 1 ≤ dimension) (hmax : dimension ≤ maxDimension)
    (ha : dimension ≤ a.length) (hb : dimension ≤ b.length) :
    (∃ s, (fresh.bind host .portable).squaredDistance dimension a b = .ok s ∧
      DistanceOutcome ((a.take dimension).zip (b.take dimension)) s) ∧
    (∃ s, (fresh.bind host .portable).taxicabDistance dimension a b = .ok s ∧
      DistanceOutcome ((a.take dimension).zip (b.take dimension)) s) ∧
    (∃ s, (fresh.bind host .portable).innerProduct dimension a b = .ok s ∧
      ProductOutcome ((a.take dimension).zip (b.take dimension)) s) := by
  have hlength : ((a.take dimension).zip (b.take dimension)).length = dimension := by
    rw [List.length_zip, List.length_take, List.length_take]
    omega
  have hlen := hlength.trans_le hmax
  have hne : (a.take dimension).zip (b.take dimension) ≠ [] := by
    rw [← List.length_pos_iff, hlength]
    exact hpos
  refine ⟨⟨HalfKernels.squaredDistance _ _, onHalves_of_portable host _ hpos hmax ha hb, ?_⟩,
    ⟨HalfKernels.taxicabDistance _ _, onHalves_of_portable host _ hpos hmax ha hb, ?_⟩,
    ⟨HalfKernels.innerProduct _ _, onHalves_of_portable host _ hpos hmax ha hb, ?_⟩⟩
  · rw [squaredDistance_eq]
    exact distanceOutcome (fun _ => measuresGap_squareTerm) (fun _ => Binary.isNegative_square _)
      hne fun _ hfront h => (isFinite_sumSingles_of_front hlen hfront h).1
  · rw [taxicabDistance_eq]
    exact distanceOutcome (fun _ => measuresGap_taxicabTerm) (fun _ => Binary.isNegative_abs _)
      hne fun _ hfront h => (isFinite_sumSingles_of_front hlen hfront h).2.1
  · rw [innerProduct_eq]
    exact productOutcome fun _ hfront h => (isFinite_sumSingles_of_front hlen hfront h).2.2

/-- An infinity next to a subnormal: the squared distance is infinite and, since
the infinity meets a zero, there is no inner product. -/
theorem special_values_of_infinity :
    (fresh.bind .none .portable).squaredDistance 2
        [Half.infinity, Half.leastPositive] [Half.negZero, Half.one] = .ok (.infinite false) ∧
      ∃ s, (fresh.bind .none .portable).innerProduct 2
        [Half.infinity, Half.leastPositive] [Half.negZero, Half.one] = .ok s ∧
        s.isNaN = true := by
  obtain ⟨⟨s, hs, hdistance⟩, -, t, ht, hproduct⟩ := @special_values .none 2
    [Half.infinity, Half.leastPositive] [Half.negZero, Half.one] (by decide) (by decide)
    (by decide) (by decide)
  have hnan : s.isNaN = false :=
    Bool.eq_false_iff.mpr (mt hdistance.isNaN_iff.mp (by decide))
  have hpair : (Half.infinity, Half.negZero) ∈ (([Half.infinity, Half.leastPositive].take 2).zip
      ([Half.negZero, Half.one].take 2)) := by decide
  have hundefined : UndefinedProduct (Half.infinity, Half.negZero) := by decide +kernel
  refine ⟨?_, t, ht, hproduct.isNaN_iff.mpr (Or.inl ⟨_, hpair, hundefined⟩)⟩
  rw [hs, (hdistance.eq_infinite_iff hnan).mpr ⟨_, hpair, Or.inl rfl⟩]

end Registry

end VectorDistance
