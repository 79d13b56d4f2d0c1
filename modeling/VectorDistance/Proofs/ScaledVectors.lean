import Mathlib
import VectorDistance.Proofs.CosineOutcome
import VectorDistance.Proofs.ScaledRounding

/-!
# Vectors scaled by a power of two

When every element of a vector is taken times one power of two, subnormal elements become
normal ones or the other way around, and still every rounding of the kernels is the scaled
image of the one before. Differences and partial sums are whole quanta of their format,
squares are far from its least values, and the 64-bit format has room for the roots and
their product. So distances and inner products scale exactly, and a cosine does not change
at all. Powers that shrink are the growing ones read backwards.
-/

namespace VectorDistance

namespace Binary

variable {F : Format}

/-- The second number is `2 ^ k` times the first one, for a power that may be negative. -/
structure ScaledBy (k : ℤ) (x y : Binary F) : Prop where
  /-- The first number is finite. -/
  isFinite_left : x.isFinite = true
  /-- The second number is finite. -/
  isFinite_right : y.isFinite = true
  /-- The values are scaled. -/
  exact_eq : y.exact = 2 ^ k * x.exact

/-- Powers that are not negative scale whole quanta. -/
theorem scaledBy_natCast {k : ℕ} {x y : Binary F} : ScaledBy (k : ℤ) x y ↔ Scaled k x y := by
  rw [scaled_iff]
  constructor
  · rintro ⟨hx, hy, h⟩
    rw [zpow_natCast] at h
    exact ⟨hx, hy, h⟩
  · rintro ⟨hx, hy, h⟩
    rw [← zpow_natCast] at h
    exact ⟨hx, hy, h⟩

/-- Read backwards, numbers are scaled by the inverse power. -/
theorem ScaledBy.symm {k : ℤ} {x y : Binary F} (h : ScaledBy k x y) : ScaledBy (-k) y x where
  isFinite_left := h.isFinite_right
  isFinite_right := h.isFinite_left
  exact_eq := by
    rw [h.exact_eq, ← mul_assoc, ← zpow_add₀ two_ne_zero, neg_add_cancel, zpow_zero, one_mul]

end Binary

/-- The elements of the second vector are those of the first one, all finite, taken times
`2 ^ k`. -/
def HalfVector.ScaledBy (k : ℤ) (v w : HalfVector) : Prop :=
  List.Forall₂ (fun x y => Binary.ScaledBy k x.decode y.decode) v w

namespace HalfVector.ScaledBy

variable {k : ℤ} {v w : HalfVector}

/-- Read backwards, vectors are scaled by the inverse power. -/
theorem symm (h : ScaledBy k v w) : ScaledBy (-k) w v :=
  List.Forall₂.flip (h.imp fun _ _ => Binary.ScaledBy.symm)

/-- What shrinks in one direction grows in the other. -/
theorem of_neg (h : ScaledBy (-k) v w) : ScaledBy k w v := by
  rw [← neg_neg k]
  exact h.symm

/-- Scaled vectors have one length. -/
theorem length_eq (h : ScaledBy k v w) : v.length = w.length :=
  List.Forall₂.length_eq h

/-- So neither is empty if one of them is not. -/
theorem ne_nil (h : ScaledBy k v w) (hne : v ≠ []) : w ≠ [] := by
  rw [← List.length_pos_iff, ← h.length_eq, List.length_pos_iff]
  exact hne

/-- The elements before are finite. -/
theorem isFinite_left (h : ScaledBy k v w) : ∀ x ∈ v, x.isFinite = true := by
  refine ((List.forall₂_and_left v w).mp (h.imp fun x y hxy => ⟨?_, hxy⟩)).1
  rw [← Half.isFinite_decode]
  exact hxy.isFinite_left

/-- So are those after. -/
theorem isFinite_right (h : ScaledBy k v w) : ∀ x ∈ w, x.isFinite = true :=
  h.symm.isFinite_left

/-- A finite vector is one time itself. -/
theorem refl (hv : ∀ x ∈ v, x.isFinite = true) : ScaledBy ((0 : ℕ) : ℤ) v v := by
  refine List.forall₂_same.mpr fun x hx => Binary.scaledBy_natCast.mpr (Binary.Scaled.refl ?_)
  rw [Half.isFinite_decode]
  exact hv x hx

end HalfVector.ScaledBy

namespace HalfKernels

open Binary HalfVector

/-! ## Terms -/

/-- A pair of elements and the pair of the scaled ones. -/
structure ScaledPair (j k : ℕ) (p q : Half × Half) : Prop where
  /-- The left element is scaled by its power. -/
  left : Scaled j p.1.decode q.1.decode
  /-- So is the right one. -/
  right : Scaled k p.2.decode q.2.decode

namespace ScaledPair

variable {j k : ℕ} {p q : Half × Half}

/-- The pair before is finite. -/
theorem finitePair_left (h : ScaledPair j k p q) : FinitePair p := by
  rw [FinitePair, ← Half.isFinite_decode, ← Half.isFinite_decode]
  exact ⟨h.left.isFinite_left, h.right.isFinite_left⟩

/-- So is the pair after. -/
theorem finitePair_right (h : ScaledPair j k p q) : FinitePair q := by
  rw [FinitePair, ← Half.isFinite_decode, ← Half.isFinite_decode]
  exact ⟨h.left.isFinite_right, h.right.isFinite_right⟩

/-- Differences of elements scaled alike are scaled. -/
theorem difference (h : ScaledPair k k p q) :
    Scaled k (p.1.decode - p.2.decode) (q.1.decode - q.2.decode) :=
  h.left.add h.right.neg (difference_roundsSafely h.finitePair_left).1.1.1
    (difference_roundsSafely h.finitePair_right).1.1.1

/-- Absolute differences are. -/
theorem taxicabTerm (h : ScaledPair k k p q) : Scaled k (taxicabTerm p) (taxicabTerm q) :=
  h.difference.abs

/-- Squared differences are scaled twice. -/
theorem squareTerm (h : ScaledPair k k p q) : Scaled (k + k) (squareTerm p) (squareTerm q) := by
  obtain ⟨⟨⟨hfin, -⟩, hclear⟩, -⟩ := square_roundsSafely h.finitePair_left
  obtain ⟨⟨⟨hfin', -⟩, -⟩, -⟩ := square_roundsSafely h.finitePair_right
  exact h.difference.mul h.difference hfin hfin' hclear

/-- Products are scaled by both powers. -/
theorem productTerm (h : ScaledPair j k p q) : Scaled (j + k) (productTerm p) (productTerm q) := by
  obtain ⟨⟨⟨hfin, -⟩, hclear⟩, -⟩ := product_roundsSafely h.finitePair_left
  obtain ⟨⟨⟨hfin', -⟩, -⟩, -⟩ := product_roundsSafely h.finitePair_right
  exact h.left.mul h.right hfin hfin' hclear

/-- Squares of the left elements are scaled twice. -/
theorem leftTerm (h : ScaledPair j k p q) : Scaled (j + j) (leftTerm p) (leftTerm q) :=
  ScaledPair.productTerm (p := (p.1, p.1)) (q := (q.1, q.1)) ⟨h.left, h.left⟩

end ScaledPair

/-- The pairs of scaled vectors are scaled. -/
theorem forall₂_scaledPair {j k : ℕ} {a b a' b' : HalfVector} (ha : HalfVector.ScaledBy j a a')
    (hb : HalfVector.ScaledBy k b b') :
    List.Forall₂ (ScaledPair j k) (a.zip b) (a'.zip b') := by
  induction ha generalizing b b' with
  | nil => exact .nil
  | cons hx _ ih =>
    cases hb with
    | nil => exact .nil
    | cons hy hb =>
      exact .cons ⟨scaledBy_natCast.mp hx, scaledBy_natCast.mp hy⟩ (ih hb)

/-- What the kernels need of the pairs of two vectors and of the scaled ones. -/
structure ScaledPairs (j k : ℕ) (a b a' b' : HalfVector) : Prop where
  /-- Each pair is scaled. -/
  scaled : List.Forall₂ (ScaledPair j k) (a.zip b) (a'.zip b')
  /-- The pairs before are no more than a dimension in range. -/
  length_left : (a.zip b).length ≤ maxDimension
  /-- Nor are those after. -/
  length_right : (a'.zip b').length ≤ maxDimension
  /-- The pairs before are finite. -/
  finite_left : ∀ p ∈ a.zip b, FinitePair p
  /-- So are those after. -/
  finite_right : ∀ p ∈ a'.zip b', FinitePair p

/-- Scaled vectors of one length in range have such pairs. -/
theorem scaledPairs {j k : ℕ} {a b a' b' : HalfVector} (ha : HalfVector.ScaledBy j a a')
    (hb : HalfVector.ScaledBy k b b') (hlen : a.length = b.length)
    (hmax : a.length ≤ maxDimension) : ScaledPairs j k a b a' b' := by
  have hpairs := forall₂_scaledPair ha hb
  have hzip : (a.zip b).length ≤ maxDimension := by
    rw [List.length_zip, ← hlen, Nat.min_self]
    exact hmax
  exact
    { scaled := hpairs
      length_left := hzip
      length_right := hpairs.length_eq.symm.trans_le hzip
      finite_left := finitePair_of_mem_zip ha.isFinite_left hb.isFinite_left
      finite_right := finitePair_of_mem_zip ha.isFinite_right hb.isFinite_right }

/-- A running sum of scaled terms is scaled, from a zero. -/
theorem scaled_foldl_zero {i : ℕ} {s : Bool} {term : Half × Half → Single}
    {l l' : List (Half × Half)} (hl : List.Forall₂ (fun p q => Scaled i (term p) (term q)) l l')
    (h : ((l.map term).foldl (· + ·) (zero s)).isFinite = true)
    (h' : ((l'.map term).foldl (· + ·) (zero s)).isFinite = true) :
    Scaled i ((l.map term).foldl (· + ·) (zero s)) ((l'.map term).foldl (· + ·) (zero s)) := by
  refine Scaled.foldl_add ?_ (scaled_iff.mpr ⟨rfl, rfl, ?_⟩) h h'
  · rw [List.forall₂_map_left_iff, List.forall₂_map_right_iff]
    exact hl
  · rw [exact_zero, mul_zero]

/-! ## Distances and products -/

section Vectors

variable {k : ℕ} {a b a' b' : HalfVector} (ha : HalfVector.ScaledBy k a a')
include ha

/-- Over vectors scaled together the distances are scaled. -/
theorem distances_scaled (hb : HalfVector.ScaledBy k b b') (hlen : a.length = b.length)
    (hmax : a.length ≤ maxDimension) :
    Binary.ScaledBy (k + k) (squaredDistance a b) (squaredDistance a' b') ∧
      Binary.ScaledBy k (taxicabDistance a b) (taxicabDistance a' b') := by
  have h := scaledPairs ha hb hlen hmax
  have hs := (squaredDistance_accurate h.length_left h.finite_left).1
  have hs' := (squaredDistance_accurate h.length_right h.finite_right).1
  have ht := (taxicabDistance_accurate h.length_left h.finite_left).1
  have ht' := (taxicabDistance_accurate h.length_right h.finite_right).1
  rw [squaredDistance_eq] at hs hs' ⊢
  rw [taxicabDistance_eq] at ht ht' ⊢
  rw [squaredDistance_eq, taxicabDistance_eq, ← Nat.cast_add]
  exact ⟨scaledBy_natCast.mpr
      (scaled_foldl_zero (h.scaled.imp fun _ _ => ScaledPair.squareTerm) hs hs'),
    scaledBy_natCast.mpr
      (scaled_foldl_zero (h.scaled.imp fun _ _ => ScaledPair.taxicabTerm) ht ht')⟩

variable (hb : ∀ x ∈ b, x.isFinite = true) (hlen : a.length = b.length)
  (hmax : a.length ≤ maxDimension)
include hb hlen hmax

/-- Over vectors of which one is scaled the inner product is scaled. -/
theorem innerProduct_scaled : Binary.ScaledBy k (innerProduct a b) (innerProduct a' b) := by
  have h := scaledPairs ha (HalfVector.ScaledBy.refl hb) hlen hmax
  have hp := (innerProduct_accurate h.length_left h.finite_left).1
  have hp' := (innerProduct_accurate h.length_right h.finite_right).1
  rw [innerProduct_eq] at hp hp' ⊢
  rw [innerProduct_eq]
  exact scaledBy_natCast.mpr
    (scaled_foldl_zero (h.scaled.imp fun _ _ => ScaledPair.productTerm) hp hp')

end Vectors

/-! ## Cosines -/

namespace CosineSums

/-- The sums behind a cosine after the left vector is scaled. -/
structure Scaled (k : ℕ) (sums sums' : CosineSums) : Prop where
  /-- The dot product is scaled. -/
  dot : Binary.Scaled k sums.dot sums'.dot
  /-- The left norm is scaled twice. -/
  leftNorm : Binary.Scaled (k + k) sums.leftNorm sums'.leftNorm
  /-- The right norm is the same. -/
  rightNorm : sums.rightNorm = sums'.rightNorm
  /-- Dot products start from a zero without a minus sign and never end at one with it. -/
  dot_ne : sums.dot ≠ zero true ∧ sums'.dot ≠ zero true

end CosineSums

variable {k : ℕ} {sums sums' : CosineSums}

/-- The product of the roots is scaled as the dot product is. -/
theorem roots_scaled (hs : CosineSums.Scaled k sums sums') (h : sums.Usable)
    (h' : sums'.Usable) : Scaled k sums.roots sums'.roots := by
  have hleft := (sqrt_toDouble h.leftNorm h.leftNorm_pos h.leftNorm_le).1
  have hleft' := (sqrt_toDouble h'.leftNorm h'.leftNorm_pos h'.leftNorm_le).1
  have hright := (sqrt_toDouble h.rightNorm h.rightNorm_pos h.rightNorm_le).1
  have hroot := Scaled.sqrt (by decide) (hs.leftNorm.widen Format.single_embedsIn_double)
    hleft hleft'
  have hmul := hroot.mul (Scaled.refl hright) (roots_bounds h).1
    (by rw [hs.rightNorm]; exact (roots_bounds h').1) (clearsUnderflow_roots h)
  rw [CosineSums.roots, CosineSums.roots, ← hs.rightNorm]
  exact hmul

/-- So the quotient of usable sums does not change. -/
theorem quotient_scaled (hs : CosineSums.Scaled k sums sums') (h : sums.Usable)
    (h' : sums'.Usable) :
    sums.dot.toDouble / sums.roots = sums'.dot.toDouble / sums'.roots := by
  have hroots_ne {t : CosineSums} (ht : t.Usable) : t.roots ≠ zero true := by
    intro hz
    have hlo := (roots_bounds ht).2.1
    rw [hz, exact_zero] at hlo
    norm_num at hlo
  have hdot : sums.dot.toDouble.isNegative = sums'.dot.toDouble.isNegative := by
    rw [toDouble, toDouble, isNegative_widen _ hs.dot.isFinite_left,
      isNegative_widen _ hs.dot.isFinite_right]
    exact hs.dot.isNegative_eq hs.dot_ne.1 hs.dot_ne.2
  have hroots := roots_scaled hs h h'
  exact (hs.dot.widen _).div_eq hroots hdot (hroots.isNegative_eq (hroots_ne h) (hroots_ne h'))

section Vectors

variable {a b a' : HalfVector} (ha : HalfVector.ScaledBy k a a')
  (hb : ∀ x ∈ b, x.isFinite = true) (hlen : a.length = b.length)
  (hmax : a.length ≤ maxDimension)
include ha hb hlen hmax

/-- Scaling the left vector scales the sums behind a cosine. -/
theorem ofVectors_scaled :
    CosineSums.Scaled k (CosineSums.ofVectors a b) (CosineSums.ofVectors a' b) := by
  have h := scaledPairs ha (HalfVector.ScaledBy.refl hb) hlen hmax
  rw [ofVectors_eq, ofVectors_eq]
  constructor
  · exact scaled_foldl_zero (h.scaled.imp fun _ _ => ScaledPair.productTerm)
      (dot_bounds h.length_left h.finite_left).1.isFinite
      (dot_bounds h.length_right h.finite_right).1.isFinite
  · exact scaled_foldl_zero (h.scaled.imp fun _ _ => ScaledPair.leftTerm)
      (norm_bounds h.length_left Prod.fst fun p hp => (h.finite_left p hp).1).1.isFinite
      (norm_bounds h.length_right Prod.fst fun p hp => (h.finite_right p hp).1).1.isFinite
  · change List.foldl _ _ _ = List.foldl _ _ _
    rw [map_rightTerm hlen, map_rightTerm (ha.length_eq.symm.trans hlen)]
  · have hne (l : List Single) : l.foldl (· + ·) (zero false) ≠ zero true := fun h =>
      absurd (foldl_add_eq_negZero_iff.mp h).1 (by decide)
    exact ⟨hne _, hne _⟩

/-- Scaling the left vector does not change the cosine. -/
theorem cosineSimilarity_scaled (hne : a ≠ []) :
    cosineSimilarity a b = cosineSimilarity a' b := by
  have hs := ofVectors_scaled ha hb hlen hmax
  have hlen' : a'.length = b.length := ha.length_eq.symm.trans hlen
  have hne' : a' ≠ [] := ha.ne_nil hne
  have hnorms : (CosineSums.ofVectors a' b).leftNorm.isZero = true ∨
      (CosineSums.ofVectors a' b).rightNorm.isZero = true ↔
      (CosineSums.ofVectors a b).leftNorm.isZero = true ∨
      (CosineSums.ofVectors a b).rightNorm.isZero = true := by
    rw [← hs.rightNorm, ← hs.leftNorm.isZero_eq]
  by_cases hzero : (CosineSums.ofVectors a b).leftNorm.isZero = true ∨
      (CosineSums.ofVectors a b).rightNorm.isZero = true
  · rw [cosineSimilarity, cosineSimilarity, Registry.similarity_eq_error_iff.mpr ⟨rfl, hzero⟩,
      Registry.similarity_eq_error_iff.mpr ⟨rfl, hnorms.mpr hzero⟩]
  · have husable := usable_of_isFinite hlen hne hmax
      (List.forall_mem_append.mpr ⟨ha.isFinite_left, hb⟩)
      (mt (isZero_norms_iff hlen hne).mpr hzero)
    have husable' := usable_of_isFinite hlen' hne' (ha.length_eq ▸ hmax)
      (List.forall_mem_append.mpr ⟨ha.isFinite_right, hb⟩)
      (mt (hnorms.mp ∘ (isZero_norms_iff hlen' hne').mpr) hzero)
    rw [cosineSimilarity, cosineSimilarity, similarity_eq husable, similarity_eq husable',
      quotient_scaled hs husable husable']

end Vectors

/-! ## Powers that shrink -/

section Powers

variable {k : ℤ} {a b a' b' : HalfVector} (ha : HalfVector.ScaledBy k a a')
include ha

/-- Distances are scaled by every power. -/
theorem distances_scaledBy (hb : HalfVector.ScaledBy k b b') (hlen : a.length = b.length)
    (hmax : a.length ≤ maxDimension) :
    Binary.ScaledBy (k + k) (squaredDistance a b) (squaredDistance a' b') ∧
      Binary.ScaledBy k (taxicabDistance a b) (taxicabDistance a' b') := by
  obtain ⟨n, rfl | rfl⟩ := k.eq_nat_or_neg
  · exact distances_scaled ha hb hlen hmax
  · obtain ⟨hs, ht⟩ := distances_scaled ha.of_neg hb.of_neg
      (ha.length_eq.symm.trans (hlen.trans hb.length_eq)) (ha.length_eq ▸ hmax)
    rw [← neg_add]
    exact ⟨hs.symm, ht.symm⟩

variable (hb : ∀ x ∈ b, x.isFinite = true) (hlen : a.length = b.length)
  (hmax : a.length ≤ maxDimension)
include hb hlen hmax

/-- So are inner products. -/
theorem innerProduct_scaledBy : Binary.ScaledBy k (innerProduct a b) (innerProduct a' b) := by
  obtain ⟨n, rfl | rfl⟩ := k.eq_nat_or_neg
  · exact innerProduct_scaled ha hb hlen hmax
  · exact (innerProduct_scaled ha.of_neg hb (ha.length_eq.symm.trans hlen)
      (ha.length_eq ▸ hmax)).symm

/-- And no power changes a cosine. -/
theorem cosineSimilarity_scaledBy (hne : a ≠ []) :
    cosineSimilarity a b = cosineSimilarity a' b := by
  obtain ⟨n, rfl | rfl⟩ := k.eq_nat_or_neg
  · exact cosineSimilarity_scaled ha hb hlen hmax hne
  · exact (cosineSimilarity_scaled ha.of_neg hb (ha.length_eq.symm.trans hlen)
      (ha.length_eq ▸ hmax) (ha.ne_nil hne)).symm

end Powers

end HalfKernels

namespace Registry

open HalfKernels

/-- Both calls answer with finite numbers, the second one with `factor` times the first. -/
def AnswersScaled (factor : ℚ) (call call' : Except Fault Single) : Prop :=
  ∃ s s', call = .ok s ∧ call' = .ok s' ∧ s.isFinite = true ∧ s'.isFinite = true ∧
    s'.exact = factor * s.exact

/-- Both calls answer with the same number, or both are refused as degenerate. -/
def AnswersAlike (call call' : Except Fault Double) : Prop :=
  (∃ s, call = .ok s ∧ call' = .ok s) ∨ (DegenerateInput call ∧ DegenerateInput call')

/-- What a registry answers over two vectors and over the same vectors scaled by `2 ^ k`. -/
structure ScalesAnswers (r : Registry) (dimension : ℕ) (k : ℤ) (a b a' b' : HalfVector) :
    Prop where
  /-- Squared distances are scaled by the square of the power. -/
  squaredDistance : AnswersScaled (4 ^ k) (r.squaredDistance dimension a b)
    (r.squaredDistance dimension a' b')
  /-- Taxicab distances are scaled by the power. -/
  taxicabDistance : AnswersScaled (2 ^ k) (r.taxicabDistance dimension a b)
    (r.taxicabDistance dimension a' b')
  /-- Inner products are so as soon as one of the vectors is. -/
  innerProduct : AnswersScaled (2 ^ k) (r.innerProduct dimension a b)
    (r.innerProduct dimension a' b)
  /-- Cosines do not change then. -/
  cosineSimilarity : AnswersAlike (r.cosineSimilarity dimension a b)
    (r.cosineSimilarity dimension a' b)

/-- Portable kernels that answer over two pairs of buffers with scaled numbers answer so
through a registry. -/
theorem answersScaled_onHalves (host : CapabilitySet)
    {kernel : HalfStrategy → HalfVector → HalfVector → Single} {dimension : ℕ} {j : ℤ}
    {a b a' b' : HalfVector}
    (hpos : 1 ≤ dimension) (hmax : dimension ≤ maxDimension) (ha : a.length = dimension)
    (hb : b.length = dimension) (ha' : a'.length = dimension) (hb' : b'.length = dimension)
    (h : Binary.ScaledBy j (kernel .portable a b) (kernel .portable a' b')) :
    AnswersScaled (2 ^ j)
      ((fresh.bind host .portable).onHalves (fun strategy x y => .ok (kernel strategy x y))
        dimension a b)
      ((fresh.bind host .portable).onHalves (fun strategy x y => .ok (kernel strategy x y))
        dimension a' b') := by
  rw [onHalves_of_length host _ hpos hmax ha hb, onHalves_of_length host _ hpos hmax ha' hb']
  exact ⟨kernel .portable a b, kernel .portable a' b', rfl, rfl, h.isFinite_left,
    h.isFinite_right, h.exact_eq⟩

/-- Scaling by a power of two commutes with the kernels of a bound registry, for every
integer power and every dimension in range: over finite elements, subnormal ones included,
distances and inner products are scaled as exact values, and cosines are the same numbers or
refused alike. -/
theorem scaling_exact (host : CapabilitySet) {k : ℤ} {dimension : ℕ} {a b a' b' : HalfVector}
    (hpos : 1 ≤ dimension) (hmax : dimension ≤ maxDimension)
    (hla : a.length = dimension) (hlb : b.length = dimension)
    (ha : HalfVector.ScaledBy k a a') (hb : HalfVector.ScaledBy k b b') :
    ScalesAnswers (fresh.bind host .portable) dimension k a b a' b' := by
  have hla' := ha.length_eq.symm.trans hla
  have hlb' := hb.length_eq.symm.trans hlb
  have hlen := hla.trans hlb.symm
  have hlen' := hla.trans_le hmax
  have hfinite := hb.isFinite_left
  obtain ⟨hsquared, htaxicab⟩ := distances_scaledBy ha hb hlen hlen'
  have hpower : (4 : ℚ) ^ k = 2 ^ (k + k) := by
    rw [zpow_add₀ two_ne_zero, ← mul_zpow]
    norm_num
  constructor
  · rw [hpower]
    exact answersScaled_onHalves host hpos hmax hla hlb hla' hlb' hsquared
  · exact answersScaled_onHalves host hpos hmax hla hlb hla' hlb' htaxicab
  · exact answersScaled_onHalves host hpos hmax hla hlb hla' hlb
      (innerProduct_scaledBy ha hfinite hlen hlen')
  · have hne : a ≠ [] := List.length_pos_iff.mp (hpos.trans_eq hla.symm)
    have hanswer : (fresh.bind host .portable).cosineSimilarity dimension a b =
        HalfKernels.cosineSimilarity a b := onHalves_of_length host _ hpos hmax hla hlb
    have hanswer' : (fresh.bind host .portable).cosineSimilarity dimension a' b =
        HalfKernels.cosineSimilarity a' b := onHalves_of_length host _ hpos hmax hla' hlb
    rw [hanswer, hanswer', ← cosineSimilarity_scaledBy ha hfinite hlen hlen' hne]
    have hone := cosineOutcome hlen hne hlen'
    by_cases hzeros : a.IsZeros ∨ b.IsZeros
    · exact Or.inr ⟨hone.degenerate_iff.mpr hzeros, hone.degenerate_iff.mpr hzeros⟩
    · obtain ⟨s, hs, -⟩ := hone.value hzeros
      exact Or.inl ⟨s, hs, hs⟩

/-- Powers may shrink normal halves to subnormal ones, and a positive zero to a negative one:
`2 ^ -10` times the least normal half and `3 * 2 ^ -14` are the least positive half and
three times it. -/
theorem scaling_exact_subnormal :
    HalfVector.ScaledBy (-10) [⟨0x0400⟩, Half.zero] [Half.leastPositive, Half.negZero] ∧
      HalfVector.ScaledBy (-10) [⟨0x0a00⟩, ⟨0x6400⟩] [⟨0x0003⟩, Half.one] ∧
      ScalesAnswers (fresh.bind .none .portable) 2 (-10) [⟨0x0400⟩, Half.zero]
        [⟨0x0a00⟩, ⟨0x6400⟩] [Half.leastPositive, Half.negZero] [⟨0x0003⟩, Half.one] := by
  have hscaled {x y : Half} (i : ℤ) (hx : x.decode.quanta = some i)
      (hy : y.decode.quanta = some (i * 2 ^ 10)) : Binary.ScaledBy (-10) y.decode x.decode :=
    (Binary.scaledBy_natCast.mpr ⟨i, hx, hy⟩).symm
  have ha : HalfVector.ScaledBy (-10) [⟨0x0400⟩, Half.zero] [Half.leastPositive, Half.negZero] :=
    .cons (hscaled (2 ^ 125) (by decide +kernel) (by decide +kernel))
      (.cons (hscaled 0 (by decide +kernel) (by decide +kernel)) .nil)
  have hb : HalfVector.ScaledBy (-10) [⟨0x0a00⟩, ⟨0x6400⟩] [⟨0x0003⟩, Half.one] :=
    .cons (hscaled (3 * 2 ^ 125) (by decide +kernel) (by decide +kernel))
      (.cons (hscaled (2 ^ 149) (by decide +kernel) (by decide +kernel)) .nil)
  exact ⟨ha, hb, scaling_exact .none (by decide) (by decide) rfl rfl ha hb⟩

end Registry

end VectorDistance
