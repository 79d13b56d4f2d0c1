import Mathlib
import VectorDistance.Proofs.CosineOutcome

/-!
# Several ways to one norm

The norm of a vector is also a distance from zeros and the root of an inner product,
and a cosine is also the quotient of three inner products. Each of these runs a loop
of its own, and all loops round alike at every step, over infinities, NaNs and zeros
of either sign too. Only the sign of a vanishing dot product can tell them apart.
Where both vectors of a cosine are the same, the quotient has lost at most six
roundoffs of the 64-bit format, so that it is one up to `2 ^ -50`.
-/

namespace VectorDistance

/-- Equal numbers have equal values, whatever the signs of zeros are. -/
theorem Binary.EqualUpToZeroSign.exact_eq {F : Format} {x y : Binary F}
    (h : EqualUpToZeroSign x y) : x.exact = y.exact := by
  rcases h with rfl | ⟨hx, hy⟩
  · rfl
  · obtain ⟨s, rfl⟩ := isZero_iff.mp hx
    obtain ⟨u, rfl⟩ := isZero_iff.mp hy
    rw [exact_zero, exact_zero]

namespace HalfVector

/-- A norm is zero exactly over zeros. -/
theorem isZero_norm_iff {v : HalfVector} : v.norm.isZero = true ↔ v.IsZeros := by
  rw [norm, Binary.isZero_sqrt, Binary.toDouble, Binary.isZero_widen, isZero_squaredNorm_iff]

/-- Scaling to unit length is refused exactly for vectors of zeros. -/
theorem degenerateInput_normalize_iff {v : HalfVector} :
    DegenerateInput v.normalize ↔ v.IsZeros := by
  rw [← isZero_norm_iff]
  unfold normalize
  dsimp only
  split
  · next hzero => exact iff_of_true ⟨_, rfl, rfl⟩ hzero
  · next hzero =>
    refine iff_of_false ?_ hzero
    rintro ⟨fault, hfault, -⟩
    cases hfault

end HalfVector

namespace HalfKernels

open Binary

/-- A cosine that exists is the quotient of three inner products, up to the sign of
a zero. -/
theorem equalUpToZeroSign_of_cosineSimilarity {a b : HalfVector} (hlen : a.length = b.length)
    (hne : a ≠ []) {s : Double} (h : cosineSimilarity a b = .ok s) :
    EqualUpToZeroSign s ((innerProduct a b).toDouble /
      ((innerProduct a a).toDouble.sqrt * (innerProduct b b).toDouble.sqrt)) := by
  obtain ⟨hleft, hright⟩ := norms_ofVectors hlen hne
  have hdot := (dot_ofVectors a b).widen Format.single_embedsIn_double
  rw [innerProduct_self, innerProduct_self, ← hleft, ← hright]
  rw [cosineSimilarity, CosineSums.similarity] at h
  split at h
  · cases h
  · cases h
    exact hdot.div _

/-- A number whose square lies within six roundoffs of one is one up to `2 ^ -50`. -/
theorem abs_sub_one_le {s : ℚ} (hs : 0 ≤ s)
    (hupper : s ^ 2 * (1 - 1 / 2 ^ 53) ^ 6 ≤ (1 + 1 / 2 ^ 53) ^ 6)
    (hlower : (1 - 1 / 2 ^ 53) ^ 6 ≤ s ^ 2 * (1 + 1 / 2 ^ 53) ^ 6) :
    |s - 1| ≤ 1 / 2 ^ 50 := by
  have hhigh : s * (1 - 1 / 2 ^ 53) ^ 3 ≤ (1 + 1 / 2 ^ 53) ^ 3 := by
    refine le_of_sq_le_sq ?_ (by norm_num)
    rwa [mul_pow, ← pow_mul, ← pow_mul]
  have hlow : (1 - 1 / 2 ^ 53) ^ 3 ≤ s * (1 + 1 / 2 ^ 53) ^ 3 := by
    refine le_of_sq_le_sq ?_ (mul_nonneg hs (by norm_num))
    rwa [mul_pow, ← pow_mul, ← pow_mul]
  norm_num at hhigh hlow ⊢
  rw [abs_le]
  constructor <;> linarith

/-- The cosine of a finite vector with itself is one up to `2 ^ -50`, unless the
vector holds nothing but zeros. -/
theorem cosineSimilarity_self {a : HalfVector} (hne : a ≠ []) (hmax : a.length ≤ maxDimension)
    (hfinite : ∀ h ∈ a, h.isFinite = true) (hzeros : ¬a.IsZeros) :
    ∃ s, cosineSimilarity a a = .ok s ∧ s.isFinite = true ∧ |s.exact - 1| ≤ 1 / 2 ^ 50 := by
  have hcomparable : Comparable a.length a a := comparable_of_isFinite rfl hne hmax
    (List.forall_mem_append.mpr ⟨hfinite, hfinite⟩) (by rwa [or_self])
  obtain ⟨husable, -⟩ := hcomparable.sums
  rw [List.take_length] at husable
  obtain ⟨s, hok, henc⟩ := similarity_encloses husable
  obtain ⟨hleft, hright⟩ := norms_ofVectors (rfl : a.length = a.length) hne
  have hdot : (CosineSums.ofVectors a a).dot.exact = a.squaredNorm.exact := by
    rw [(dot_ofVectors a a).exact_eq, innerProduct_self]
  have hpos := husable.leftNorm_pos
  have hupper := henc.upper
  have hlower := henc.lower
  have hsign := henc.nonneg
  rw [hleft] at hpos
  rw [hdot, hleft, hright, Format.roundoff_double] at hupper hlower
  rw [hdot] at hsign
  set N := a.squaredNorm.exact
  have hN : 0 < N ^ 2 := by positivity
  refine ⟨s, hok, henc.isFinite, abs_sub_one_le (hsign hpos.le) ?_ ?_⟩
  · refine le_of_mul_le_mul_right ?_ hN
    linarith
  · refine le_of_mul_le_mul_right ?_ hN
    linarith

end HalfKernels

namespace Registry

open Binary

/-- How the ways to one number over two vectors of equal dimension agree. -/
structure PathsAgree (r : Registry) (a b : HalfVector) : Prop where
  /-- The inner product of a vector with itself is its squared norm. -/
  innerProduct_self : r.innerProduct a.length a a = .ok a.squaredNorm
  /-- So is its squared distance from zeros, whatever their signs are. -/
  squaredDistance_zeros : ∀ z : HalfVector, z.length = a.length → z.IsZeros →
    r.squaredDistance a.length a z = .ok a.squaredNorm
  /-- Its norm is its distance from zeros. -/
  euclideanDistance_zeros : ∀ z : HalfVector, z.length = a.length → z.IsZeros →
    HalfVector.euclideanDistance r a z = .ok a.norm
  /-- A cosine is the quotient of an inner product and two roots of inner products, up
  to the sign of a zero. -/
  cosine : ∀ s, r.cosineSimilarity a.length a b = .ok s → ∃ dot left right,
    r.innerProduct a.length a b = .ok dot ∧ r.innerProduct a.length a a = .ok left ∧
    r.innerProduct a.length b b = .ok right ∧
    EqualUpToZeroSign s (dot.toDouble / (left.toDouble.sqrt * right.toDouble.sqrt))
  /-- A vector without a direction has no cosine with itself, and conversely. -/
  degenerate_iff : DegenerateInput a.normalize ↔
    DegenerateInput (r.cosineSimilarity a.length a a)
  /-- The cosine of a vector with itself is close to one. -/
  cosine_self : (∀ h ∈ a, h.isFinite = true) → ¬a.IsZeros →
    ∃ s, r.cosineSimilarity a.length a a = .ok s ∧ s.isFinite = true ∧
      |s.exact - 1| ≤ 1 / 2 ^ 50

/-- On a bound registry the ways to one number agree for all vectors of one
dimension in range, whatever the bits of their elements. -/
theorem paths_agree (host : CapabilitySet) {a b : HalfVector} (hlen : a.length = b.length)
    (hpos : 1 ≤ a.length) (hmax : a.length ≤ maxDimension) :
    PathsAgree (fresh.bind host .portable) a b := by
  have hne : a ≠ [] := List.length_pos_iff.mp hpos
  have hproduct {x y : HalfVector} (hx : x.length = a.length) (hy : y.length = a.length) :
      (fresh.bind host .portable).innerProduct a.length x y =
        .ok (HalfKernels.innerProduct x y) := onHalves_of_length host _ hpos hmax hx hy
  have hcosine {y : HalfVector} (hy : y.length = a.length) :
      (fresh.bind host .portable).cosineSimilarity a.length a y =
        HalfKernels.cosineSimilarity a y := onHalves_of_length host _ hpos hmax rfl hy
  have hzeros (z : HalfVector) (hz : z.length = a.length) (hzero : z.IsZeros) :
      (fresh.bind host .portable).squaredDistance a.length a z = .ok a.squaredNorm := by
    rw [squaredDistance, onHalves_of_length host _ hpos hmax rfl hz]
    exact congrArg Except.ok (HalfKernels.squaredDistance_zeros hz.symm hzero)
  refine ⟨?_, hzeros, fun z hz hzero => ?_, fun s hs => ?_, ?_, fun hfinite hnz => ?_⟩
  · rw [hproduct rfl rfl, HalfKernels.innerProduct_self]
  · rw [HalfVector.euclideanDistance, bind_commonDimension, if_pos hz.symm, hzeros z hz hzero]
    rfl
  · rw [hcosine hlen.symm] at hs
    exact ⟨_, _, _, hproduct rfl hlen.symm, hproduct rfl rfl, hproduct hlen.symm hlen.symm,
      HalfKernels.equalUpToZeroSign_of_cosineSimilarity hlen hne hs⟩
  · rw [HalfVector.degenerateInput_normalize_iff, hcosine rfl,
      (HalfKernels.cosineOutcome rfl hne hmax).degenerate_iff, or_self]
  · rw [hcosine rfl]
    exact HalfKernels.cosineSimilarity_self hne hmax hfinite hnz

/-- Over a subnormal half and minus one: the norm is the distance from two zeros of
different signs, and the cosine with itself is close to one. -/
theorem paths_agree_subnormal :
    HalfVector.euclideanDistance (fresh.bind .none .portable) [Half.leastPositive, Half.negOne]
        [Half.zero, Half.negZero] =
      .ok (HalfVector.norm [Half.leastPositive, Half.negOne]) ∧
    ∃ s, (fresh.bind .none .portable).cosineSimilarity 2 [Half.leastPositive, Half.negOne]
        [Half.leastPositive, Half.negOne] = .ok s ∧ s.isFinite = true ∧
      |s.exact - 1| ≤ 1 / 2 ^ 50 := by
  have h := @paths_agree .none [Half.leastPositive, Half.negOne] [Half.one, Half.zero]
    (by decide) (by decide) (by decide)
  exact ⟨h.euclideanDistance_zeros _ (by decide) (by decide),
    h.cosine_self (by decide) (by decide)⟩

end Registry

end VectorDistance
