import Mathlib
import VectorDistance.Proofs.CallOutcomes
import VectorDistance.Proofs.CosineRange
import VectorDistance.Proofs.SquaredNorm

/-!
# When there is a cosine

A cosine is refused exactly for a vector of zeros, and is a number exactly for
finite elements. An element that is not finite reaches the dot product and the
root of the norm on its side, whatever it meets there: sums and products never
become finite again, and the quotient of two values that are not finite is a NaN.
Without such an element the error bounds of the three sums keep the quotient in
range.
-/

namespace VectorDistance

/-- The quotient of two values that are not finite is undefined. -/
theorem Binary.isNaN_div_of_not_isFinite {F : Format} {x y : Binary F}
    (hx : x.isFinite = false) (hy : y.isFinite = false) : (x / y).isNaN = true := by
  change (Binary.div x y).isNaN = true
  cases x with
  | nan => rfl
  | infinite =>
    cases y with
    | nan => rfl
    | infinite => rfl
    | finite => exact Bool.noConfusion hy
  | finite => exact Bool.noConfusion hx

/-- What is not finite is an infinity or a NaN. -/
theorem Half.isFinite_eq_false_iff {h : Half} :
    h.isFinite = false ↔ h.isInfinite = true ∨ h.isNaN = true := by
  rw [isInfinite_iff]
  constructor
  · intro hf
    rw [← Bool.not_eq_true]
    tauto
  · rintro (⟨-, hf⟩ | hnan)
    · exact hf
    · refine Bool.eq_false_iff.mpr fun hf => ?_
      exact Bool.noConfusion ((isNaN_of_isFinite hf).symm.trans hnan)

/-- A refusal because the metric is undefined for the input. -/
def DegenerateInput {α : Type} (answer : Except Fault α) : Prop :=
  ∃ fault, answer = .error fault ∧ fault.kind = .degenerateInput

namespace HalfKernels

open Binary

/-- What a cosine of two vectors is. -/
structure CosineOutcome (a b : HalfVector) (answer : Except Fault Double) : Prop where
  /-- It is refused exactly when one of the vectors holds nothing but zeros. -/
  degenerate_iff : DegenerateInput answer ↔ a.IsZeros ∨ b.IsZeros
  /-- Otherwise there is one, a NaN exactly when some element is an infinity or a NaN,
  and a finite number if none is. -/
  value : ¬(a.IsZeros ∨ b.IsZeros) → ∃ s, answer = .ok s ∧
    (s.isNaN = true ↔ ∃ h ∈ a ++ b, h.isInfinite = true ∨ h.isNaN = true) ∧
    (s.isNaN = false → s.isFinite = true)

section Vectors

variable {a b : HalfVector} (hlen : a.length = b.length)
include hlen

/-- A dot product is finite only over finite elements. -/
theorem isFinite_of_dot (h : (CosineSums.ofVectors a b).dot.isFinite = true) :
    ∀ x ∈ a ++ b, x.isFinite = true := by
  rw [ofVectors_eq] at h
  have hpairs : ∀ p ∈ a.zip b, FinitePair p := fun p hp =>
    isFinite_productTerm.mp (isFinite_of_foldl_add h _ (List.mem_map_of_mem hp))
  refine List.forall_mem_append.mpr ⟨?_, ?_⟩
  · rw [← List.map_fst_zip hlen.le]
    exact List.forall_mem_map.mpr fun p hp => (hpairs p hp).1
  · rw [← List.map_snd_zip hlen.ge]
    exact List.forall_mem_map.mpr fun p hp => (hpairs p hp).2

/-- The roots behind a cosine are finite only over finite elements. -/
theorem isFinite_of_roots (hne : a ≠ [])
    (h : (CosineSums.ofVectors a b).roots.isFinite = true) : ∀ x ∈ a ++ b, x.isFinite = true := by
  obtain ⟨hleft, hright⟩ := norms_ofVectors hlen hne
  rw [CosineSums.roots, hleft, hright] at h
  obtain ⟨ha, hb⟩ := isFinite_of_mul h
  have hnorm {v : HalfVector} (hv : (HalfVector.squaredNorm v).toDouble.sqrt.isFinite = true) :
      ∀ x ∈ v, x.isFinite = true := by
    refine HalfVector.isFinite_of_squaredNorm ?_
    rw [← isFinite_widen Format.single_embedsIn_double]
    exact isFinite_of_sqrt hv
  exact List.forall_mem_append.mpr ⟨hnorm ha, hnorm hb⟩

/-- Elements that are not all finite have no cosine that is a number. -/
theorem isNaN_quotient (hne : a ≠ []) (h : ∃ x ∈ a ++ b, x.isFinite = false) :
    ((CosineSums.ofVectors a b).dot.toDouble / (CosineSums.ofVectors a b).roots).isNaN = true := by
  obtain ⟨x, hx, hxf⟩ := h
  have hnot : ¬∀ y ∈ a ++ b, y.isFinite = true := fun hall =>
    Bool.noConfusion (hxf.symm.trans (hall x hx))
  refine isNaN_div_of_not_isFinite ?_ ?_
  · rw [isFinite_toDouble]
    exact Bool.eq_false_iff.mpr (mt (isFinite_of_dot hlen) hnot)
  · exact Bool.eq_false_iff.mpr (mt (isFinite_of_roots hlen hne) hnot)

/-- Finite elements that are not all zero on either side are comparable. -/
theorem comparable_of_isFinite (hne : a ≠ []) (hmax : a.length ≤ maxDimension)
    (hfinite : ∀ x ∈ a ++ b, x.isFinite = true) (hzeros : ¬(a.IsZeros ∨ b.IsZeros)) :
    Comparable a.length a b := by
  obtain ⟨ha, hb⟩ := List.forall_mem_append.mp hfinite
  obtain ⟨hza, hzb⟩ := not_or.mp hzeros
  have hnonzero {v : HalfVector} (hv : ¬v.IsZeros) : ∃ h ∈ v, h.decode.isZero = false := by
    simpa only [HalfVector.IsZeros, not_forall, ← Half.isZero_decode_iff, Bool.not_eq_true,
      exists_prop] using hv
  exact
    { dimension_pos := List.length_pos_iff.mpr hne
      dimension_le := hmax
      length_left := le_rfl
      length_right := hlen.le
      isFinite_left := by rwa [List.take_length]
      isFinite_right := by rwa [hlen, List.take_length]
      nonzero_left := by rw [List.take_length]; exact hnonzero hza
      nonzero_right := by rw [hlen, List.take_length]; exact hnonzero hzb }

/-- So the sums behind their cosine are usable. -/
theorem usable_of_isFinite (hne : a ≠ []) (hmax : a.length ≤ maxDimension)
    (hfinite : ∀ x ∈ a ++ b, x.isFinite = true) (hzeros : ¬(a.IsZeros ∨ b.IsZeros)) :
    (CosineSums.ofVectors a b).Usable := by
  have husable := (comparable_of_isFinite hlen hne hmax hfinite hzeros).sums.1
  rwa [List.take_length, hlen, List.take_length] at husable

/-- One of the norms behind a cosine is zero exactly for a vector of zeros. -/
theorem isZero_norms_iff (hne : a ≠ []) :
    ((CosineSums.ofVectors a b).leftNorm.isZero = true ∨
      (CosineSums.ofVectors a b).rightNorm.isZero = true) ↔ a.IsZeros ∨ b.IsZeros := by
  obtain ⟨hleft, hright⟩ := norms_ofVectors hlen hne
  rw [hleft, hright, HalfVector.isZero_squaredNorm_iff, HalfVector.isZero_squaredNorm_iff]

/-- Over vectors of one dimension in range, a cosine is refused, a NaN or a finite
number exactly as the elements demand. -/
theorem cosineOutcome (hne : a ≠ []) (hmax : a.length ≤ maxDimension) :
    CosineOutcome a b (cosineSimilarity a b) := by
  have hnorms := isZero_norms_iff hlen hne
  refine ⟨?_, fun hzeros => ?_⟩
  · rw [← hnorms]
    constructor
    · rintro ⟨fault, hfault, -⟩
      exact (Registry.similarity_eq_error_iff.mp hfault).2
    · intro hzero
      exact ⟨_, Registry.similarity_eq_error_iff.mpr ⟨rfl, hzero⟩, rfl⟩
  · have hok : cosineSimilarity a b = .ok ((CosineSums.ofVectors a b).dot.toDouble /
        (CosineSums.ofVectors a b).roots) := by
      rw [← hnorms, ← Bool.or_eq_true] at hzeros
      exact if_neg hzeros
    simp only [← Half.isFinite_eq_false_iff]
    refine ⟨_, hok, ?_⟩
    -- the error bounds hold of finite elements only; the others are followed to a NaN
    by_cases hall : ∀ x ∈ a ++ b, x.isFinite = true
    · obtain ⟨s, hs, henc, -⟩ := (comparable_of_isFinite hlen hne hmax hall hzeros).similarity
      rw [List.take_length, hlen, List.take_length, hok, Except.ok.injEq] at hs
      rw [hs]
      refine ⟨iff_of_false ?_ ?_, fun _ => henc.isFinite⟩
      · rw [isNaN_of_isFinite henc.isFinite]
        exact Bool.false_ne_true
      · rintro ⟨x, hx, hxf⟩
        exact Bool.noConfusion (hxf.symm.trans (hall x hx))
    · have hsome : ∃ x ∈ a ++ b, x.isFinite = false := by
        simpa only [not_forall, Bool.not_eq_true, exists_prop] using hall
      have hnan := isNaN_quotient hlen hne hsome
      exact ⟨iff_of_true hnan hsome, fun h => Bool.noConfusion (h.symm.trans hnan)⟩

end Vectors

end HalfKernels

namespace Registry

open HalfKernels

/-- Outcome of a cosine on a bound registry, for every dimension in range and
whatever the bits of the elements: a degenerate input exactly for zeros of either
sign alone on one side, and otherwise a NaN or a finite number, as the elements
demand. -/
theorem cosine_outcome (host : CapabilitySet) {dimension : ℕ} {a b : HalfVector}
    (hpos : 1 ≤ dimension) (hmax : dimension ≤ maxDimension)
    (ha : dimension ≤ a.length) (hb : dimension ≤ b.length) :
    CosineOutcome (a.take dimension) (b.take dimension)
      ((fresh.bind host .portable).cosineSimilarity dimension a b) := by
  have hla : (a.take dimension).length = dimension := List.length_take_of_le ha
  have hlb : (b.take dimension).length = dimension := List.length_take_of_le hb
  have hne : a.take dimension ≠ [] := List.length_pos_iff.mp (hpos.trans_eq hla.symm)
  rw [cosineSimilarity, onHalves_of_portable host _ hpos hmax ha hb]
  exact cosineOutcome (hla.trans hlb.symm) hne (hla.trans_le hmax)

/-- An infinity across from a zero: over two elements the cosine is a NaN, while over
the first ones alone, of which one is negative zero, there is none. -/
theorem cosine_outcome_infinity :
    (∃ s, (fresh.bind .none .portable).cosineSimilarity 2
        [Half.negZero, Half.infinity, Half.one] [Half.leastPositive, Half.zero] = .ok s ∧
      s.isNaN = true) ∧
    DegenerateInput ((fresh.bind .none .portable).cosineSimilarity 1
      [Half.negZero, Half.infinity, Half.one] [Half.leastPositive, Half.zero]) := by
  have htwo := @cosine_outcome .none 2 [Half.negZero, Half.infinity, Half.one]
    [Half.leastPositive, Half.zero] (by decide) (by decide) (by decide) (by decide)
  have hone := @cosine_outcome .none 1 [Half.negZero, Half.infinity, Half.one]
    [Half.leastPositive, Half.zero] (by decide) (by decide) (by decide) (by decide)
  obtain ⟨s, hs, hnan, -⟩ := htwo.value (by decide)
  refine ⟨⟨s, hs, hnan.mpr (by decide)⟩, hone.degenerate_iff.mpr (by decide)⟩

end Registry

end VectorDistance
