import Mathlib
import VectorDistance.Proofs.DoubleRounding
import VectorDistance.Proofs.NormAgreement

/-!
# Which results are finite

Encoding values, sums, differences and multiples check every element: they have a
result exactly if all elements are in range, which is finite then, and otherwise name
the first element that is not. Scaling to unit length checks nothing but the norm.
Its results are finite over finite elements, where no quotient exceeds one. Over
infinities the norm is infinite: finite elements vanish and infinite ones become
NaNs; over a NaN every element does.
-/

namespace VectorDistance

namespace Binary

variable {F : Format}

/-- A running sum with a NaN among its terms is a NaN. -/
theorem isNaN_foldl_add {start t : Binary F} {terms : List (Binary F)} (ht : t ∈ terms)
    (hnan : t.isNaN = true) : (terms.foldl (· + ·) start).isNaN = true := by
  induction terms using List.reverseRecOn with
  | nil => exact absurd ht List.not_mem_nil
  | append_singleton terms last ih =>
    rw [List.foldl_append, List.foldl_cons, List.foldl_nil, isNaN_add_iff]
    rcases List.mem_append.mp ht with hmem | hmem
    · exact Or.inl (ih hmem)
    · rw [← List.mem_singleton.mp hmem]
      exact Or.inr (Or.inl hnan)

/-- Beyond the finite range there is only infinity. -/
theorem AtLeast.eq_infinite {x : Binary F} (h : AtLeast (2 ^ F.capacity) x) :
    x = .infinite false := by
  cases h with
  | infinite => rfl
  | finite hn h => exact absurd hn.2 (Nat.not_lt.mpr h)

/-- The square of an infinity is infinite. -/
theorem square_infinite (s : Bool) : (infinite s : Binary F).square = .infinite false := by
  cases s <;> rfl

end Binary

namespace HalfVector

open Binary

/-! ## Checked results -/

/-- What encoding the values with a check of each comes to. -/
structure ChecksRange (values : List Single) (outcome : Except Fault HalfVector) : Prop where
  /-- There is a result exactly if all values are in range, and it encodes them. -/
  eq_ok_iff : ∀ u, outcome = .ok u ↔
    (∀ x ∈ values, Half.inRange x = true) ∧ u = values.map Half.encode
  /-- A result is finite. -/
  isFinite : ∀ u, outcome = .ok u → ∀ h ∈ u, h.isFinite = true
  /-- A refusal names the first value that is out of range. -/
  eq_error_iff : ∀ fault, outcome = .error fault ↔ ∃ front x back, values = front ++ x :: back ∧
    (∀ y ∈ front, Half.inRange y = true) ∧ Half.inRange x = false ∧ fault = .outOfHalfRange x

/-- Values are refused for the first one out of range. -/
theorem ofSingles_eq_error_iff {values : List Single} {fault : Fault} :
    ofSingles values = .error fault ↔ ∃ front x back, values = front ++ x :: back ∧
      (∀ y ∈ front, Half.inRange y = true) ∧ Half.inRange x = false ∧
      fault = .outOfHalfRange x := by
  constructor
  · intro h
    induction values with
    | nil => cases h
    | cons x values ih =>
      rw [ofSingles_cons, Half.checkedEncode] at h
      by_cases hx : Half.inRange x = true
      · rw [if_pos hx] at h
        cases hrest : ofSingles values with
        | ok t =>
          rw [hrest] at h
          cases h
        | error f =>
          rw [hrest] at h
          obtain rfl : f = fault := Except.error.inj h
          obtain ⟨front, y, back, rfl, hfront, hy⟩ := ih hrest
          exact ⟨x :: front, y, back, rfl, List.forall_mem_cons.mpr ⟨hx, hfront⟩, hy⟩
      · rw [if_neg hx] at h
        exact ⟨[], x, values, rfl, fun _ hy => absurd hy List.not_mem_nil,
          Bool.eq_false_of_not_eq_true hx, (Except.error.inj h).symm⟩
  · rintro ⟨front, x, back, rfl, hfront, hx, rfl⟩
    induction front with
    | nil =>
      rw [List.nil_append, ofSingles_cons, Half.checkedEncode, if_neg (Bool.eq_false_iff.mp hx)]
      rfl
    | cons y front ih =>
      obtain ⟨hy, hrest⟩ := List.forall_mem_cons.mp hfront
      rw [List.cons_append, ofSingles_cons, Half.checkedEncode, if_pos hy, ih hrest]
      rfl

/-- Encoding checks every value. -/
theorem checksRange_ofSingles (values : List Single) : ChecksRange values (ofSingles values) where
  eq_ok_iff _ := ofSingles_eq_ok_iff
  isFinite _ hu h hh := (isRegular_of_ofSingles hu h hh).1
  eq_error_iff _ := ofSingles_eq_error_iff

/-- Combining vectors of one length checks every combined element. -/
theorem checksRange_combine (op : Single → Single → Single) {a b : HalfVector}
    (h : a.length = b.length) :
    ChecksRange (List.zipWith (fun x y => op x.decode y.decode) a b) (combine op a b) := by
  have hcombine : combine op a b =
      ofSingles (List.zipWith (fun x y => op x.decode y.decode) a b) := by
    rw [combine, commonDimension, if_pos h]
    rfl
  rw [hcombine]
  exact checksRange_ofSingles _

/-- Vectors of different lengths are not combined. -/
theorem combine_of_length_ne (op : Single → Single → Single) {a b : HalfVector}
    (h : a.length ≠ b.length) : combine op a b = .error (.dimensionMismatch a.length b.length) := by
  rw [combine, commonDimension, if_neg h]
  rfl

/-! ## Elements scaled by a norm -/

/-- The squares of a vector without NaNs carry no minus sign. -/
theorem atLeast_squares {v : HalfVector} (hnan : ∀ h ∈ v, h.isNaN = false) :
    ∀ t ∈ v.map fun h => h.decode.square, AtLeast 0 t := by
  intro t ht
  obtain ⟨h, hh, rfl⟩ := List.mem_map.mp ht
  refine atLeast_zero ?_ (isNegative_square _)
  rw [isNaN_square, Half.isNaN_decode]
  exact hnan h hh

/-- The norm of a vector with a NaN is a NaN. -/
theorem isNaN_norm {v : HalfVector} {h : Half} (hh : h ∈ v) (hnan : h.isNaN = true) :
    v.norm.isNaN = true := by
  have hterm : h.decode.square.isNaN = true := by rw [isNaN_square, Half.isNaN_decode, hnan]
  have hsum : (squaredNorm v).isNaN = true := isNaN_foldl_add (List.mem_map_of_mem hh) hterm
  rw [norm]
  cases hs : squaredNorm v with
  | nan => rfl
  | infinite => rw [hs] at hsum; cases hsum
  | finite => rw [hs] at hsum; cases hsum

/-- The norm of a vector with an infinity and without NaNs is infinite. -/
theorem norm_of_isInfinite {v : HalfVector} (hnan : ∀ h ∈ v, h.isNaN = false) {h : Half}
    (hh : h ∈ v) (hinf : h.isInfinite = true) : v.norm = .infinite false := by
  have hterm : AtLeast (2 ^ Format.single.capacity) h.decode.square := by
    rw [Half.decode_of_isInfinite hinf, square_infinite]
    exact .infinite
  have hsum : squaredNorm v = .infinite false :=
    (AtLeast.foldl_negZero (atLeast_squares hnan) (List.mem_map_of_mem hh) hterm).eq_infinite
  rw [norm, hsum]
  rfl

/-- An undefined quotient is encoded as a NaN. -/
theorem scaleElement_of_isNaN {norm : Double} {h : Half}
    (hnan : (h.decode.toDouble / norm).isNaN = true) : scaleElement norm h = Half.canonicalNaN := by
  rw [scaleElement]
  cases hq : h.decode.toDouble / norm with
  | nan => rfl
  | infinite => rw [hq] at hnan; cases hnan
  | finite => rw [hq] at hnan; cases hnan

/-- A quotient by a NaN is undefined. -/
theorem isNaN_div_nan (x : Double) {norm : Double} (hnan : norm.isNaN = true) :
    (x / norm).isNaN = true := by
  change (Binary.div x norm).isNaN = true
  cases norm with
  | nan => cases x <;> rfl
  | infinite => cases hnan
  | finite => cases hnan

/-- Divided by infinity, finite elements vanish and all others become NaNs. -/
theorem isFinite_scaleElement_infinite (h : Half) :
    (scaleElement (.infinite false) h).isFinite = h.isFinite := by
  by_cases hf : h.isFinite = true
  · obtain ⟨s, m, hm, hd⟩ := exists_of_isFinite ((h.isFinite_decode).trans hf)
    have hdiv : (Binary.finite s m hm : Single).toDouble / (.infinite false : Double) =
        Binary.zero s := by
      cases s <;> rfl
    have hconv : (Binary.zero s : Double).convert Format.single = Binary.zero s := by
      rw [Binary.zero, convert, Nat.zero_mul, ofRatio_zero _ (Nat.two_pow_pos _)]
    rw [hf, scaleElement, hd, hdiv, hconv]
    cases s <;> rfl
  · have hfalse : h.isFinite = false := Bool.eq_false_of_not_eq_true hf
    have hwide : h.decode.toDouble.isFinite = false := by
      rw [isFinite_toDouble, Half.isFinite_decode, hfalse]
    rw [hfalse, scaleElement_of_isNaN (isNaN_div_of_not_isFinite hwide rfl)]
    rfl

/-- Scaled to unit length, an element is finite exactly if it was and no element of the
vector is a NaN. -/
theorem isFinite_scaleElement_iff {v : HalfVector} (hzeros : ¬v.IsZeros) {h : Half} (hh : h ∈ v) :
    (scaleElement v.norm h).isFinite = true ↔ h.isFinite = true ∧ ∀ x ∈ v, x.isNaN = false := by
  by_cases hnan : ∀ x ∈ v, x.isNaN = false
  · rw [and_iff_left hnan]
    by_cases hall : ∀ x ∈ v, x.isFinite = true
    · -- over finite elements no quotient exceeds one
      have hnorm : v.norm.isZero = false := Bool.eq_false_iff.mpr (mt isZero_norm_iff.mp hzeros)
      exact iff_of_true (isRegular_scaleElement hall hnorm hh).1 (hall h hh)
    · -- an infinity makes the norm infinite
      obtain ⟨x, hx, hxf⟩ : ∃ x ∈ v, ¬x.isFinite = true := by simpa using hall
      have hinf := Half.isInfinite_iff.mpr ⟨hnan x hx, Bool.eq_false_of_not_eq_true hxf⟩
      rw [norm_of_isInfinite hnan hx hinf, isFinite_scaleElement_infinite]
  · obtain ⟨x, hx, hxn⟩ : ∃ x ∈ v, x.isNaN = true := by simpa using hnan
    rw [scaleElement_of_isNaN (isNaN_div_nan _ (isNaN_norm hx hxn))]
    exact iff_of_false (by decide) fun hfin => hnan hfin.2

/-- Scaling to unit length is refused exactly for zeros, and scales every element else. -/
theorem normalize_eq (v : HalfVector) :
    normalize v = if v.norm.isZero then .error .normalizeZero
      else .ok (v.map (scaleElement v.norm)) := rfl

/-! ## All operations that encode -/

/-- Which results of the operations on two vectors, on values and on a factor are finite. -/
structure FiniteResults (values : List Single) (a b : HalfVector) (factor : Single) : Prop where
  /-- Encoding checks the values. -/
  encoded : ChecksRange values (ofSingles values)
  /-- Adding vectors of one length checks the sums. -/
  added : a.length = b.length →
    ChecksRange (List.zipWith (fun x y => x.decode + y.decode) a b) (add a b)
  /-- Subtracting vectors of one length checks the differences. -/
  subtracted : a.length = b.length →
    ChecksRange (List.zipWith (fun x y => x.decode - y.decode) a b) (sub a b)
  /-- Vectors of different lengths have neither. -/
  mismatched : a.length ≠ b.length →
    add a b = .error (.dimensionMismatch a.length b.length) ∧
      sub a b = .error (.dimensionMismatch a.length b.length)
  /-- Multiplying checks the products. -/
  scaled : ChecksRange (a.map fun h => h.decode * factor) (scale a factor)
  /-- Zeros are not scaled to unit length. -/
  normalized_zeros : a.IsZeros → normalize a = .error .normalizeZero
  /-- Any other vector is, and the result is finite where the vector is, unless there is
  a NaN anywhere. -/
  normalized : ¬a.IsZeros → ∃ u, normalize a = .ok u ∧ u.length = a.length ∧
    ∀ (i : ℕ) (x h : Half), a[i]? = some x → u[i]? = some h →
      (h.isFinite = true ↔ x.isFinite = true ∧ ∀ y ∈ a, y.isNaN = false)

/-- Which results are finite, for vectors of arbitrary elements and arbitrary values. -/
theorem finiteResults (values : List Single) (a b : HalfVector) (factor : Single) :
    FiniteResults values a b factor where
  encoded := checksRange_ofSingles values
  added := checksRange_combine (· + ·)
  subtracted := checksRange_combine (· - ·)
  mismatched h := ⟨combine_of_length_ne _ h, combine_of_length_ne _ h⟩
  scaled := checksRange_ofSingles _
  normalized_zeros h := by rw [normalize_eq, if_pos (isZero_norm_iff.mpr h)]
  normalized h := by
    refine ⟨a.map (scaleElement a.norm), ?_, List.length_map _, fun i x e hx he => ?_⟩
    · rw [normalize_eq, if_neg (mt isZero_norm_iff.mp h)]
    · rw [List.getElem?_map, hx, Option.map_some] at he
      rw [← Option.some.inj he]
      exact isFinite_scaleElement_iff h (List.mem_of_getElem? hx)

/-- The sum of two largest halves is refused, as too large, and so is infinity times
zero, as a NaN. -/
theorem finiteResults_refused :
    add [Half.largest] [Half.largest] =
        .error (.outOfHalfRange (Half.largest.decode + Half.largest.decode)) ∧
      scale [Half.infinity] (.zero false) = .error (.outOfHalfRange (.nan false)) := by
  have h := finiteResults [] [Half.largest] [Half.largest] (.zero false)
  have h' := finiteResults [] [Half.infinity] [] (.zero false)
  refine ⟨((h.added rfl).eq_error_iff _).mpr ⟨[], _, [], rfl, ?_, ?_, rfl⟩,
    (h'.scaled.eq_error_iff _).mpr ⟨[], _, [], rfl, ?_, ?_, rfl⟩⟩
  · decide
  · decide +kernel
  · decide
  · decide +kernel

/-- Not every result of the operations is finite: scaling infinity to unit length gives
a NaN. -/
theorem not_isFinite_results :
    ¬∀ (values : List Single) (a b u : HalfVector) (factor : Single),
      (ofSingles values = .ok u ∨ add a b = .ok u ∨ sub a b = .ok u ∨ scale a factor = .ok u ∨
        normalize a = .ok u) → ∀ h ∈ u, h.isFinite = true := by
  intro hfinite
  have hnormalize : normalize [Half.infinity] = .ok [Half.canonicalNaN] := by decide +kernel
  have hnan : Half.canonicalNaN.isFinite = true :=
    hfinite [] [Half.infinity] [] _ (.zero false)
      (.inr (.inr (.inr (.inr hnormalize)))) _ List.mem_cons_self
  exact absurd hnan (by decide)

end HalfVector

end VectorDistance
