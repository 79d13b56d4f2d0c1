import Mathlib
import VectorDistance.HalfVector
import VectorDistance.Proofs.CosineBound
import VectorDistance.Proofs.SpecialValues

/-!
# Squared norms and vectors of zeros

The sum of squares of a vector is computed in four ways: by itself, as an inner
product with the same vector, as a squared distance from zeros, and as one of the
sums of a cosine, which starts from the other zero. All are the same sum, since
squares carry no minus sign and the first of them hides the zero a sum starts from.
It vanishes only over zeros: the square of a finite half is exact, so it is at
least one quantum unless the half is a zero, and sums never fall below a term.
-/

namespace VectorDistance

namespace Binary

variable {F G : Format}

/-! ## Zeros -/

/-- There is one zero of each sign. -/
theorem isZero_iff {x : Binary F} : x.isZero = true ↔ ∃ s, x = zero s := by
  constructor
  · intro h
    cases x with
    | nan => exact Bool.noConfusion h
    | infinite s => exact Bool.noConfusion ((isZero_infinite s).symm.trans h)
    | finite s m hm => exact ⟨s, finite_congr ((isZero_finite s hm).mp h)⟩
  · rintro ⟨s, rfl⟩
    exact (isZero_finite s F.represents_zero).mpr rfl

/-- Zero is rounded to a zero. -/
theorem ofRatio_zero (s : Bool) {den : ℕ} (hden : 0 < den) :
    (ofRatio s 0 den : Binary F) = zero s := by
  have hround := F.roundMagnitude_zero hden
  rw [ofRatio_of_lt s (hround.trans_lt (Nat.two_pow_pos _))]
  exact finite_congr hround

/-- What is at least one quantum is not a zero. -/
theorem AtLeast.isZero {x : Binary F} (h : AtLeast 1 x) : x.isZero = false := by
  rw [Bool.eq_false_iff, ne_eq, isZero_iff]
  rintro ⟨s, rfl⟩
  exact not_atLeast_one_zero s h

/-- The passage to a wider format keeps zeros and makes none. -/
theorem isZero_widen (h : F.EmbedsIn G) (x : Binary F) : (x.widen h).isZero = x.isZero := by
  cases x with
  | nan => rfl
  | infinite s => exact (isZero_infinite s).trans (isZero_infinite s).symm
  | finite s m hm =>
    rw [Bool.eq_iff_iff, isZero_finite, widen, isZero_finite, Nat.mul_eq_zero]
    exact or_iff_left (Nat.two_pow_pos _).ne'

/-- Roots of zeros are zeros, and no other root is. -/
theorem isZero_sqrt (x : Binary F) : x.sqrt.isZero = x.isZero := by
  cases x with
  | nan => rfl
  | infinite s =>
    cases s with
    | false => rfl
    | true => exact (isZero_infinite true).symm
  | finite s m hm =>
    by_cases hz : m = 0
    · rw [sqrt, if_pos hz]
    · have hx : (finite s m hm).isZero = false :=
        Bool.eq_false_iff.mpr (mt (isZero_finite s hm).mp hz)
      cases s with
      | true =>
        rw [hx, sqrt, if_neg hz, if_pos rfl]
        rfl
      | false =>
        have hone : AtLeast 1 (finite false m hm) := .finite hm (Nat.one_le_iff_ne_zero.mpr hz)
        have hroot := hone.sqrt (F.fits_two_pow 0) (by
          rw [pow_zero, Nat.one_mul, Nat.one_mul]
          exact Nat.one_le_two_pow)
        rw [hx, hroot.isZero]

/-- The argument of a finite root is finite. -/
theorem isFinite_of_sqrt {x : Binary F} (h : x.sqrt.isFinite = true) : x.isFinite = true := by
  cases x with
  | nan => exact h
  | infinite s => cases s <;> exact h
  | finite => rfl

/-- The terms of a finite running sum are finite. -/
theorem isFinite_of_foldl_add {start : Binary F} {terms : List (Binary F)}
    (h : (terms.foldl (· + ·) start).isFinite = true) : ∀ t ∈ terms, t.isFinite = true := by
  induction terms using List.reverseRecOn with
  | nil => exact fun _ ht => absurd ht List.not_mem_nil
  | append_singleton terms t ih =>
    rw [List.foldl_append, List.foldl_cons, List.foldl_nil] at h
    obtain ⟨hinit, hlast⟩ := isFinite_of_add h
    exact List.forall_mem_append.mpr ⟨ih hinit, List.forall_mem_singleton.mpr hlast⟩

/-! ## The zero from which a sum starts -/

/-- The same number, where zeros of both signs are the same. -/
def EqualUpToZeroSign (x y : Binary F) : Prop := x = y ∨ (x.isZero = true ∧ y.isZero = true)

/-- All zeros are the same number. -/
theorem equalUpToZeroSign_zero (s u : Bool) :
    EqualUpToZeroSign (zero s : Binary F) (zero u) :=
  Or.inr ⟨isZero_iff.mpr ⟨s, rfl⟩, isZero_iff.mpr ⟨u, rfl⟩⟩

/-- Only negative zero shows to which zero it is added. -/
theorem zero_add_congr (s u : Bool) {t : Binary F} (h : t ≠ zero true) :
    zero s + t = zero u + t := by
  cases t with
  | nan => rfl
  | infinite => rfl
  | finite v m hm =>
    by_cases hm0 : m = 0
    · subst hm0
      obtain rfl : v = false := by
        rw [← Bool.not_eq_true]
        rintro rfl
        exact h rfl
      change zero s + zero false = zero u + zero false
      rw [zero_add_zero, zero_add_zero, Bool.and_false, Bool.and_false]
    · rw [Binary.add_comm, finite_add_zero v s hm hm0, Binary.add_comm, finite_add_zero v u hm hm0]

/-- A sum over terms other than negative zero does not show from which zero it starts. -/
theorem foldl_add_zero_congr (s u : Bool) {terms : List (Binary F)} (hne : terms ≠ [])
    (h : ∀ t ∈ terms, t ≠ zero true) :
    terms.foldl (· + ·) (zero s) = terms.foldl (· + ·) (zero u) := by
  obtain ⟨t, rest, rfl⟩ := List.exists_cons_of_ne_nil hne
  rw [List.foldl_cons, List.foldl_cons, zero_add_congr s u (h t List.mem_cons_self)]

/-- Sums from both zeros are the same number. -/
theorem equalUpToZeroSign_foldl_add (s u : Bool) (terms : List (Binary F)) :
    EqualUpToZeroSign (terms.foldl (· + ·) (zero s)) (terms.foldl (· + ·) (zero u)) := by
  induction terms with
  | nil => exact equalUpToZeroSign_zero s u
  | cons t rest ih =>
    rw [List.foldl_cons, List.foldl_cons]
    by_cases ht : t = zero true
    · -- negative zero leaves both zeros as they are
      rw [ht, zero_add_zero, zero_add_zero, Bool.and_true, Bool.and_true]
      exact ih
    · rw [zero_add_congr s u ht]
      exact Or.inl rfl

/-- The passage to a wider format keeps equality of numbers. -/
theorem EqualUpToZeroSign.widen {x y : Binary F} (h : EqualUpToZeroSign x y)
    (hemb : F.EmbedsIn G) : EqualUpToZeroSign (x.widen hemb) (y.widen hemb) := by
  refine h.imp (congrArg _) fun hzero => ?_
  rw [isZero_widen, isZero_widen]
  exact hzero

/-- So does the division by a number. -/
theorem EqualUpToZeroSign.div {x y : Binary F} (h : EqualUpToZeroSign x y) (d : Binary F) :
    EqualUpToZeroSign (x / d) (y / d) := by
  rcases h with rfl | ⟨hx, hy⟩
  · exact Or.inl rfl
  · obtain ⟨s, rfl⟩ := isZero_iff.mp hx
    obtain ⟨u, rfl⟩ := isZero_iff.mp hy
    change EqualUpToZeroSign (Binary.div _ _) (Binary.div _ _)
    cases d with
    | nan => exact Or.inl rfl
    | infinite v => exact equalUpToZeroSign_zero (s != v) (u != v)
    | finite v n hn =>
      by_cases hn0 : n = 0
      · simp only [zero, Binary.div, if_pos hn0, if_true]
        exact Or.inl rfl
      · have hn0' : 0 < n := Nat.pos_of_ne_zero hn0
        simp only [zero, Binary.div, if_neg hn0, Nat.zero_mul, ofRatio_zero _ hn0']
        exact equalUpToZeroSign_zero (s != v) (u != v)

/-! ## Squares -/

/-- Squares are not negative zero. -/
theorem square_ne_negZero (x : Binary F) : x.square ≠ zero true := by
  intro h
  have hsign := isNegative_square x
  rw [h] at hsign
  exact Bool.noConfusion hsign

/-- The square of a zero is positive zero. -/
theorem square_zero (s : Bool) : (zero s : Binary F).square = zero false := by
  change ofRatio (s != s) (0 * 0) (2 ^ F.quantum) = _
  rw [Nat.mul_zero, ofRatio_zero _ (Nat.two_pow_pos _), bne_self_eq_false]

/-- A zero taken away does not show in the square. -/
theorem square_sub_zero (x : Binary F) (s : Bool) : (x - zero s).square = x.square := by
  change (x + zero (!s)).square = x.square
  cases x with
  | nan => rfl
  | infinite => rfl
  | finite u m hm =>
    by_cases hm0 : m = 0
    · subst hm0
      change (zero u + zero (!s)).square = (zero u).square
      rw [zero_add_zero, square_zero, square_zero]
    · rw [finite_add_zero u (!s) hm hm0]

end Binary

open Binary

namespace Half

/-- Is this a zero of either sign? -/
def IsZero (h : Half) : Prop := h = zero ∨ h = negZero

instance (h : Half) : Decidable h.IsZero := inferInstanceAs (Decidable (_ ∨ _))

/-- Exactly the zeros are decoded as one. -/
theorem isZero_decode_iff {h : Half} : h.decode.isZero = true ↔ h.IsZero := by
  constructor
  · intro hzero
    have hfields : h.exponentField = 0 ∧ h.fraction = 0 := by
      rw [decode, isZero_widen, value_eq_ofFields, Binary.ofFields] at hzero
      split at hzero
      · rw [isZero_finite, Format.magnitudeOfFields] at hzero
        split at hzero
        · next he => exact ⟨he, hzero⟩
        · have hpos := Nat.mul_pos (Nat.add_pos_left (Nat.two_pow_pos 10) h.fraction)
            (Nat.two_pow_pos (h.exponentField - 1))
          exact absurd hzero hpos.ne'
      · split at hzero
        · exact Bool.noConfusion ((isZero_infinite _).symm.trans hzero)
        · exact Bool.noConfusion hzero
    have hsign : h = zero.withSign h.isNegative := eq_withSign rfl hfields.1 hfields.2
    generalize h.isNegative = s at hsign
    cases s with
    | false => exact Or.inl hsign
    | true => exact Or.inr hsign
  · rintro (rfl | rfl)
    · rfl
    · rfl

end Half

namespace HalfVector

/-- Does a vector hold nothing but zeros, of either sign? -/
def IsZeros (v : HalfVector) : Prop := ∀ h ∈ v, h.IsZero

instance (v : HalfVector) : Decidable v.IsZeros := inferInstanceAs (Decidable (∀ h ∈ v, _))

/-- A zero is decoded as one. -/
theorem IsZeros.decode {v : HalfVector} (hv : v.IsZeros) {h : Half} (hh : h ∈ v) :
    ∃ s, h.decode = Binary.zero s :=
  isZero_iff.mp (Half.isZero_decode_iff.mpr (hv h hh))

/-- Squared norms are finite only over finite elements. -/
theorem isFinite_of_squaredNorm {v : HalfVector} (h : (squaredNorm v).isFinite = true) :
    ∀ x ∈ v, x.isFinite = true := by
  intro x hx
  rw [← Half.isFinite_decode]
  exact (isFinite_of_mul (isFinite_of_foldl_add h _ (List.mem_map_of_mem hx))).1

/-- A squared norm is zero exactly over zeros. -/
theorem isZero_squaredNorm_iff {v : HalfVector} :
    (squaredNorm v).isZero = true ↔ v.IsZeros := by
  constructor
  · intro hzero x hx
    obtain ⟨s, hs⟩ := isZero_iff.mp hzero
    have hfinite := isFinite_of_squaredNorm (v := v) (by rw [hs]; rfl)
    have hsquare : ∀ t ∈ v.map fun h => h.decode.square, AtLeast 0 t := by
      intro t ht
      obtain ⟨y, hy, rfl⟩ := List.mem_map.mp ht
      refine atLeast_zero ?_ (isNegative_square _)
      rw [isNaN_square, Half.isNaN_decode]
      exact Half.isNaN_of_isFinite (hfinite y hy)
    -- an element that is no zero has an exact square, so the sum is at least one quantum
    by_contra hne
    have hvalue : x.decode.exact ≠ 0 := by
      rw [ne_eq, exact_eq_zero_iff (x.isFinite_decode.trans (hfinite x hx)), Half.isZero_decode_iff]
      exact hne
    have hmem : x.decode.square ∈ v.map fun h => h.decode.square := List.mem_map_of_mem hx
    have hone : AtLeast 1 x.decode.square := by
      refine (hsquare _ hmem).one ?_
      rw [square, HalfKernels.exact_mul_decode (hfinite x hx) (hfinite x hx)]
      exact mul_self_ne_zero.mpr hvalue
    have hsum := AtLeast.foldl_negZero hsquare hmem hone
    rw [← sumSingles, ← squaredNorm, hs] at hsum
    exact not_atLeast_one_zero s hsum
  · intro hv
    have hsquares : ∀ t ∈ v.map fun h => h.decode.square, t = Binary.zero false := by
      intro t ht
      obtain ⟨y, hy, rfl⟩ := List.mem_map.mp ht
      obtain ⟨s, hs⟩ := hv.decode hy
      rw [hs, square_zero]
    rcases equalUpToZeroSign_foldl_add true false (v.map fun h => h.decode.square) with h | h
    · rw [squaredNorm, sumSingles, h, foldl_add_posZero hsquares]
      exact isZero_iff.mpr ⟨false, rfl⟩
    · exact h.1

end HalfVector

namespace HalfKernels

/-- The inner product of a vector with itself is its squared norm. -/
theorem innerProduct_self (v : HalfVector) : innerProduct v v = HalfVector.squaredNorm v := by
  rw [innerProduct, List.zipWith_self]
  rfl

/-- The left squares over the pairs of two vectors. -/
theorem map_leftTerm {a b : HalfVector} (hlen : a.length = b.length) :
    (a.zip b).map leftTerm = a.map fun h => h.decode.square :=
  map_zip_left hlen fun h => h.decode.square

/-- The right squares over the pairs of two vectors. -/
theorem map_rightTerm {a b : HalfVector} (hlen : a.length = b.length) :
    (a.zip b).map rightTerm = b.map fun h => h.decode.square :=
  map_zip_right hlen fun h => h.decode.square

/-- Squares add up to the same from both zeros. -/
theorem foldl_squares {v : HalfVector} (hne : v ≠ []) :
    (v.map fun h => h.decode.square).foldl (· + ·) (Binary.zero false) =
      HalfVector.squaredNorm v := by
  refine foldl_add_zero_congr false true (List.map_eq_nil_iff.not.mpr hne) fun t ht => ?_
  obtain ⟨h, -, rfl⟩ := List.mem_map.mp ht
  exact square_ne_negZero _

/-- The squared distance of a vector from zeros is its squared norm. -/
theorem squaredDistance_zeros {v z : HalfVector} (hlen : v.length = z.length) (hz : z.IsZeros) :
    squaredDistance v z = HalfVector.squaredNorm v := by
  have hterms : (v.zip z).map squareTerm = (v.zip z).map leftTerm := by
    refine List.map_congr_left fun p hp => ?_
    obtain ⟨s, hs⟩ := hz.decode (List.of_mem_zip hp).2
    rw [squareTerm, hs, square_sub_zero, leftTerm]
  rw [squaredDistance_eq, hterms, map_leftTerm hlen, HalfVector.squaredNorm]

/-- The dot product of a cosine is the inner product, up to the sign of a zero. -/
theorem dot_ofVectors (a b : HalfVector) :
    EqualUpToZeroSign (CosineSums.ofVectors a b).dot (innerProduct a b) := by
  rw [ofVectors_eq, innerProduct_eq, sumSingles]
  exact equalUpToZeroSign_foldl_add false true _

/-- The other two sums of a cosine are the squared norms. -/
theorem norms_ofVectors {a b : HalfVector} (hlen : a.length = b.length) (hne : a ≠ []) :
    (CosineSums.ofVectors a b).leftNorm = HalfVector.squaredNorm a ∧
      (CosineSums.ofVectors a b).rightNorm = HalfVector.squaredNorm b := by
  have hne' : b ≠ [] := by
    rw [← List.length_pos_iff, ← hlen, List.length_pos_iff]
    exact hne
  rw [ofVectors_eq, map_leftTerm hlen, map_rightTerm hlen]
  exact ⟨foldl_squares hne, foldl_squares hne'⟩

end HalfKernels

end VectorDistance
