import Mathlib
import VectorDistance.Proofs.CodecOrder
import VectorDistance.Proofs.CosineBound

/-!
# The order of the operands

Turned around, a difference has the same size and, unless it is zero, the other sign.
Squares and absolute values forget that sign, so that every term of a distance and with
it every rounded partial sum is the same for both orders of the operands; in a cosine the
two norms change places and meet again in the product of their roots. Subtracting a vector
is adding the one with all sign bits turned around, refusals included. Nothing here looks
at the bits of the elements: all of it holds of NaNs, infinities and zeros of either sign.
-/

namespace VectorDistance

namespace Binary

variable {F : Format}

/-- Without its sign a rounded quotient is the one without a sign. -/
theorem abs_ofRatio (s : Bool) (num den : ℕ) :
    (ofRatio s num den : Binary F).abs = ofRatio false num den := by
  unfold ofRatio
  split
  · rfl
  · rfl

/-- The size of a difference does not depend on the order of the operands. -/
theorem abs_sub_comm (x y : Binary F) : (x - y).abs = (y - x).abs := by
  change (add x y.neg).abs = (add y x.neg).abs
  cases x with
  | nan s => cases y <;> rfl
  | infinite s =>
    cases y with
    | nan t => rfl
    | infinite t => cases s <;> cases t <;> rfl
    | finite t n => rfl
  | finite s m =>
    cases y with
    | nan t => rfl
    | infinite t => rfl
    | finite t n =>
      have htotal : signed t n + signed (!s) m = -(signed s m + signed (!t) n) := by
        rw [signed_not, signed_not]
        ring
      simp only [neg, add]
      rw [abs_ofRatio, abs_ofRatio, htotal, Int.natAbs_neg]

/-- A square forgets the sign. -/
theorem square_abs (x : Binary F) : x.abs.square = x.square := by
  change mul x.abs x.abs = mul x x
  cases x with
  | nan s => rfl
  | infinite s => cases s <;> rfl
  | finite s m => simp only [abs, mul, bne_self_eq_false]

/-- So the square of a difference does not depend on the order either. -/
theorem square_sub_comm (x y : Binary F) : (x - y).square = (y - x).square := by
  rw [← square_abs, abs_sub_comm, square_abs]

end Binary

namespace Half

/-- The half of the other sign stands for the number of the other sign. -/
theorem value_neg (h : Half) : h.neg.value = -h.value := by
  obtain ⟨hsign, hexponent, hfraction⟩ := fields_neg h
  rw [value_eq_ofFields, value_eq_ofFields, ← Binary.ofFields_not, topBit_eq_isNegative,
    topBit_eq_isNegative, hsign, hexponent, hfraction]

/-- Subtracting an element is adding the one of the other sign, also if it is a NaN. -/
theorem add_decode_neg (x : Single) (h : Half) : x + h.neg.decode = x - h.decode := by
  change Binary.add x h.neg.decode = Binary.add x h.decode.neg
  rw [decode, decode, value_neg]
  cases h.value with
  | nan s => cases x <;> rfl
  | infinite s => rfl
  | finite s m => rfl

end Half

namespace HalfKernels

open Binary

/-! ## Kernels -/

/-- The squared distance is symmetric. -/
theorem squaredDistance_comm (a b : HalfVector) : squaredDistance a b = squaredDistance b a := by
  unfold squaredDistance
  rw [List.zipWith_comm_of_comm fun _ _ => square_sub_comm _ _]

/-- The inner product is symmetric. -/
theorem innerProduct_comm (a b : HalfVector) : innerProduct a b = innerProduct b a := by
  unfold innerProduct
  rw [List.zipWith_comm_of_comm fun _ _ => Binary.mul_comm _ _]

/-- The taxicab distance is symmetric. -/
theorem taxicabDistance_comm (a b : HalfVector) : taxicabDistance a b = taxicabDistance b a := by
  unfold taxicabDistance
  rw [List.zipWith_comm_of_comm fun _ _ => abs_sub_comm _ _]

/-- Turned around, the two norms behind a cosine change places. -/
theorem ofVectors_swap (a b : HalfVector) :
    CosineSums.ofVectors b a =
      ⟨(CosineSums.ofVectors a b).dot, (CosineSums.ofVectors a b).rightNorm,
        (CosineSums.ofVectors a b).leftNorm⟩ := by
  have hproduct : productTerm ∘ Prod.swap = productTerm := by
    funext p
    exact Binary.mul_comm _ _
  rw [ofVectors_eq, ofVectors_eq, ← List.zip_swap a b, List.map_map, List.map_map, List.map_map,
    hproduct]
  rfl

/-- The cosine does not depend on which norm comes first. -/
theorem similarity_swap (dot leftNorm rightNorm : Single) :
    CosineSums.similarity ⟨dot, rightNorm, leftNorm⟩ =
      CosineSums.similarity ⟨dot, leftNorm, rightNorm⟩ := by
  simp only [CosineSums.similarity]
  rw [Bool.or_comm, Binary.mul_comm]

/-- The cosine is symmetric, and refused in both orders alike. -/
theorem cosineSimilarity_comm (a b : HalfVector) :
    cosineSimilarity a b = cosineSimilarity b a := by
  rw [cosineSimilarity, cosineSimilarity, ofVectors_swap a b]
  exact (similarity_swap _ _ _).symm

end HalfKernels

namespace HalfVector

/-! ## Sums and differences -/

/-- A commutative operation combines two vectors of one length in either order. -/
theorem combine_comm {op : Single → Single → Single} (hop : ∀ x y, op x y = op y x)
    {a b : HalfVector} (hlen : a.length = b.length) : combine op a b = combine op b a := by
  rw [combine, combine, commonDimension, commonDimension, if_pos hlen, if_pos hlen.symm,
    List.zipWith_comm_of_comm fun _ _ => hop _ _]
  rfl

/-- The difference from a vector is the sum with the vector of the other signs. -/
theorem add_map_neg (a b : HalfVector) : add a (b.map Half.neg) = sub a b := by
  unfold add sub combine commonDimension
  rw [List.length_map, List.zipWith_map_right]
  simp only [Half.add_decode_neg]

end HalfVector

namespace Registry

/-- A portable kernel that is symmetric answers a registry's call the same in both orders of
the buffers, validation included. -/
theorem onHalves_comm {α : Type} {kernel : HalfStrategy → HalfVector → HalfVector → Except Fault α}
    (hkernel : ∀ x y, kernel .portable x y = kernel .portable y x) (host : CapabilitySet)
    (dimension : ℕ) (a b : HalfVector) :
    (fresh.bind host .portable).onHalves kernel dimension a b =
      (fresh.bind host .portable).onHalves kernel dimension b a := by
  have hcheck : checkDimension dimension a b = checkDimension dimension b a := by
    unfold checkDimension
    rw [Nat.min_comm]
  have hstep (x y : HalfVector) : (fresh.bind host .portable).onHalves kernel dimension x y =
      (checkDimension dimension x y).bind fun _ =>
        kernel .portable (x.take dimension) (y.take dimension) := rfl
  rw [hstep, hstep, hcheck, hkernel]

/-- The order of the operands is immaterial, bit for bit: for the four calls on a bound
registry, whatever the dimension and the lengths of the buffers, and for sums of vectors of
one length; and a difference of vectors is the sum with the second one's signs turned
around. Where there is no result, the refusals are the same, texts included. -/
theorem operands_exchange (host : CapabilitySet) :
    (∀ (dimension : ℕ) (a b : HalfVector),
      (fresh.bind host .portable).squaredDistance dimension a b =
          (fresh.bind host .portable).squaredDistance dimension b a ∧
        (fresh.bind host .portable).innerProduct dimension a b =
          (fresh.bind host .portable).innerProduct dimension b a ∧
        (fresh.bind host .portable).taxicabDistance dimension a b =
          (fresh.bind host .portable).taxicabDistance dimension b a ∧
        (fresh.bind host .portable).cosineSimilarity dimension a b =
          (fresh.bind host .portable).cosineSimilarity dimension b a) ∧
    ∀ a b : HalfVector, a.length = b.length →
      HalfVector.add a b = HalfVector.add b a ∧
        HalfVector.sub a b = HalfVector.add a (b.map Half.neg) := by
  constructor
  · intro dimension a b
    refine ⟨onHalves_comm ?_ _ _ _ _, onHalves_comm ?_ _ _ _ _, onHalves_comm ?_ _ _ _ _,
      onHalves_comm HalfKernels.cosineSimilarity_comm _ _ _ _⟩
    · exact fun x y => congrArg Except.ok (HalfKernels.squaredDistance_comm x y)
    · exact fun x y => congrArg Except.ok (HalfKernels.innerProduct_comm x y)
    · exact fun x y => congrArg Except.ok (HalfKernels.taxicabDistance_comm x y)
  · intro a b hlen
    exact ⟨HalfVector.combine_comm Binary.add_comm hlen, (HalfVector.add_map_neg a b).symm⟩

/-- The same infinity on both sides, with a subnormal half across from a negative zero: the
distance is a NaN in both orders, and the difference is refused as the sum of the other
signs is. So is a sum of the largest halves, named in both orders before a NaN. -/
theorem operands_exchange_infinities :
    (fresh.bind .none .portable).taxicabDistance 2 [Half.infinity, Half.leastPositive]
        [Half.infinity, Half.negZero] =
      (fresh.bind .none .portable).taxicabDistance 2 [Half.infinity, Half.negZero]
        [Half.infinity, Half.leastPositive] ∧
    HalfVector.sub [Half.leastPositive, Half.infinity] [Half.negZero, Half.infinity] =
      HalfVector.add [Half.leastPositive, Half.infinity] [Half.zero, Half.negInfinity] ∧
    HalfVector.add [Half.largest, Half.one] [Half.largest, Half.canonicalNaN] =
      HalfVector.add [Half.largest, Half.canonicalNaN] [Half.largest, Half.one] :=
  ⟨((operands_exchange .none).1 2 _ _).2.2.1,
    ((operands_exchange .none).2 [Half.leastPositive, Half.infinity]
      [Half.negZero, Half.infinity] rfl).2,
    ((operands_exchange .none).2 [Half.largest, Half.one]
      [Half.largest, Half.canonicalNaN] rfl).1⟩

end Registry

end VectorDistance
