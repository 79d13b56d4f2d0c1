import Mathlib
import VectorDistance.HalfVector
import VectorDistance.Proofs.ExactSums
import VectorDistance.Proofs.HammingMetric
import VectorDistance.Proofs.KernelError
import VectorDistance.Proofs.PackedBits

/-!
# Distances of quantised vectors

Quantising keeps of every element one flag, whether it is positive. Over ones and
minus ones each term of a sum is a small integer that only depends on whether the
two flags differ; the terms of a dimension in range do not exhaust a significand, so
that nothing is rounded. The three sums are therefore linear in the number of
differing flags, which the kernel of packed bits counts too.
-/

namespace VectorDistance

open Binary

namespace HalfKernels

/-- One for a flag that is set and minus one otherwise. -/
def signOf (flag : Bool) : Half :=
  if flag then Half.one else Half.negOne

/-- Number of pairs of flags that differ. -/
def flips (flags : List (Bool × Bool)) : ℕ :=
  flags.countP fun pair => pair.1 ^^ pair.2

/-- A term over signs is one of two small integers: it tells whether they differ. -/
structure SignTerm (term : Half × Half → Single) (differ same : ℤ) : Prop where
  /-- The term is one of the two. -/
  isInteger : ∀ f g, IsInteger (term (signOf f, signOf g)) (if f ^^ g then differ else same)
  /-- A difference contributes no more than four. -/
  abs_differ : |differ| ≤ 4
  /-- Nor does an agreement. -/
  abs_same : |same| ≤ 4

/-- A small natural number is an integer of the 32-bit format. -/
theorem isInteger_small {n : ℕ} (h : n ≤ 4) : IsInteger (ofNat n : Single) n :=
  isInteger_ofNat Format.single_room (h.trans (by decide))

/-- Squared differences of signs. -/
theorem signTerm_square : SignTerm squareTerm 4 0 where
  isInteger f g := by
    have hterm : squareTerm (signOf f, signOf g) = ofNat (if f ^^ g then 4 else 0) := by
      cases f <;> cases g <;> decide +kernel
    rw [hterm]
    split
    · exact isInteger_small le_rfl
    · exact isInteger_small (Nat.zero_le _)
  abs_differ := by decide
  abs_same := by decide

/-- Absolute differences of signs. -/
theorem signTerm_taxicab : SignTerm taxicabTerm 2 0 where
  isInteger f g := by
    have hterm : taxicabTerm (signOf f, signOf g) = ofNat (if f ^^ g then 2 else 0) := by
      cases f <;> cases g <;> decide +kernel
    rw [hterm]
    split
    · exact isInteger_small (by decide)
    · exact isInteger_small (Nat.zero_le _)
  abs_differ := by decide
  abs_same := by decide

/-- Products of signs. -/
theorem signTerm_product : SignTerm productTerm (-1) 1 where
  isInteger f g := by
    have hterm : productTerm (signOf f, signOf g) = if f ^^ g then -ofNat 1 else ofNat 1 := by
      cases f <;> cases g <;> decide +kernel
    rw [hterm]
    split
    · exact (isInteger_small (by decide)).neg
    · exact isInteger_small (by decide)
  abs_differ := by decide
  abs_same := by decide

/-- A sum with one of two values for each pair of flags. -/
theorem sum_flags (differ same : ℤ) (flags : List (Bool × Bool)) :
    (flags.map fun pair => if pair.1 ^^ pair.2 then differ else same).sum =
      same * flags.length + (differ - same) * flips flags := by
  induction flags with
  | nil => simp [flips]
  | cons pair flags ih =>
    have hflips : flips (pair :: flags) = flips flags + if pair.1 ^^ pair.2 then 1 else 0 :=
      List.countP_cons
    rw [List.map_cons, List.sum_cons, ih, List.length_cons, hflips]
    split
    · push_cast
      ring
    · push_cast
      ring

/-- Over a dimension in range such terms add up without rounding. -/
theorem SignTerm.sum {term : Half × Half → Single} {differ same : ℤ}
    (h : SignTerm term differ same) {flags : List (Bool × Bool)}
    (hlen : flags.length ≤ maxDimension) :
    IsInteger (sumSingles ((flags.map (Prod.map signOf signOf)).map term))
      (same * flags.length + (differ - same) * flips flags) := by
  have hsize : ∀ x ∈ flags.map fun pair => |(if pair.1 ^^ pair.2 then differ else same)|, x ≤ 4 := by
    intro x hx
    obtain ⟨pair, -, rfl⟩ := List.mem_map.mp hx
    split
    · exact h.abs_differ
    · exact h.abs_same
  have htotal := List.sum_le_card_nsmul _ _ hsize
  rw [List.length_map, nsmul_eq_mul] at htotal
  have hroom : (flags.length : ℤ) * 4 ≤ 2 ^ Format.single.precision := by
    have hmax : (maxDimension : ℤ) * 4 ≤ 2 ^ Format.single.precision := by decide
    omega
  rw [List.map_map, ← sum_flags]
  exact sumSingles_isInteger (fun pair _ => h.isInteger pair.1 pair.2) (htotal.trans hroom)

end HalfKernels

namespace HalfVector

open HalfKernels

variable {a b : HalfVector}

/-- For each pair of elements, which of them are positive. -/
def signFlags (a b : HalfVector) : List (Bool × Bool) :=
  (a.map isPositive).zip (b.map isPositive)

/-- A kernel over quantised vectors reads the signs of the flags. -/
theorem zip_quantize (a b : HalfVector) :
    (quantize a).zip (quantize b) = (signFlags a b).map (Prod.map signOf signOf) := by
  have hsigns (values : HalfVector) : quantize values = (values.map isPositive).map signOf := by
    rw [quantize, List.map_map]
    rfl
  rw [signFlags, hsigns, hsigns, List.zip_map]

/-- Quantising keeps the dimension. -/
theorem length_quantize (values : HalfVector) : (quantize values).length = values.length := by
  rw [quantize, List.length_map]

/-- Vectors of one dimension have so many pairs of flags. -/
theorem length_signFlags (h : a.length = b.length) : (signFlags a b).length = a.length := by
  rw [signFlags, List.length_zip, List.length_map, List.length_map, h, Nat.min_self]

end HalfVector

namespace Registry

open HalfKernels HalfVector BitVector

/-- What a registry answers for two quantised vectors whose packed flags have the
Hamming distance `hamming`. -/
structure QuantizedDistances (r : Registry) (a b : HalfVector) (hamming : Double) : Prop where
  /-- The Hamming distance counts the pairs of which just one element is positive. -/
  count : IsInteger hamming (flips (signFlags a b))
  /-- The squared distance is four times as large. -/
  squared : ∃ s, r.squaredDistance a.length (quantize a) (quantize b) = .ok s ∧
    s.isFinite = true ∧ s.exact = 4 * hamming.exact
  /-- The taxicab distance is twice as large. -/
  taxicab : ∃ s, r.taxicabDistance a.length (quantize a) (quantize b) = .ok s ∧
    s.isFinite = true ∧ s.exact = 2 * hamming.exact
  /-- The inner product falls from the dimension by two for each of them. -/
  inner : ∃ s, r.innerProduct a.length (quantize a) (quantize b) = .ok s ∧
    s.isFinite = true ∧ s.exact = a.length - 2 * hamming.exact

/-- A kernel that sums such terms answers for quantised vectors with the exact sum. -/
theorem exists_onHalves_quantize (host : CapabilitySet) {a b : HalfVector}
    (hlen : a.length = b.length) (hpos : 1 ≤ a.length) (hmax : a.length ≤ maxDimension)
    (kernel : HalfStrategy → HalfVector → HalfVector → Single) {term : Half × Half → Single}
    {differ same : ℤ} (hterm : SignTerm term differ same)
    (hkernel : ∀ x y, kernel .portable x y = sumSingles ((x.zip y).map term)) :
    ∃ s, (fresh.bind host .portable).onHalves (fun strategy x y => .ok (kernel strategy x y))
        a.length (quantize a) (quantize b) = .ok s ∧
      s.isFinite = true ∧ s.exact = same * a.length + (differ - same) * flips (signFlags a b) := by
  have ha := length_quantize a
  have hb := (length_quantize b).trans hlen.symm
  have hflags : (signFlags a b).length ≤ maxDimension := (length_signFlags hlen).trans_le hmax
  have hsum := hterm.sum hflags
  rw [← zip_quantize, ← hkernel, length_signFlags hlen] at hsum
  refine ⟨_, ?_, hsum.onGrid.isFinite, ?_⟩
  · exact onHalves_of_length host _ hpos hmax ha hb
  · rw [hsum.exact_eq]
    push_cast
    rfl

/-- Packed flags of positive elements have the Hamming distance of the flags. -/
theorem hammingDistance_ofFlags {r : Registry} (hr : r.isBound = true) {a b : HalfVector}
    (hlen : a.length = b.length) (hmax : a.length ≤ maxDimension) :
    BitVector.hammingDistance r (ofFlags (a.map isPositive)) (ofFlags (b.map isPositive)) =
      .ok (ofNat (flips (signFlags a b))) := by
  have hflags : (a.map isPositive).length = (b.map isPositive).length := by
    rw [List.length_map, List.length_map, hlen]
  have hshort : (packBits (a.map isPositive)).length < 2 ^ 61 := by
    rw [length_packBits, bytesFor, List.length_map]
    rw [maxDimension] at hmax
    omega
  have hcount : BitKernels.countBits (· ^^ ·) (packBits (a.map isPositive))
      (packBits (b.map isPositive)) = flips (signFlags a b) := countBits_packBits rfl hflags
  rw [BitVector.hammingDistance_of_isBound hr hflags hshort, ← hcount]
  rfl

/-- Quantising agrees with packing the flags of the positive elements: whatever the
elements are, NaNs, infinities and zeros included, the sums over the quantised
vectors follow exactly from the Hamming distance of the flags. -/
theorem exists_quantizedDistances (host : CapabilitySet) {a b : HalfVector}
    (hlen : a.length = b.length) (hpos : 1 ≤ a.length) (hmax : a.length ≤ maxDimension) :
    ∃ u v hamming, BitVector.ofBytes (packBits (a.map isPositive)) a.length = .ok u ∧
      BitVector.ofBytes (packBits (b.map isPositive)) a.length = .ok v ∧
      BitVector.hammingDistance (fresh.bind host .portable) u v = .ok hamming ∧
      QuantizedDistances (fresh.bind host .portable) a b hamming := by
  have hr := isBound_bind host .portable fresh
  have hla : (a.map isPositive).length = a.length := List.length_map _
  have hlb : (b.map isPositive).length = a.length := (List.length_map _).trans hlen.symm
  have hfit : flips (signFlags a b) ≤ 2 ^ Format.double.precision :=
    calc flips (signFlags a b) ≤ (signFlags a b).length := List.countP_le_length
      _ ≤ maxDimension := (length_signFlags hlen).trans_le hmax
      _ ≤ 2 ^ Format.double.precision := by decide
  have hcount : IsInteger (ofNat (flips (signFlags a b)) : Double) (flips (signFlags a b)) :=
    isInteger_ofNat (by decide) hfit
  refine ⟨ofFlags (a.map isPositive), ofFlags (b.map isPositive), _, ?_, ?_,
    hammingDistance_ofFlags hr hlen hmax, hcount, ?_, ?_, ?_⟩
  · rw [← hla]
    exact ofBytes_packBits _
  · rw [← hlb]
    exact ofBytes_packBits _
  · obtain ⟨s, hs, hfin, hexact⟩ :=
      exists_onHalves_quantize host hlen hpos hmax HalfStrategy.squaredDistance
        signTerm_square squaredDistance_eq
    refine ⟨s, hs, hfin, ?_⟩
    rw [hexact, hcount.exact_eq]
    push_cast
    ring
  · obtain ⟨s, hs, hfin, hexact⟩ :=
      exists_onHalves_quantize host hlen hpos hmax HalfStrategy.taxicabDistance
        signTerm_taxicab taxicabDistance_eq
    refine ⟨s, hs, hfin, ?_⟩
    rw [hexact, hcount.exact_eq]
    push_cast
    ring
  · obtain ⟨s, hs, hfin, hexact⟩ :=
      exists_onHalves_quantize host hlen hpos hmax HalfStrategy.innerProduct
        signTerm_product innerProduct_eq
    refine ⟨s, hs, hfin, ?_⟩
    rw [hexact, hcount.exact_eq]
    push_cast
    ring

/-- Three of four pairs differ, a NaN and a zero among the elements that are not
positive. -/
theorem exists_quantizedDistances_of_nan :
    ∃ u v hamming s,
      BitVector.hammingDistance (fresh.bind .none .portable) u v = .ok hamming ∧
      hamming.exact = 3 ∧
      (fresh.bind .none .portable).innerProduct 4
        (quantize [Half.canonicalNaN, Half.largest, Half.infinity, Half.negZero])
        (quantize [Half.one, Half.zero, Half.infinity, Half.leastPositive]) = .ok s ∧
      s.exact = -2 := by
  obtain ⟨u, v, hamming, -, -, hhamming, h⟩ := exists_quantizedDistances .none
    (a := [Half.canonicalNaN, Half.largest, Half.infinity, Half.negZero])
    (b := [Half.one, Half.zero, Half.infinity, Half.leastPositive])
    (by decide) (by decide) (by decide)
  obtain ⟨s, hs, -, hexact⟩ := h.inner
  have hflips : flips (signFlags [Half.canonicalNaN, Half.largest, Half.infinity, Half.negZero]
      [Half.one, Half.zero, Half.infinity, Half.leastPositive]) = 3 := by decide +kernel
  have hthree : hamming.exact = 3 := by
    rw [h.count.exact_eq, hflips]
    rfl
  refine ⟨u, v, hamming, s, hhamming, hthree, hs, ?_⟩
  rw [hexact, hthree]
  norm_num

end Registry

end VectorDistance
