import Mathlib
import VectorDistance.Proofs.FlagRoundTrip
import VectorDistance.Proofs.JaccardRange

/-!
# Distances of vectors, flag by flag

The kernels run over whole bytes and know neither a dimension nor an order of the
bits within a byte. What they count is nevertheless a matter of flags: those that the
views of both vectors show, index by index, and those of the padding, which nothing
checks. The Hamming distance and the number of set bits see the padding; with clear
padding the Jaccard distance comes from the views alone.
-/

namespace VectorDistance

namespace BitVector

open BitKernels Binary

variable {a b : BitVector}

/-! ## Counts of flags -/

/-- Pairs of bits are counted over the flags that both views show and over the padding. -/
theorem countBits_bytes (combine : Bool → Bool → Bool) (a b : BitVector) :
    countBits combine a.bytes b.bytes =
      (List.range a.dimension).countP (fun i => combine (flagAt a.bytes i) (flagAt b.bytes i)) +
        (paddingIndices a.dimension).countP fun i =>
          combine (flagAt a.bytes i) (flagAt b.bytes i) := by
  rw [countBits_eq_countP_flagAt, countP_range_bytes]

/-- Clear padding is not counted under a rule that does not count clear bits. -/
theorem countBits_bytes_of_isPaddingClear {combine : Bool → Bool → Bool}
    (hclear : combine false false = false) (h : a.dimension = b.dimension)
    (ha : a.IsPaddingClear) (hb : b.IsPaddingClear) :
    countBits combine a.bytes b.bytes =
      (List.range a.dimension).countP fun i => combine (flagAt a.bytes i) (flagAt b.bytes i) := by
  have hpadding : (paddingIndices a.dimension).countP
      (fun i => combine (flagAt a.bytes i) (flagAt b.bytes i)) = 0 := by
    refine List.countP_eq_zero.mpr fun i hi => ?_
    rw [ha i hi, hb i (h ▸ hi), hclear]
    exact Bool.false_ne_true
  rw [countBits_bytes, hpadding, Nat.add_zero]

/-- What is counted over the flags of two vectors is counted over what their views answer. -/
theorem countP_views (rule : Option Bool → Option Bool → Bool) (h : a.dimension = b.dimension) :
    (List.range a.dimension).countP (fun i => rule (a.get? i) (b.get? i)) =
      (List.range a.dimension).countP fun i =>
        rule (some (flagAt a.bytes i)) (some (flagAt b.bytes i)) := by
  refine List.countP_congr fun i hi => ?_
  have hlt := List.mem_range.mp hi
  rw [get?_eq_flagAt hlt, get?_eq_flagAt (h ▸ hlt)]

/-- Number of flags that differ: those the views show, and those of the padding. -/
def differing (a b : BitVector) : ℕ :=
  (List.range a.dimension).countP (fun i => a.get? i != b.get? i) +
    (paddingIndices a.dimension).countP fun i => flagAt a.bytes i != flagAt b.bytes i

/-- Number of indices at which the views of both vectors show a set flag. -/
def inBoth (a b : BitVector) : ℕ :=
  (List.range a.dimension).countP fun i => a.get? i == some true && b.get? i == some true

/-- Number of indices at which the view of some vector shows a set flag. -/
def inEither (a b : BitVector) : ℕ :=
  (List.range a.dimension).countP fun i => a.get? i == some true || b.get? i == some true

/-- The differing bits of the bytes are the differing flags. -/
theorem countBits_xor_bytes (h : a.dimension = b.dimension) :
    countBits (· ^^ ·) a.bytes b.bytes = differing a b := by
  have hrule (x y : Bool) : (some x != some y) = (x ^^ y) := by cases x <;> cases y <;> rfl
  rw [countBits_bytes, differing, countP_views (· != ·) h]
  simp only [hrule]

/-- With clear padding, the bits set in both buffers are the flags set in both views. -/
theorem countBits_and_bytes (h : a.dimension = b.dimension) (ha : a.IsPaddingClear)
    (hb : b.IsPaddingClear) : countBits (· && ·) a.bytes b.bytes = inBoth a b := by
  rw [countBits_bytes_of_isPaddingClear rfl h ha hb, inBoth,
    countP_views (fun x y => x == some true && y == some true) h]
  exact List.countP_congr fun i _ => by simp

/-- With clear padding, the bits set in some buffer are the flags set in some view. -/
theorem countBits_or_bytes (h : a.dimension = b.dimension) (ha : a.IsPaddingClear)
    (hb : b.IsPaddingClear) : countBits (· || ·) a.bytes b.bytes = inEither a b := by
  rw [countBits_bytes_of_isPaddingClear rfl h ha hb, inEither,
    countP_views (fun x y => x == some true || y == some true) h]
  exact List.countP_congr fun i _ => by simp

/-! ## Distances -/

/-- Vectors with clear padding are as far apart as the set flags of their views say. -/
theorem jaccardDistance_of_isBound {r : Registry} (hr : r.isBound = true)
    (h : a.dimension = b.dimension) (hshort : a.bytes.length < 2 ^ 61) (ha : a.IsPaddingClear)
    (hb : b.IsPaddingClear) :
    jaccardDistance r a b =
      .ok (if inEither a b = 0 then .zero false
        else ofNat 1 - ofNat (inBoth a b) / ofNat (inEither a b)) := by
  have hlen : a.bytes.length = b.bytes.length := by rw [a.length_bytes, b.length_bytes, h]
  have hanswer := Registry.jaccardDistance_of_isBound hr le_rfl hlen.le 0 0 0
  rw [List.take_length, List.take_of_length_le hlen.ge] at hanswer
  obtain ⟨hboth, heither⟩ := toNat_push_zero hlen hshort
  rw [countBits_and_bytes h ha hb] at hboth
  rw [countBits_or_bytes h ha hb] at heither
  have hzero : (OverlapCounts.push ⟨0, 0⟩ a.bytes b.bytes).either = 0 ↔ inEither a b = 0 := by
    rw [← heither, ← UInt64.toNat_inj, UInt64.toNat_zero]
  rw [jaccardDistance, if_neg (not_not.mpr h)]
  refine hanswer.trans ?_
  rw [jaccard, OverlapCounts.distance, hboth, heither]
  simp only [hzero]

/-- What the operations on two vectors of one dimension mean for their flags. -/
structure MeasuresFlags (r : Registry) (a b : BitVector) : Prop where
  /-- The Hamming distance is the number of differing flags, padding included, exactly. -/
  hamming_eq : hammingDistance r a b = .ok (ofNat (differing a b)) ∧
    IsInteger (ofNat (differing a b) : Double) (differing a b)
  /-- The set bits are the flags that the view shows set, and those of the padding. -/
  countOnes_eq : a.countOnes = (List.range a.dimension).countP (fun i => a.get? i == some true) +
    (paddingIndices a.dimension).countP (flagAt a.bytes)
  /-- With clear padding and no flag set in either view, the Jaccard distance is zero. -/
  jaccard_of_forall : a.IsPaddingClear → b.IsPaddingClear →
    (∀ i < a.dimension, a.get? i ≠ some true ∧ b.get? i ≠ some true) →
    jaccardDistance r a b = .ok (.zero false)
  /-- With clear padding and some flag set, it is the rounded difference from one of
  the rounded share of the set flags that is common. -/
  jaccard_of_exists : a.IsPaddingClear → b.IsPaddingClear →
    (∃ i < a.dimension, a.get? i = some true ∨ b.get? i = some true) →
    jaccardDistance r a b = .ok (ofNat 1 - ofNat (inBoth a b) / ofNat (inEither a b))

/-- No flag is set in either view exactly if none is counted. -/
theorem inEither_eq_zero_iff :
    inEither a b = 0 ↔ ∀ i < a.dimension, a.get? i ≠ some true ∧ b.get? i ≠ some true := by
  simp only [inEither, List.countP_eq_zero, List.mem_range, Bool.or_eq_true, beq_iff_eq, not_or,
    ne_eq]

/-- Distances of accepted vectors of up to `2 ^ 52` bits, by their flags: on a bound
registry, and whatever the padding holds. -/
theorem measuresFlags {r : Registry} (hr : r.isBound = true) {dimension : ℕ}
    (hdim : dimension ≤ 2 ^ 52) {x y : List UInt8} (ha : ofBytes x dimension = .ok a)
    (hb : ofBytes y dimension = .ok b) : MeasuresFlags r a b := by
  obtain ⟨-, rfl⟩ := ofBytes_eq_ok_iff.mp ha
  obtain ⟨-, hdims⟩ := ofBytes_eq_ok_iff.mp hb
  have h : a.dimension = b.dimension := hdims.symm
  have hbytes : 8 * a.bytes.length ≤ 2 ^ 52 := by
    rw [a.length_bytes, bytesFor]
    omega
  have hshort : a.bytes.length < 2 ^ 61 := by omega
  have hcount : differing a b ≤ 2 ^ Format.double.precision := by
    rw [← countBits_xor_bytes h]
    exact (countBits_le _ _ _).trans (hbytes.trans (by decide))
  refine ⟨⟨?_, isInteger_ofNat (by decide) hcount⟩, ?_, fun hpa hpb hnone => ?_,
    fun hpa hpb hsome => ?_⟩
  · rw [hammingDistance_of_isBound hr h hshort, countBits_xor_bytes h]
  · rw [countOnes_eq, flags, List.count, List.countP_map]
    congr 1
    refine List.countP_congr fun i hi => ?_
    rw [get?_eq_flagAt (List.mem_range.mp hi), Function.comp_apply]
    simp
  · rw [jaccardDistance_of_isBound hr h hshort hpa hpb, if_pos (inEither_eq_zero_iff.mpr hnone)]
  · have hne : inEither a b ≠ 0 := fun hzero => by
      obtain ⟨i, hi, hset⟩ := hsome
      have hnone := inEither_eq_zero_iff.mp hzero i hi
      exact hset.elim hnone.1 hnone.2
    rw [jaccardDistance_of_isBound hr h hshort hpa hpb, if_neg hne]

/-- Twelve bits in two bytes, once with padding that differs and once with clear padding. -/
theorem measuresFlags_twelve :
    hammingDistance (Registry.fresh.bind ⟨true, true⟩ .auto) ⟨[0xf0, 0x0f], 12, rfl⟩
        ⟨[0x3c, 0x05], 12, rfl⟩ = .ok (ofNat 6) ∧
      jaccardDistance (Registry.fresh.bind ⟨true, true⟩ .auto) ⟨[0xf0, 0x00], 12, rfl⟩
        ⟨[0x3c, 0x80], 12, rfl⟩ = .ok (ofNat 1 - ofNat 2 / ofNat 7) := by
  have hr := Registry.isBound_bind ⟨true, true⟩ .auto Registry.fresh
  have hhamming := (measuresFlags hr (by decide : 12 ≤ 2 ^ 52) (x := [0xf0, 0x0f])
    (y := [0x3c, 0x05]) rfl rfl).hamming_eq.1
  have hjaccard := (measuresFlags hr (by decide : 12 ≤ 2 ^ 52) (x := [0xf0, 0x00])
    (y := [0x3c, 0x80]) rfl rfl).jaccard_of_exists (by decide) (by decide) ⟨0, by decide, by decide⟩
  exact ⟨hhamming, hjaccard⟩

end BitVector

end VectorDistance
