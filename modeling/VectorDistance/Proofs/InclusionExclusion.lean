import Mathlib
import VectorDistance.Proofs.CallOutcomes
import VectorDistance.Proofs.FlagRoundTrip
import VectorDistance.Proofs.JaccardRange
import VectorDistance.Proofs.SpecialSums

/-!
# Overlaps, differences and set bits

The kernels count differing bits, common bits and bits of a union in loops of their
own, and the set bits of a single buffer byte by byte. At every position the four
rules are tied together: a bit of the union is common or differs, and what is common
counts twice among the set bits of the two buffers. Hence the counts are tied
together in the same way, for buffers of all lengths that do not wrap, and both
distances of bit vectors vanish for the same vectors: for equal ones.
-/

namespace VectorDistance

namespace BitKernels

/-- Number of set bits of a buffer. -/
def countSet (bytes : List UInt8) : ℕ :=
  countBits (fun x _ => x) bytes bytes

/-- Common bits and bits of the union are, together, the set bits of both buffers. -/
theorem countBits_and_add_or {a b : List UInt8} (h : a.length = b.length) :
    countBits (· && ·) a b + countBits (· || ·) a b = countSet a + countSet b := by
  rw [countSet, countSet, countBits, countBits, countBits, countBits, ← h]
  refine countP_add_countP _ fun i _ => ?_
  cases bitAt a i <;> cases bitAt b i <;> rfl

/-- The set bits of a buffer are counted byte by byte as well as by their positions. -/
theorem countOnes_eq_countSet (v : BitVector) : v.countOnes = countSet v.bytes := by
  rw [BitVector.countOnes, BitVector.sum_bitCount, countSet,
    BitVector.countBits_eq_countP_flagAt]

/-- How the counts over two buffers of one length are tied together. -/
structure CountsAgree (a b : List UInt8) (counts : OverlapCounts) : Prop where
  /-- No more bits are common than there are in the union. -/
  both_le_either : counts.both.toNat ≤ counts.either.toNat
  /-- The other bits of the union are those that differ. -/
  either_sub_both : counts.either.toNat - counts.both.toNat = (hamming a b 0).toNat
  /-- Both counts together are the set bits of the two buffers, taken as bit vectors. -/
  both_add_either : ∃ u v, BitVector.ofBytes a (8 * a.length) = .ok u ∧
    BitVector.ofBytes b (8 * b.length) = .ok v ∧
    counts.both.toNat + counts.either.toNat = u.countOnes + v.countOnes

/-- Whole bytes are accepted as a vector of all their bits. -/
theorem exists_ofBytes_all (bytes : List UInt8) :
    ∃ v, BitVector.ofBytes bytes (8 * bytes.length) = .ok v ∧ v.countOnes = countSet bytes := by
  have hlen : bytes.length = bytesFor (8 * bytes.length) := by
    unfold bytesFor
    omega
  exact ⟨⟨bytes, _, hlen⟩, dif_pos hlen, countOnes_eq_countSet _⟩

/-- The counts of a fresh run over buffers that do not wrap are tied together. -/
theorem countsAgree_push {a b : List UInt8} (h : a.length = b.length) (hshort : a.length < 2 ^ 60) :
    CountsAgree a b (OverlapCounts.push ⟨0, 0⟩ a b) := by
  obtain ⟨hboth, heither⟩ := toNat_push_zero h (by omega)
  have hdiffering := toNat_hamming_zero h (by omega)
  have hunion := countBits_or a b
  obtain ⟨u, hu, hones⟩ := exists_ofBytes_all a
  obtain ⟨v, hv, hones'⟩ := exists_ofBytes_all b
  refine ⟨?_, ?_, u, v, hu, hv, ?_⟩
  · rw [hboth, heither]
    omega
  · rw [hboth, heither, hdiffering]
    omega
  · rw [hboth, heither, hones, hones', countBits_and_add_or h]

end BitKernels

namespace BitVector

open BitKernels Binary

variable {r : Registry} {u v : BitVector}

/-! ## Distances that vanish -/

/-- A distance that has a value had dimensions that agree and a value of its kernel. -/
theorem exists_of_finishedFrom {α β : Type} {left right : ℕ} {kernel : Except Fault α}
    {finish : α → β} {distance : Except Fault β}
    (h : FinishedFrom left right kernel finish distance) {value : β}
    (hvalue : distance = .ok value) : left = right ∧ ∃ x, kernel = .ok x := by
  by_cases heq : left = right
  · obtain ⟨x, hx, -⟩ := (h.value_iff heq value).mp hvalue
    exact ⟨heq, x, hx⟩
  · rw [(h.mismatch_iff left right).mpr ⟨heq, rfl, rfl⟩] at hvalue
    cases hvalue

/-- A kernel that has a value runs on a bound registry. -/
theorem isBound_of_entryPoint {ε α : Type} {size : ℕ} {inRange : Prop}
    {kernel call : List ε → List ε → Except Fault α} (h : EntryPoint r size inRange kernel call)
    {a b : List ε} {x : α} (hx : call a b = .ok x) : r.isBound = true := by
  by_contra hr
  rw [h.unbound (Bool.eq_false_of_not_eq_true hr)] at hx
  cases hx

/-- Vectors of one dimension are equal if their bytes are. -/
theorem eq_iff_bytes (h : u.dimension = v.dimension) : u = v ↔ u.bytes = v.bytes := by
  cases u
  cases v
  cases h
  simp

/-- Vectors of up to `2 ^ 52` bits have bytes that are counted without wrapping, and all
counts over them fit a significand. -/
theorem countBits_bytes_le (hdim : u.dimension ≤ 2 ^ 52) (combine : Bool → Bool → Bool)
    (b : List UInt8) : countBits combine u.bytes b ≤ 2 ^ 53 ∧ u.bytes.length < 2 ^ 61 := by
  have hcount := countBits_le combine u.bytes b
  have hlen := u.length_bytes
  rw [bytesFor] at hlen
  omega

/-- A natural number that fits a significand is a zero of the format only if it is zero. -/
theorem isZero_ofNat {n : ℕ} (h : n ≤ 2 ^ 53) : (ofNat n : Double).isZero = true ↔ n = 0 := by
  obtain ⟨hn, heq⟩ := ofNat_of_le (F := Format.double) (by decide) h
  rw [heq, isZero_finite, Nat.mul_eq_zero]
  exact or_iff_left (Nat.two_pow_pos _).ne'

/-- What both distances of two vectors are on a bound registry: numbers, and zero
exactly for equal vectors. -/
structure VanishAlike (r : Registry) (u v : BitVector) : Prop where
  /-- The Hamming distance. -/
  hamming : ∃ d, hammingDistance r u v = .ok d ∧ d.isFinite = true ∧ (d.isZero = true ↔ u = v)
  /-- The Jaccard distance. -/
  jaccard : ∃ d, jaccardDistance r u v = .ok d ∧ d.isFinite = true ∧ (d.isZero = true ↔ u = v)

/-- Both distances vanish for equal vectors only. -/
theorem vanishAlike (hr : r.isBound = true) (h : u.dimension = v.dimension)
    (hdim : u.dimension ≤ 2 ^ 52) : VanishAlike r u v := by
  have hlen : u.bytes.length = v.bytes.length := by rw [u.length_bytes, v.length_bytes, h]
  have hequal : countBits (· ^^ ·) u.bytes v.bytes = 0 ↔ u = v := by
    rw [countBits_xor_eq_zero_iff hlen, eq_iff_bytes h]
  obtain ⟨hxor, hshort⟩ := countBits_bytes_le hdim (· ^^ ·) v.bytes
  constructor
  · refine ⟨_, hammingDistance_of_isBound hr h hshort, ?_, (isZero_ofNat hxor).trans hequal⟩
    exact (isInteger_ofNat (by decide) hxor).onGrid.isFinite
  · obtain ⟨hboth, heither⟩ := toNat_push_zero hlen hshort
    have hsplit := countBits_or u.bytes v.bytes
    have hunion := (countBits_bytes_le hdim (· || ·) v.bytes).1
    obtain ⟨m, hm, hdistance, hshare⟩ := @OverlapCounts.exists_distance
      (OverlapCounts.push ⟨0, 0⟩ u.bytes v.bytes) (by omega) (by omega)
    have hanswer := Registry.jaccardDistance_of_isBound hr le_rfl hlen.le 0 0 0
    rw [List.take_length, List.take_of_length_le hlen.ge, BitKernels.jaccard, hdistance] at hanswer
    refine ⟨.finite false m hm, ?_, rfl, ?_⟩
    · rw [jaccardDistance, if_neg (not_not.mpr h)]
      exact hanswer
    · rw [isZero_finite, hshare.eq_zero_iff, hboth, heither, hsplit, left_eq_add, hequal]

/-- On any registry a distance is answered with zero exactly for equal vectors on a bound
one, if only a bound one answers, and for vectors of one dimension alone. -/
theorem exists_isZero_iff (distance : Except Fault Double)
    (hanswered : ∀ d, distance = .ok d → r.isBound = true ∧ u.dimension = v.dimension)
    (hvanish : r.isBound = true → u.dimension = v.dimension →
      ∃ d, distance = .ok d ∧ d.isFinite = true ∧ (d.isZero = true ↔ u = v)) :
    (∃ d, distance = .ok d ∧ d.isZero = true) ↔ r.isBound = true ∧ u = v := by
  constructor
  · rintro ⟨d, hd, hzero⟩
    obtain ⟨hr, h⟩ := hanswered d hd
    obtain ⟨e, he, -, hiff⟩ := hvanish hr h
    obtain rfl : d = e := Except.ok.inj (hd.symm.trans he)
    exact ⟨hr, hiff.mp hzero⟩
  · rintro ⟨hr, rfl⟩
    obtain ⟨d, hd, -, hiff⟩ := hvanish hr rfl
    exact ⟨d, hd, hiff.mpr rfl⟩

/-- The Jaccard distance is answered with zero exactly when the Hamming distance is. -/
theorem jaccardDistance_isZero_iff (r : Registry) (hdim : u.dimension ≤ 2 ^ 52) :
    (∃ d, jaccardDistance r u v = .ok d ∧ d.isZero = true) ↔
      ∃ d, hammingDistance r u v = .ok d ∧ d.isZero = true := by
  rw [exists_isZero_iff (jaccardDistance r u v) (fun d hd => ?_)
      fun hr h => (vanishAlike hr h hdim).jaccard,
    exists_isZero_iff (hammingDistance r u v) (fun d hd => ?_)
      fun hr h => (vanishAlike hr h hdim).hamming]
  · obtain ⟨h, x, hx⟩ := exists_of_finishedFrom (r.distanceOutcomes.hamming u v) hd
    exact ⟨isBound_of_entryPoint (r.kernelOutcomes.hammingDistance u.bytes.length 0) hx, h⟩
  · obtain ⟨h, x, hx⟩ := exists_of_finishedFrom (r.distanceOutcomes.jaccard u v) hd
    exact ⟨isBound_of_entryPoint (r.kernelOutcomes.jaccardDistance u.bytes.length 0 0 0) hx, h⟩

/-- Bits are counted by inclusion and exclusion: over buffers of one length that do not
wrap, the bits of the union are those in common and those that differ, and both counts
together are the set bits of the two buffers. Hence the two distances of vectors of up
to `2 ^ 52` bits are zero together, on every registry and whatever the padding holds. -/
theorem counts_by_inclusion_exclusion :
    (∀ a b : List UInt8, a.length = b.length → a.length < 2 ^ 60 →
      CountsAgree a b (OverlapCounts.push ⟨0, 0⟩ a b)) ∧
    ∀ (r : Registry) (u v : BitVector), u.dimension ≤ 2 ^ 52 →
      ((∃ d, jaccardDistance r u v = .ok d ∧ d.isZero = true) ↔
        ∃ d, hammingDistance r u v = .ok d ∧ d.isZero = true) ∧
      (r.isBound = true → u.dimension = v.dimension → VanishAlike r u v) :=
  ⟨fun _ _ => countsAgree_push, fun r _ _ hdim =>
    ⟨jaccardDistance_isZero_iff r hdim, fun hr h => vanishAlike hr h hdim⟩⟩

/-- Nine bytes, one more than a word; and twelve bits whose padding alone differs. -/
theorem counts_by_inclusion_exclusion_nine :
    CountsAgree [0xff, 0x0f, 1, 2, 3, 4, 5, 6, 0x80] [0xf0, 0x0f, 9, 8, 7, 6, 5, 4, 0xc1]
      (OverlapCounts.push ⟨0, 0⟩ [0xff, 0x0f, 1, 2, 3, 4, 5, 6, 0x80]
        [0xf0, 0x0f, 9, 8, 7, 6, 5, 4, 0xc1]) ∧
    VanishAlike (Registry.fresh.bind ⟨true, true⟩ .auto) ⟨[0xf0, 0x0f], 12, rfl⟩
      ⟨[0xf0, 0x00], 12, rfl⟩ :=
  ⟨counts_by_inclusion_exclusion.1 _ _ rfl (by decide),
    (counts_by_inclusion_exclusion.2 _ _ _ (by decide)).2
      (Registry.isBound_bind ⟨true, true⟩ .auto Registry.fresh) rfl⟩

end BitVector

end VectorDistance
