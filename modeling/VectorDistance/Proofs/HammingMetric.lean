import Mathlib
import VectorDistance.BitVector
import VectorDistance.Proofs.BlockCounts

/-!
# The metric of differing bits

A buffer of bytes is a function from positions to bits, and equal functions come
from equal buffers. The positions at which two buffers differ are counted by the
Hamming distance of these functions, which is a metric. The kernel counts them
modulo `2 ^ 64`; a buffer of fewer than `2 ^ 61` bytes has too few bits to wrap, so
that without a seed the count is the distance itself.
-/

namespace VectorDistance

namespace BitKernels

/-! ## Buffers as functions -/

/-- Buffers of one length with the same bits are equal. -/
theorem eq_of_bitAt {a b : List UInt8} (h : a.length = b.length)
    (hbits : ∀ i < 8 * a.length, bitAt a i = bitAt b i) : a = b := by
  refine List.ext_getElem h fun k hka hkb => UInt8.toNat_inj.mp (Nat.eq_of_testBit_eq fun j => ?_)
  rcases Nat.lt_or_ge j 8 with hj | hj
  · have hbit := hbits (8 * k + j) (by omega)
    have hdiv : (8 * k + j) / 8 = k := by omega
    have hmod : (8 * k + j) % 8 = j := by omega
    rwa [bitAt, bitAt, hdiv, hmod, List.getD_eq_getElem _ _ hka,
      List.getD_eq_getElem _ _ hkb] at hbit
  · have hhigh (byte : UInt8) : byte.toNat.testBit j = false :=
      Nat.testBit_lt_two_pow (byte.toNat_lt.trans_le (Nat.pow_le_pow_right (by omega) hj))
    rw [hhigh, hhigh]

/-- The first bytes of a buffer have the first bits. -/
theorem bitAt_take {bytes : ℕ} {a : List UInt8} (ha : bytes ≤ a.length) {i : ℕ}
    (hi : i < 8 * bytes) : bitAt (a.take bytes) i = bitAt a i := by
  have hlen : (a.take bytes).length = bytes := List.length_take_of_le ha
  have hfront : i < 8 * (a.take bytes).length := hlen.symm ▸ hi
  have h := bitAt_append_lt (a.drop bytes) hfront
  rwa [List.take_append_drop, eq_comm] at h

/-- No more positions are counted than there are. -/
theorem countBits_le (combine : Bool → Bool → Bool) (a b : List UInt8) :
    countBits combine a b ≤ 8 * a.length :=
  List.countP_le_length.trans_eq List.length_range

/-- A rule that treats both sides alike counts both ways alike. -/
theorem countBits_comm {combine : Bool → Bool → Bool} (hcomm : ∀ x y, combine x y = combine y x)
    {a b : List UInt8} (h : a.length = b.length) : countBits combine a b = countBits combine b a := by
  rw [countBits, countBits, h]
  exact List.countP_congr fun i _ => by rw [hcomm]

/-- Nothing is counted exactly when the rule gives true nowhere. -/
theorem countBits_eq_zero_iff {combine : Bool → Bool → Bool} {a b : List UInt8} :
    countBits combine a b = 0 ↔ ∀ i < 8 * a.length, combine (bitAt a i) (bitAt b i) = false := by
  simp only [countBits, List.countP_eq_zero, List.mem_range, Bool.not_eq_true]

/-- The bits of a buffer as a function of their positions. -/
def bits (positions : ℕ) (bytes : List UInt8) : Fin positions → Bool :=
  fun i => bitAt bytes i

/-- Differing positions are counted by the Hamming distance of the two functions. -/
theorem countBits_xor (a b : List UInt8) :
    countBits (· ^^ ·) a b = hammingDist (bits (8 * a.length) a) (bits (8 * a.length) b) := by
  calc countBits (· ^^ ·) a b
      = Nat.count (fun i => bitAt a i ≠ bitAt b i) (8 * a.length) :=
        List.countP_congr fun i _ => by simp
    _ = ∑ i ∈ Finset.range (8 * a.length), if bitAt a i ≠ bitAt b i then 1 else 0 := by
        rw [Nat.count_eq_card_filter_range, Finset.card_filter]
    _ = hammingDist (bits (8 * a.length) a) (bits (8 * a.length) b) := by
        rw [Finset.sum_range, hammingDist, Finset.card_filter]
        rfl

/-- Buffers of one length differ at no position only if they are equal. -/
theorem countBits_xor_eq_zero_iff {a b : List UInt8} (h : a.length = b.length) :
    countBits (· ^^ ·) a b = 0 ↔ a = b := by
  rw [countBits_eq_zero_iff]
  constructor
  · intro hbits
    exact eq_of_bitAt h fun i hi => by simpa using hbits i hi
  · rintro rfl i -
    exact Bool.xor_self _

/-- Going by way of a third buffer meets no fewer differing positions. -/
theorem countBits_xor_triangle {a b c : List UInt8} (h : a.length = b.length) :
    countBits (· ^^ ·) a c ≤ countBits (· ^^ ·) a b + countBits (· ^^ ·) b c := by
  rw [countBits_xor, countBits_xor, countBits_xor, ← h]
  exact hammingDist_triangle _ _ _

/-! ## The kernel -/

/-- Buffers that are not too long are counted without wrapping. -/
theorem toNat_hamming_zero {a b : List UInt8} (h : a.length = b.length)
    (hshort : a.length < 2 ^ 61) : (hamming a b 0).toNat = countBits (· ^^ ·) a b := by
  have hle := countBits_le (· ^^ ·) a b
  rw [hamming, toNat_accumulate bitwise_xor h, UInt64.toNat_zero, Nat.zero_add]
  exact Nat.mod_eq_of_lt (by omega)

/-- A seed is added to the count without one, and the sum wraps. -/
theorem hamming_seed {a b : List UInt8} (h : a.length = b.length) (seed : UInt64) :
    hamming a b seed = seed + hamming a b 0 := by
  rw [hamming, hamming, accumulate_eq bitwise_xor h, accumulate_eq bitwise_xor h, UInt64.zero_add]

end BitKernels

open BitKernels in
/-- Bit vectors of one dimension are as far apart as their bytes have differing bits. -/
theorem BitVector.hammingDistance_of_isBound {r : Registry} (hr : r.isBound = true)
    {u v : BitVector} (h : u.dimension = v.dimension) (hshort : u.bytes.length < 2 ^ 61) :
    BitVector.hammingDistance r u v = .ok (Binary.ofNat (countBits (· ^^ ·) u.bytes v.bytes)) := by
  have hlen : u.bytes.length = v.bytes.length := by rw [u.length_bytes, v.length_bytes, h]
  have hcount := Registry.hammingDistance_of_isBound hr le_rfl hlen.le 0
  rw [List.take_length, List.take_of_length_le hlen.ge] at hcount
  rw [BitVector.hammingDistance, if_neg (not_not.mpr h), hcount, ← toNat_hamming_zero hlen hshort]
  rfl

namespace Registry

open BitKernels

/-- What a registry answers as Hamming distances of `bytes` bytes: a metric on the
buffers' first bytes, to which a seed is added. -/
structure HammingMetric (r : Registry) (bytes : ℕ) (distance : List UInt8 → List UInt8 → UInt64) :
    Prop where
  /-- Without a seed the answer is the distance. -/
  answer : ∀ {a b : List UInt8}, bytes ≤ a.length → bytes ≤ b.length →
    r.hammingDistance bytes a b 0 = .ok (distance a b)
  /-- It is zero exactly for buffers that agree. -/
  eq_zero_iff : ∀ {a b : List UInt8}, bytes ≤ a.length → bytes ≤ b.length →
    (distance a b = 0 ↔ a.take bytes = b.take bytes)
  /-- It does not depend on the order of the buffers. -/
  comm : ∀ {a b : List UInt8}, bytes ≤ a.length → bytes ≤ b.length → distance a b = distance b a
  /-- As numbers, distances obey the triangle inequality. -/
  triangle : ∀ {a b c : List UInt8}, bytes ≤ a.length → bytes ≤ b.length → bytes ≤ c.length →
    (distance a c).toNat ≤ (distance a b).toNat + (distance b c).toNat
  /-- A seed is added, modulo `2 ^ 64`. -/
  seeded : ∀ {a b : List UInt8}, bytes ≤ a.length → bytes ≤ b.length → ∀ seed : UInt64,
    ∃ count, r.hammingDistance bytes a b seed = .ok count ∧
      count.toNat = (seed.toNat + (distance a b).toNat) % 2 ^ 64
  /-- Buffers that agree give back the seed. -/
  seeded_of_agree : ∀ {a b : List UInt8}, bytes ≤ a.length → bytes ≤ b.length →
    a.take bytes = b.take bytes → ∀ seed, r.hammingDistance bytes a b seed = .ok seed

/-- Hamming distances are a metric: on a bound registry and for fewer than `2 ^ 61`
bytes, whatever follows these bytes in the buffers. -/
theorem exists_hammingMetric {r : Registry} (hr : r.isBound = true) {bytes : ℕ}
    (hbytes : bytes < 2 ^ 61) : ∃ distance, HammingMetric r bytes distance := by
  have hlen {a : List UInt8} (ha : bytes ≤ a.length) : (a.take bytes).length = bytes :=
    List.length_take_of_le ha
  have hcut {a b : List UInt8} (ha : bytes ≤ a.length) (hb : bytes ≤ b.length) :
      (a.take bytes).length = (b.take bytes).length := (hlen ha).trans (hlen hb).symm
  have hcount {a b : List UInt8} (ha : bytes ≤ a.length) (hb : bytes ≤ b.length) :
      (hamming (a.take bytes) (b.take bytes) 0).toNat =
        countBits (· ^^ ·) (a.take bytes) (b.take bytes) :=
    toNat_hamming_zero (hcut ha hb) ((hlen ha).trans_lt hbytes)
  have hzero {a b : List UInt8} (ha : bytes ≤ a.length) (hb : bytes ≤ b.length) :
      hamming (a.take bytes) (b.take bytes) 0 = 0 ↔ a.take bytes = b.take bytes := by
    rw [← UInt64.toNat_inj, hcount ha hb, UInt64.toNat_zero,
      countBits_xor_eq_zero_iff (hcut ha hb)]
  have hanswer {a b : List UInt8} (ha : bytes ≤ a.length) (hb : bytes ≤ b.length)
      (seed : UInt64) : r.hammingDistance bytes a b seed =
        .ok (seed + hamming (a.take bytes) (b.take bytes) 0) := by
    rw [← hamming_seed (hcut ha hb)]
    exact hammingDistance_of_isBound hr ha hb seed
  refine ⟨fun a b => hamming (a.take bytes) (b.take bytes) 0, ?_⟩
  exact
    { answer := fun ha hb => by rw [hanswer ha hb, UInt64.zero_add]
      eq_zero_iff := hzero
      comm := fun ha hb => by
        rw [← UInt64.toNat_inj, hcount ha hb, hcount hb ha,
          countBits_comm Bool.xor_comm (hcut ha hb)]
      triangle := fun ha hb hc => by
        rw [hcount ha hc, hcount ha hb, hcount hb hc]
        exact countBits_xor_triangle (hcut ha hb)
      seeded := fun ha hb seed => ⟨_, hanswer ha hb seed, UInt64.toNat_add _ _⟩
      seeded_of_agree := fun ha hb hagree seed => by
        rw [hanswer ha hb, (hzero ha hb).mpr hagree, UInt64.add_zero] }

/-- Three buffers of different lengths, of which two bytes are compared. -/
theorem exists_hammingMetric_two :
    ∃ distance, HammingMetric (fresh.bind ⟨true, true⟩ .auto) 2 distance ∧
      (distance [0xff, 0x00] [0x0f, 0x01, 0x02]).toNat ≤
        (distance [0xff, 0x00] [0x55, 0xaa]).toNat +
          (distance [0x55, 0xaa] [0x0f, 0x01, 0x02]).toNat ∧
      distance [0xff, 0x00] [0x0f, 0x01, 0x02] ≠ 0 := by
  obtain ⟨distance, h⟩ := exists_hammingMetric (isBound_bind ⟨true, true⟩ .auto fresh)
    (by decide : 2 < 2 ^ 61)
  exact ⟨distance, h, h.triangle (by decide) (by decide) (by decide),
    mt (h.eq_zero_iff (by decide) (by decide)).mp (by decide)⟩

end Registry

end VectorDistance
