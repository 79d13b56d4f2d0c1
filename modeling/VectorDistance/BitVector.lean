import VectorDistance.Registry

/-!
# Bit vectors

Bits packed into bytes from the most significant one on: bit `i` lies in byte
`i / 8` under the mask `0x80 >> (i % 8)`. A vector of some dimension takes just
as many bytes as its bits need; bits of the last byte beyond the dimension are
expected to be zero but are not checked, and equality and counts see them.
-/

namespace VectorDistance

-- The zero of a sum is the core one also where the algebraic hierarchy is in scope.
attribute [local instance (high)] Zero.ofOfNat0

/-- Number of bytes that hold so many bits. -/
def bytesFor (dimension : Nat) : Nat :=
  (dimension + 7) / 8

/-- The bit of a byte at a position from the most significant one. -/
def bitOfByte (byte : UInt8) (position : Nat) : Bool :=
  byte.toNat.testBit (7 - position)

/-- A packed vector of bits. -/
structure BitVector where
  /-- The packed bytes. -/
  bytes : List UInt8
  /-- Number of bits. -/
  dimension : Nat
  /-- The bytes are just as many as the bits need. -/
  length_bytes : bytes.length = bytesFor dimension
  deriving DecidableEq

namespace BitVector

/-- Takes bytes as a vector of so many bits; their number must fit exactly. -/
def ofBytes (bytes : List UInt8) (dimension : Nat) : Except Fault BitVector :=
  if h : bytes.length = bytesFor dimension then .ok ⟨bytes, dimension, h⟩
  else .error (.wrongByteCount dimension (bytesFor dimension) bytes.length)

/-- The bit at an index, none past the end. -/
def get? (v : BitVector) (index : Nat) : Option Bool :=
  if index < v.dimension then
    (v.bytes[index / 8]?).map fun byte => bitOfByte byte (index % 8)
  else none

/-- Number of set bits in the bytes. -/
def countOnes (v : BitVector) : Nat :=
  (v.bytes.map fun byte => bitCount 8 byte.toNat).sum

/-- Number of differing bits. -/
def hammingDistance (r : Registry) (a b : BitVector) : Except Fault Double := do
  if a.dimension ≠ b.dimension then
    throw (.dimensionMismatch a.dimension b.dimension)
  let count ← r.hammingDistance a.bytes.length a.bytes b.bytes 0
  return Binary.ofNat count.toNat

/-- Share of the union that is not common; two empty sets have distance zero. -/
def jaccardDistance (r : Registry) (a b : BitVector) : Except Fault Double := do
  if a.dimension ≠ b.dimension then
    throw (.dimensionMismatch a.dimension b.dimension)
  r.jaccardDistance a.bytes.length a.bytes b.bytes 0 0 0

/-- The number whose set bits are the true ones, the first of `weight` and each
next one of half the weight. -/
def weighBits (weight : Nat) : List Bool → Nat
  | [] => 0
  | bit :: rest => (if bit then weight else 0) + weighBits (weight / 2) rest

/-- Packs bits into bytes, the most significant bit of each first. -/
def packBits (bits : List Bool) : List UInt8 :=
  (List.range (bytesFor bits.length)).map fun i =>
    (weighBits 0x80 ((bits.drop (8 * i)).take 8)).toUInt8

/-- Packing takes just the bytes that the bits need. -/
theorem length_packBits (bits : List Bool) :
    (packBits bits).length = bytesFor bits.length := by
  rw [packBits, List.length_map, List.length_range]

/-- There is a bit at an index exactly below the dimension. -/
theorem get?_eq_none_iff (v : BitVector) (index : Nat) :
    v.get? index = none ↔ v.dimension ≤ index := by
  have hb := v.length_bytes
  unfold get?
  split
  · next h =>
    have hi : index / 8 < v.bytes.length := by
      rw [hb, bytesFor]
      omega
    simp [List.getElem?_eq_getElem hi]
    omega
  · next h => simp; omega

end BitVector

end VectorDistance
