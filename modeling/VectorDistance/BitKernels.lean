import VectorDistance.BinaryArithmetic

/-!
# Kernels over packed bits

Buffers are read eight bytes at a time as 64-bit words, and the bytes that are
left over one by one; the set bits of each word or byte are counted and added
to 64-bit counts, which wrap. Counts can start from any value, so that a count
over consecutive buffers can be threaded through.
-/

namespace VectorDistance

/-- Number of set bits among the lowest `width` bits of a number. -/
def bitCount (width n : Nat) : Nat :=
  (List.range width).countP n.testBit

/-- Number of set bits of a byte. -/
def byteCount (byte : UInt8) : UInt64 :=
  (bitCount 8 byte.toNat).toUInt64

/-- Number of set bits of a word. -/
def wordCount (word : UInt64) : UInt64 :=
  (bitCount 64 word.toNat).toUInt64

/-- Bytes as a little-endian number. -/
def littleEndian : List UInt8 → Nat
  | [] => 0
  | byte :: rest => byte.toNat + 256 * littleEndian rest

/-- A buffer cut into whole 64-bit words and fewer than eight bytes. -/
structure Words where
  /-- The whole words, first to last. -/
  words : List UInt64
  /-- The bytes after the last whole word. -/
  tail : List UInt8

/-- Cuts a buffer into words. -/
def Words.ofBytes : List UInt8 → Words
  | b0 :: b1 :: b2 :: b3 :: b4 :: b5 :: b6 :: b7 :: rest =>
    let cut := Words.ofBytes rest
    { cut with words := (littleEndian [b0, b1, b2, b3, b4, b5, b6, b7]).toUInt64 :: cut.words }
  | tail => ⟨[], tail⟩

/-- A buffer of fewer than eight bytes has no whole word. -/
theorem Words.ofBytes_of_length_lt {bytes : List UInt8} (h : bytes.length < 8) :
    Words.ofBytes bytes = ⟨[], bytes⟩ := by
  match bytes, h with
  | [], _ => rfl
  | [_], _ => rfl
  | [_, _], _ => rfl
  | [_, _, _], _ => rfl
  | [_, _, _, _], _ => rfl
  | [_, _, _, _, _], _ => rfl
  | [_, _, _, _, _, _], _ => rfl
  | [_, _, _, _, _, _, _], _ => rfl
  | _ :: _ :: _ :: _ :: _ :: _ :: _ :: _ :: _, h =>
    simp only [List.length_cons] at h
    omega

/-- Eight bytes in front make one word in front. -/
theorem Words.ofBytes_append {word : List UInt8} (h : word.length = 8) (rest : List UInt8) :
    Words.ofBytes (word ++ rest) =
      { Words.ofBytes rest with
        words := (littleEndian word).toUInt64 :: (Words.ofBytes rest).words } := by
  match word, h with
  | [_, _, _, _, _, _, _, _], _ => rfl

namespace BitKernels

/-- Adds the set bits of two combined buffers to a count: `onWords` combines
whole words and `onBytes` the remaining bytes. -/
def accumulate (onWords : UInt64 → UInt64 → UInt64) (onBytes : UInt8 → UInt8 → UInt8)
    (a b : List UInt8) (seed : UInt64) : UInt64 :=
  let left := Words.ofBytes a
  let right := Words.ofBytes b
  let whole := (List.zipWith (fun x y => wordCount (onWords x y)) left.words right.words).foldl
    (· + ·) seed
  (List.zipWith (fun x y => byteCount (onBytes x y)) left.tail right.tail).foldl (· + ·) whole

/-- The seed plus the number of differing bits. -/
def hamming (a b : List UInt8) (seed : UInt64) : UInt64 :=
  accumulate (· ^^^ ·) (· ^^^ ·) a b seed

/-- Running counts of an intersection and a union. -/
structure OverlapCounts where
  /-- Bits set in both buffers. -/
  both : UInt64
  /-- Bits set in at least one buffer. -/
  either : UInt64
  deriving DecidableEq, Repr

namespace OverlapCounts

/-- Adds the overlap of two buffers to running counts. -/
def push (counts : OverlapCounts) (a b : List UInt8) : OverlapCounts where
  both := accumulate (· &&& ·) (· &&& ·) a b counts.both
  either := accumulate (· ||| ·) (· ||| ·) a b counts.either

/-- One minus the share of the union that is common; two empty sets have
distance zero. -/
def distance (counts : OverlapCounts) : Double :=
  if counts.either = 0 then .zero false
  else
    Binary.ofNat 1 - Binary.ofNat counts.both.toNat / Binary.ofNat counts.either.toNat

end OverlapCounts

/-- Jaccard distance of two buffers, the intersection counted from `seedBoth`. -/
def jaccard (a b : List UInt8) (seedBoth : UInt64) : Double :=
  (OverlapCounts.push ⟨seedBoth, 0⟩ a b).distance

end BitKernels

end VectorDistance
