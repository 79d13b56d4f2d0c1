import VectorDistance.BitKernels
import VectorDistance.Dispatch

/-!
# Kernels over wide blocks

Where a processor counts the set bits of 512 bits at a time, buffers are read in
blocks of 64 bytes. Each of the eight words of a block has a running count of its
own; the eight counts are added up after the last whole block, and the kernels over
words go on from there with the bytes that are left over.
-/

namespace VectorDistance

namespace BlockKernels

/-- Number of bytes of a block. -/
def blockBytes : Nat := 64

/-- Number of bytes of the whole blocks of a buffer. -/
def wholeBytes (a : List UInt8) : Nat :=
  a.length / blockBytes * blockBytes

/-- Adds the set bits of two combined blocks to the running counts, word by word. -/
def pushBlock (onWords : UInt64 → UInt64 → UInt64) (counts : List UInt64)
    (x y : List UInt8) : List UInt64 :=
  List.zipWith (· + ·) counts
    (List.zipWith (fun v w => wordCount (onWords v w)) (Words.ofBytes x).words
      (Words.ofBytes y).words)

/-- The running counts after so many blocks. -/
def pushBlocks (onWords : UInt64 → UInt64 → UInt64) :
    Nat → List UInt64 → List UInt8 → List UInt8 → List UInt64
  | 0, counts, _, _ => counts
  | blocks + 1, counts, a, b =>
    pushBlocks onWords blocks
      (pushBlock onWords counts (a.take blockBytes) (b.take blockBytes))
      (a.drop blockBytes) (b.drop blockBytes)

/-- The running counts added up. -/
def total (counts : List UInt64) : UInt64 :=
  counts.foldl (· + ·) 0

/-- Number of set bits in the whole blocks of two combined buffers. -/
def blockCount (onWords : UInt64 → UInt64 → UInt64) (a b : List UInt8) : UInt64 :=
  total (pushBlocks onWords (a.length / blockBytes) (List.replicate 8 0) a b)

/-- The seed plus the number of differing bits. -/
def hamming (a b : List UInt8) (seed : UInt64) : UInt64 :=
  BitKernels.hamming (a.drop (wholeBytes a)) (b.drop (wholeBytes a))
    (seed + blockCount (· ^^^ ·) a b)

/-- Jaccard distance of two buffers, the intersection counted from `seedBoth`. -/
def jaccard (a b : List UInt8) (seedBoth : UInt64) : Double :=
  (BitKernels.OverlapCounts.push
    ⟨seedBoth + blockCount (· &&& ·) a b, blockCount (· ||| ·) a b⟩
    (a.drop (wholeBytes a)) (b.drop (wholeBytes a))).distance

end BlockKernels

namespace BitStrategy

/-- The kernel of a strategy that counts differing bits. -/
def hamming : BitStrategy → List UInt8 → List UInt8 → UInt64 → UInt64
  | portable => BitKernels.hamming
  | wideBlock => BlockKernels.hamming

/-- The kernel of a strategy for Jaccard distances. -/
def jaccard : BitStrategy → List UInt8 → List UInt8 → UInt64 → Double
  | portable => BitKernels.jaccard
  | wideBlock => BlockKernels.jaccard

end BitStrategy

end VectorDistance
