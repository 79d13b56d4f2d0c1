import VectorDistance.Keystream
import VectorDistance.Registry

/-!
# Self-check of the kernels

Every kernel runs through a registry bound to portable kernels and through one
bound in the mode under test, on vectors drawn from the keystream of a seed.
Two answers agree when they differ by no more than a tolerance, relative to the
portable one where that is larger than one; the bit kernels have to agree
exactly. The words of the stream go to the left half vector, the right one, the
left bytes and the right bytes, one word to each element.
-/

namespace VectorDistance

-- Powers are the core ones also where the algebraic hierarchy is in scope.
attribute [local instance (high)] instPowNat

/-- The value `k / 2 ^ 22 - 1` for the 23 leading bits `k` of a word; it lies
between minus one and one and needs no rounding. -/
def singleOfWord (word : UInt32) : Single :=
  let offset : Int := ((word >>> 9).toNat : Int) - 2 ^ (22 : Nat)
  .ofRatio (decide (offset < 0)) (offset.natAbs * 2 ^ (127 : Nat)) 1

/-- The half drawn from a word. -/
def halfOfWord (word : UInt32) : Half :=
  Half.encode (singleOfWord word)

/-- The byte drawn from a word, its lowest. -/
def byteOfWord (word : UInt32) : UInt8 :=
  word.toUInt8

namespace SelfCheck

/-- What to check on. -/
structure Options where
  /-- Dimension of the half vectors. -/
  dimension : Nat
  /-- Length of the byte buffers. -/
  bytes : Nat
  /-- Seed of the drawn data. -/
  seed : UInt64
  deriving DecidableEq

/-- The drawn operands of all kernels. -/
structure Operands where
  /-- The left half vector. -/
  leftHalves : HalfVector
  /-- The right half vector. -/
  rightHalves : HalfVector
  /-- The left byte buffer. -/
  leftBytes : List UInt8
  /-- The right byte buffer. -/
  rightBytes : List UInt8

/-- Draws the operands. -/
def Operands.draw (o : Options) : Operands :=
  let words := Keystream.words o.seed (2 * o.dimension + 2 * o.bytes)
  let halves := words.take (2 * o.dimension)
  let bytes := words.drop (2 * o.dimension)
  { leftHalves := (halves.take o.dimension).map halfOfWord
    rightHalves := (halves.drop o.dimension).map halfOfWord
    leftBytes := (bytes.take o.bytes).map byteOfWord
    rightBytes := (bytes.drop o.bytes).map byteOfWord }

/-- The kernels under test, in the order of the report. -/
inductive Kernel where
  /-- Sum of squared differences. -/
  | squaredDistance
  /-- Sum of products. -/
  | innerProduct
  /-- Cosine of the angle. -/
  | cosineSimilarity
  /-- Sum of absolute differences. -/
  | taxicabDistance
  /-- Number of differing bits. -/
  | hammingDistance
  /-- Jaccard distance. -/
  | jaccardDistance
  deriving DecidableEq, Repr

namespace Kernel

/-- Every kernel once. -/
def all : List Kernel :=
  [squaredDistance, innerProduct, cosineSimilarity, taxicabDistance, hammingDistance,
    jaccardDistance]

/-- The name of a kernel in reports. -/
def name : Kernel → String
  | squaredDistance => "squared_euclidean_distance"
  | innerProduct => "inner_product"
  | cosineSimilarity => "cosine_similarity"
  | taxicabDistance => "l1_distance"
  | hammingDistance => "hamming_distance"
  | jaccardDistance => "jaccard_distance"

/-- Does the kernel accumulate rounded sums? -/
def isRounded : Kernel → Bool
  | hammingDistance => false
  | jaccardDistance => false
  | _ => true

/-- The allowed relative difference: one part in ten thousand for rounded sums,
none for counts. -/
def tolerance (k : Kernel) : Double :=
  if k.isRounded then .ofRatio false (2 ^ Format.double.quantum) 10000 else .zero false

/-- The answer of a kernel as a 64-bit value. -/
def evaluate (k : Kernel) (r : Registry) (dimension bytes : Nat) (x : Operands) :
    Except Fault Double :=
  match k with
  | squaredDistance =>
    (r.squaredDistance dimension x.leftHalves x.rightHalves).map Binary.toDouble
  | innerProduct => (r.innerProduct dimension x.leftHalves x.rightHalves).map Binary.toDouble
  | cosineSimilarity => r.cosineSimilarity dimension x.leftHalves x.rightHalves
  | taxicabDistance =>
    (r.taxicabDistance dimension x.leftHalves x.rightHalves).map Binary.toDouble
  | hammingDistance =>
    (r.hammingDistance bytes x.leftBytes x.rightBytes 0).map fun n => .ofNat n.toNat
  | jaccardDistance => r.jaccardDistance bytes x.leftBytes x.rightBytes 0 0 0

end Kernel

/-- One kernel by both registries. -/
structure Comparison where
  /-- The kernel. -/
  kernel : Kernel
  /-- The portable answer. -/
  portable : Double
  /-- The answer under test. -/
  dispatched : Double
  /-- The allowed relative difference. -/
  tolerance : Double
  deriving DecidableEq

namespace Comparison

/-- The difference of the answers over the larger of one and the portable one. -/
def relativeDifference (c : Comparison) : Double :=
  (c.dispatched - c.portable).abs / c.portable.abs.max (.ofNat 1)

/-- Do the answers agree within the tolerance? -/
def passed (c : Comparison) : Bool :=
  c.relativeDifference.le c.tolerance

end Comparison

/-- The outcome of a self-check. -/
structure Report where
  /-- Dimension of the half vectors. -/
  dimension : Nat
  /-- Length of the byte buffers. -/
  bytes : Nat
  /-- Seed of the drawn data. -/
  seed : UInt64
  /-- Strategies of the registry under test. -/
  strategies : Strategies
  /-- One comparison for each kernel. -/
  comparisons : List Comparison

namespace Report

/-- Have all kernels passed? -/
def passed (r : Report) : Bool :=
  r.comparisons.all Comparison.passed

/-- The comparisons that did not pass. -/
def failures (r : Report) : List Comparison :=
  r.comparisons.filter fun c => !c.passed

end Report

/-- Compares one kernel between two registries. -/
def compare (portable dispatched : Registry) (o : Options) (x : Operands) (k : Kernel) :
    Except Fault Comparison := do
  let expected ← k.evaluate portable o.dimension o.bytes x
  let found ← k.evaluate dispatched o.dimension o.bytes x
  return ⟨k, expected, found, k.tolerance⟩

/-- Checks every kernel on a processor with the capabilities `host`. Nothing is
drawn for a dimension that the kernels refuse. -/
def run (host : CapabilitySet) (mode : DispatchMode) (o : Options) : Except Fault Report := do
  if o.dimension = 0 ∨ maxDimension < o.dimension then
    throw (.dimensionOutOfRange o.dimension)
  let portable := Registry.fresh.bind host .portable
  let dispatched := Registry.fresh.bind host mode
  let operands := Operands.draw o
  let comparisons ← Kernel.all.mapM (compare portable dispatched o operands)
  let strategies ← dispatched.strategies
  return ⟨o.dimension, o.bytes, o.seed, strategies, comparisons⟩

/-- Every kernel is listed. -/
theorem Kernel.mem_all (k : Kernel) : k ∈ Kernel.all := by
  cases k <;> simp [Kernel.all]

end SelfCheck

end VectorDistance
