import VectorDistance.BinaryArithmetic
import VectorDistance.HalfCodec
import VectorDistance.Fault

/-!
# Kernels over half-precision vectors

Sums of decoded elements, accumulated in the 32-bit format from the first
pair of elements to the last, each product, difference and partial sum rounded
once. Plain sums start from negative zero, which leaves every first term as it
is; the three sums of a cosine start from positive zero. Vectors of different
lengths are read as far as the shorter one goes.
-/

namespace VectorDistance

/-- Sum from the first value to the last, starting from negative zero. -/
def sumSingles (terms : List Single) : Single :=
  terms.foldl (· + ·) (Binary.zero true)

/-- Square of a value. -/
def Binary.square {F : Format} (x : Binary F) : Binary F :=
  x * x

namespace HalfKernels

/-- Sum of squared differences. -/
def squaredDistance (a b : HalfVector) : Single :=
  sumSingles (List.zipWith (fun x y => (x.decode - y.decode).square) a b)

/-- Sum of products. -/
def innerProduct (a b : HalfVector) : Single :=
  sumSingles (List.zipWith (fun x y => x.decode * y.decode) a b)

/-- Sum of absolute differences. -/
def taxicabDistance (a b : HalfVector) : Single :=
  sumSingles (List.zipWith (fun x y => (x.decode - y.decode).abs) a b)

/-- The sums behind a cosine. -/
structure CosineSums where
  /-- Sum of products. -/
  dot : Single
  /-- Squared norm of the left vector. -/
  leftNorm : Single
  /-- Squared norm of the right vector. -/
  rightNorm : Single
  deriving DecidableEq

namespace CosineSums

/-- No terms yet. -/
def start : CosineSums :=
  ⟨.zero false, .zero false, .zero false⟩

/-- Takes in one pair of elements. -/
def push (sums : CosineSums) (x y : Half) : CosineSums where
  dot := sums.dot + x.decode * y.decode
  leftNorm := sums.leftNorm + x.decode.square
  rightNorm := sums.rightNorm + y.decode.square

/-- The three sums over two vectors. -/
def ofVectors (a b : HalfVector) : CosineSums :=
  (a.zip b).foldl (fun sums pair => sums.push pair.1 pair.2) start

/-- The sums over two stretches, from those over each. -/
def merge (first second : CosineSums) : CosineSums where
  dot := first.dot + second.dot
  leftNorm := first.leftNorm + second.leftNorm
  rightNorm := first.rightNorm + second.rightNorm

/-- The cosine, finished in the 64-bit format. A vector whose squared norm is
zero has none. -/
def similarity (sums : CosineSums) : Except Fault Double :=
  if sums.leftNorm.isZero || sums.rightNorm.isZero then .error .cosineOfZero
  else
    .ok (sums.dot.toDouble / (sums.leftNorm.toDouble.sqrt * sums.rightNorm.toDouble.sqrt))

end CosineSums

/-- Cosine of the angle between two vectors. -/
def cosineSimilarity (a b : HalfVector) : Except Fault Double :=
  (CosineSums.ofVectors a b).similarity

end HalfKernels

/-- Nothing sums to negative zero. -/
theorem sumSingles_nil : sumSingles [] = Binary.zero true := rfl

/-- A sum over two stretches goes on where the first one ended. -/
theorem sumSingles_append (first second : List Single) :
    sumSingles (first ++ second) = second.foldl (· + ·) (sumSingles first) := by
  rw [sumSingles, sumSingles, List.foldl_append]

end VectorDistance
