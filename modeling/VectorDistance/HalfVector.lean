import VectorDistance.Registry

/-!
# Whole half-precision vectors

Distances, norms, elementwise arithmetic, cutting and order of half vectors.
Operations on two vectors ask for equal dimensions before anything else.
Results of arithmetic are encoded again element by element, and the first
element without a finite half near it refuses the whole operation; scaling to
unit length does not check, because no finite element can grow past one.
-/

namespace VectorDistance

/-- The half for a value, refused unless the value is finite and in range. -/
def Half.checkedEncode (x : Single) : Except Fault Half :=
  if Half.inRange x then .ok (Half.encode x) else .error (.outOfHalfRange x)

namespace HalfVector

/-- Encodes every value, or refuses the first that is out of range. -/
def ofSingles (values : List Single) : Except Fault HalfVector :=
  values.mapM Half.checkedEncode

/-- Decodes every element. -/
def toSingles (values : HalfVector) : List Single :=
  values.map Half.decode

/-- The common dimension of two vectors. -/
def commonDimension (a b : HalfVector) : Except Fault Nat :=
  if a.length = b.length then .ok a.length
  else .error (.dimensionMismatch a.length b.length)

/-! ## Distances -/

/-- Euclidean distance, the root of the squared distance. -/
def euclideanDistance (r : Registry) (a b : HalfVector) : Except Fault Double := do
  let dimension ← commonDimension a b
  let squared ← r.squaredDistance dimension a b
  return squared.toDouble.sqrt

/-- Inner product with the other sign, so that the nearest vectors rank first. -/
def negativeInnerProduct (r : Registry) (a b : HalfVector) : Except Fault Single := do
  let dimension ← commonDimension a b
  let product ← r.innerProduct dimension a b
  return -product

/-- One minus the cosine of the angle. -/
def cosineDistance (r : Registry) (a b : HalfVector) : Except Fault Double := do
  let dimension ← commonDimension a b
  let similarity ← r.cosineSimilarity dimension a b
  return Binary.ofNat 1 - similarity

/-- The angle in radians, the cosine first moved into its range. How far an arc cosine is
rounded is up to the platform. -/
def sphericalDistance (arcCosine : Double → Double) (r : Registry) (a b : HalfVector) :
    Except Fault Double := do
  let dimension ← commonDimension a b
  let similarity ← r.cosineSimilarity dimension a b
  return arcCosine (similarity.clamp (-Binary.ofNat 1) (Binary.ofNat 1))

/-- Sum of absolute differences. -/
def taxicabDistance (r : Registry) (a b : HalfVector) : Except Fault Single := do
  let dimension ← commonDimension a b
  r.taxicabDistance dimension a b

/-! ## Norms -/

/-- Sum of squares, in the 32-bit format. -/
def squaredNorm (values : HalfVector) : Single :=
  sumSingles (values.map fun h => h.decode.square)

/-- Euclidean norm: the root, in the 64-bit format, of the sum of squares. -/
def norm (values : HalfVector) : Double :=
  (squaredNorm values).toDouble.sqrt

/-- One element divided by a norm in the 64-bit format and rounded on the way to
the 32-bit one and to a half. -/
def scaleElement (norm : Double) (h : Half) : Half :=
  Half.encode ((h.decode.toDouble / norm).convert Format.single)

/-- Scales a vector to unit length. Vectors of zeros have no direction. -/
def normalize (values : HalfVector) : Except Fault HalfVector :=
  let length := norm values
  if length.isZero then .error .normalizeZero
  else .ok (values.map (scaleElement length))

/-! ## Arithmetic -/

/-- Combines two vectors element by element, in the 32-bit format. -/
def combine (op : Single → Single → Single) (a b : HalfVector) : Except Fault HalfVector := do
  let _ ← commonDimension a b
  ofSingles (List.zipWith (fun x y => op x.decode y.decode) a b)

/-- Elementwise sum. -/
def add (a b : HalfVector) : Except Fault HalfVector :=
  combine (· + ·) a b

/-- Elementwise difference. -/
def sub (a b : HalfVector) : Except Fault HalfVector :=
  combine (· - ·) a b

/-- Multiplies every element by a value. -/
def scale (values : HalfVector) (factor : Single) : Except Fault HalfVector :=
  ofSingles (values.map fun h => h.decode * factor)

/-! ## Shape -/

/-- The elements of one vector followed by those of another. -/
def concat (a b : HalfVector) : Except Fault HalfVector :=
  if maxDimension < a.length + b.length then .error (.joinedTooLong (a.length + b.length))
  else .ok (a ++ b)

/-- The elements from position `start` to position `stop`, both counted from one
and both included. -/
def subvector (values : HalfVector) (start stop : Nat) : Except Fault HalfVector :=
  if start < 1 ∨ values.length < start then
    .error (.startOutOfRange start values.length)
  else if stop < start ∨ values.length < stop then
    .error (.stopOutOfRange stop start values.length)
  else .ok ((values.drop (start - 1)).take (stop + 1 - start))

/-- Is the element greater than zero? -/
def isPositive (h : Half) : Bool :=
  (Binary.zero false).lt h.decode

/-- One for every positive element and minus one for all others, NaNs included. -/
def quantize (values : HalfVector) : HalfVector :=
  values.map fun h => if isPositive h then Half.one else Half.negOne

/-! ## Order -/

/-- Order by the first pair of elements that differ as numbers; a NaN differs
from nothing. -/
def lexicographic : HalfVector → HalfVector → Ordering
  | x :: a, y :: b =>
    match x.decode.compare? y.decode with
    | some .lt => .lt
    | some .gt => .gt
    | _ => lexicographic a b
  | _, _ => .eq

/-- Lexicographic order of two vectors of one dimension. -/
def compare (a b : HalfVector) : Except Fault Ordering := do
  let _ ← commonDimension a b
  return lexicographic a b

/-- Only vectors of equal length have a common dimension. -/
theorem commonDimension_eq_ok_iff {a b : HalfVector} {dimension : Nat} :
    commonDimension a b = .ok dimension ↔ a.length = b.length ∧ dimension = a.length := by
  unfold commonDimension
  split
  · simp_all [eq_comm]
  · simp_all

/-- A part is cut out exactly between positions of the vector, the first one not after the
last one. -/
theorem subvector_eq_ok_iff {values part : HalfVector} {start stop : Nat} :
    subvector values start stop = .ok part ↔
      (1 ≤ start ∧ start ≤ stop ∧ stop ≤ values.length) ∧
        part = (values.drop (start - 1)).take (stop + 1 - start) := by
  unfold subvector
  by_cases hstart : start < 1 ∨ values.length < start
  · rw [if_pos hstart]
    constructor
    · intro h
      cases h
    · rintro ⟨hbounds, -⟩
      omega
  · rw [if_neg hstart]
    by_cases hstop : stop < start ∨ values.length < stop
    · rw [if_pos hstop]
      constructor
      · intro h
        cases h
      · rintro ⟨hbounds, -⟩
        omega
    · rw [if_neg hstop, Except.ok.injEq]
      exact ⟨fun h => ⟨by omega, h.symm⟩, fun h => h.2.symm⟩

/-- A part has as many elements as its bounds say. -/
theorem length_subvector {values part : HalfVector} {start stop : Nat}
    (h : subvector values start stop = .ok part) : part.length = stop + 1 - start := by
  obtain ⟨hbounds, rfl⟩ := subvector_eq_ok_iff.mp h
  rw [List.length_take, List.length_drop]
  omega

/-- Vectors are joined exactly if they fit one vector. -/
theorem concat_eq_ok_iff {a b joined : HalfVector} :
    concat a b = .ok joined ↔ a.length + b.length ≤ maxDimension ∧ joined = a ++ b := by
  unfold concat
  by_cases hlong : maxDimension < a.length + b.length
  · rw [if_pos hlong]
    constructor
    · intro h
      cases h
    · rintro ⟨hfits, -⟩
      omega
  · rw [if_neg hlong, Except.ok.injEq]
    exact ⟨fun h => ⟨by omega, h.symm⟩, fun h => h.2.symm⟩

/-- Joining keeps every element. -/
theorem length_concat {a b joined : HalfVector} (h : concat a b = .ok joined) :
    joined.length = a.length + b.length := by
  obtain ⟨-, rfl⟩ := concat_eq_ok_iff.mp h
  exact List.length_append

end HalfVector

end VectorDistance
