import VectorDistance.HalfVector

/-!
# Whole runs of half vectors

The operations that make half vectors, as data. Values and factors come from
the caller; vectors are named by the place of the successful operation that
made them. An operation that is refused, or that names a vector nobody made,
makes nothing, and a run does one operation after the other.
-/

namespace VectorDistance.HalfVector

/-- An operation that makes a half vector, its operands among those made before. -/
inductive Operation where
  /-- Encodes values of the caller. -/
  | encode (values : List Single)
  /-- Elementwise sum. -/
  | add (left right : Nat)
  /-- Elementwise difference. -/
  | sub (left right : Nat)
  /-- Multiplies every element by a value of the caller. -/
  | scale (operand : Nat) (factor : Single)
  /-- Scales to unit length. -/
  | normalize (operand : Nat)
  /-- Joins two vectors. -/
  | concat (left right : Nat)
  /-- Cuts out the elements between two positions. -/
  | subvector (operand start stop : Nat)
  /-- Keeps only which elements are positive. -/
  | quantize (operand : Nat)

namespace Operation

/-- What an operation comes to on the vectors made so far; none if it names a
vector that is not among them. -/
def outcome (made : List HalfVector) : Operation → Option (Except Fault HalfVector)
  | encode values => some (ofSingles values)
  | add left right => do
    let a ← made[left]?
    let b ← made[right]?
    return HalfVector.add a b
  | sub left right => do
    let a ← made[left]?
    let b ← made[right]?
    return HalfVector.sub a b
  | scale operand factor => do
    let a ← made[operand]?
    return HalfVector.scale a factor
  | normalize operand => do
    let a ← made[operand]?
    return HalfVector.normalize a
  | concat left right => do
    let a ← made[left]?
    let b ← made[right]?
    return HalfVector.concat a b
  | subvector operand start stop => do
    let a ← made[operand]?
    return HalfVector.subvector a start stop
  | quantize operand => do
    let a ← made[operand]?
    return .ok (HalfVector.quantize a)

/-- The vectors made after an operation. -/
def step (made : List HalfVector) (operation : Operation) : List HalfVector :=
  match operation.outcome made with
  | some (.ok v) => made ++ [v]
  | _ => made

/-- The vectors that a run of operations makes, first to last. -/
def run (operations : List Operation) : List HalfVector :=
  operations.foldl step []

/-- A run goes on where its first part ended. -/
theorem run_append (first second : List Operation) :
    run (first ++ second) = second.foldl step (run first) := by
  rw [run, run, List.foldl_append]

end Operation

end VectorDistance.HalfVector
