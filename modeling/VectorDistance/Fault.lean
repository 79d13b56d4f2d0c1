import VectorDistance.DecimalText

/-!
# Faults

Every way in which an operation can refuse its arguments, as the cause with
the numbers that explain it. A fault belongs to one of six kinds, and its text
opens with the words of its kind. Operations check their arguments before they
touch the data, so a fault never comes with a partial result.
-/

namespace VectorDistance

/-- Largest dimension of a half vector that the kernels accept. -/
def maxDimension : Nat := 16000

/-- Why an operation was refused. -/
inductive Fault where
  /-- A kernel was asked for a dimension of zero or beyond the largest one. -/
  | dimensionOutOfRange (dimension : Nat)
  /-- The shorter of two half buffers holds too few values. -/
  | tooFewValues (held dimension : Nat)
  /-- The shorter of two byte buffers holds too few bytes. -/
  | tooFewBytes (held requested : Nat)
  /-- A bit vector of that dimension needs another number of bytes. -/
  | wrongByteCount (dimension expected held : Nat)
  /-- Joined vectors would pass the largest dimension. -/
  | joinedTooLong (dimension : Nat)
  /-- A first position lies outside the vector. -/
  | startOutOfRange (start length : Nat)
  /-- A last position lies before the first or outside the vector. -/
  | stopOutOfRange (stop start length : Nat)
  /-- A value has no finite half near it. -/
  | outOfHalfRange (value : Single)
  /-- A cosine was asked of a vector without direction. -/
  | cosineOfZero
  /-- A vector of zeros was to be scaled to unit length. -/
  | normalizeZero
  /-- A kernel was called before the registry was bound. -/
  | unbound
  /-- Two vectors differ in dimension. -/
  | dimensionMismatch (left right : Nat)
  /-- The settings could not be read, as the package for them explains. -/
  | settings (explanation : String)
  deriving DecidableEq

/-- Coarse classes of faults. -/
inductive FaultKind where
  /-- A buffer, dimension or position argument is unsuitable. -/
  | invalidArgument
  /-- A value cannot be represented as a half. -/
  | numericRange
  /-- The metric is undefined for the input. -/
  | degenerateInput
  /-- The registry is not bound yet. -/
  | uninitialized
  /-- The operands differ in dimension. -/
  | dimensionMismatch
  /-- The settings could not be read. -/
  | configuration
  deriving DecidableEq, Repr

namespace Fault

/-- The class of a fault. -/
def kind : Fault → FaultKind
  | dimensionOutOfRange _ => .invalidArgument
  | tooFewValues .. => .invalidArgument
  | tooFewBytes .. => .invalidArgument
  | wrongByteCount .. => .invalidArgument
  | joinedTooLong _ => .invalidArgument
  | startOutOfRange .. => .invalidArgument
  | stopOutOfRange .. => .invalidArgument
  | outOfHalfRange _ => .numericRange
  | cosineOfZero => .degenerateInput
  | normalizeZero => .degenerateInput
  | unbound => .uninitialized
  | dimensionMismatch .. => .dimensionMismatch
  | settings _ => .configuration

/-- What exactly went wrong, in words. -/
def detail : Fault → String
  | dimensionOutOfRange dimension =>
    s!"dimension {dimension} is outside 1..={maxDimension}"
  | tooFewValues held dimension =>
    s!"buffer holds {held} values but dimension is {dimension}"
  | tooFewBytes held requested =>
    s!"buffer holds {held} bytes but {requested} were requested"
  | wrongByteCount dimension expected held =>
    s!"{dimension} bits need {expected} bytes, got {held}"
  | joinedTooLong dimension =>
    s!"concatenated dimension {dimension} exceeds {maxDimension}"
  | startOutOfRange start length =>
    s!"start position {start} is outside 1..={length}"
  | stopOutOfRange stop start length =>
    s!"end position {stop} is outside {start}..={length}"
  | outOfHalfRange value =>
    value.plainText ++ " is out of range for half precision"
  | cosineOfZero => "cosine similarity of a zero-norm vector is undefined"
  | normalizeZero => "cannot normalize a zero vector"
  | unbound => "Distance kernels not initialized, call initialize() first"
  | dimensionMismatch left right => s!"{left} vs {right}"
  | settings explanation => explanation

/-- The words with which the texts of a kind open. -/
def opening : FaultKind → String
  | .invalidArgument => "Invalid argument: "
  | .numericRange => "Numeric value out of range: "
  | .degenerateInput => "Degenerate input: "
  | .uninitialized => ""
  | .dimensionMismatch => "Dimension mismatch: "
  | .configuration => "Configuration error: "

/-- The full text of a fault. -/
def message (fault : Fault) : String :=
  opening fault.kind ++ fault.detail

end Fault

end VectorDistance
