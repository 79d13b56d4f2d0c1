import VectorDistance.BinaryValue

/-!
# Decimals of binary values

A magnitude of `m` quanta of `2 ^ -q` is the whole number `m * 5 ^ q` of units
of `10 ^ -q`, so every decimal question about it is one about natural numbers.
Rounding to given places goes to the even digit on ties. The shortest decimal
is the one with the fewest digits among those that read back as the value, and
the nearest of these; which of two equally near ones is for the caller to say.
-/

namespace VectorDistance

-- Powers are the core ones also where the algebraic hierarchy is in scope.
attribute [local instance (high)] instPowNat

/-- The number `coefficient * 10 ^ exponent`. -/
structure Decimal where
  /-- The digits as a whole number. -/
  coefficient : Nat
  /-- The power of ten that the last digit weighs. -/
  exponent : Int
  deriving DecidableEq, Repr

namespace Decimal

/-- Number of decimal digits, one for zero. -/
def digitCount (n : Nat) : Nat :=
  (Nat.toDigits 10 n).length

/-- A whole number of `10 ^ -scale`, rounded to `places` decimal places. -/
def roundPlaces (units scale places : Nat) : Decimal :=
  ⟨roundDiv .toEven (units * 10 ^ places) (10 ^ scale), -places⟩

/-- A positive whole number of `10 ^ -scale`, rounded to `count` significant
digits. A carry past the leading digit moves the exponent. -/
def roundDigits (units scale count : Nat) : Decimal :=
  let length := digitCount units
  let rounded := roundDiv .toEven (units * 10 ^ count) (10 ^ length)
  if rounded = 10 ^ count then ⟨10 ^ (count - 1), length - count + 1 - scale⟩
  else ⟨rounded, length - count - scale⟩

/-- The numbers that read back as one value, in quarters of a unit. -/
structure Basin where
  /-- The value itself. -/
  center : Nat
  /-- Halfway to the value below. -/
  low : Nat
  /-- Halfway to the value above. -/
  high : Nat
  /-- The two ends read back as the value too. -/
  closed : Bool

namespace Basin

/-- Does this number read back as the value? -/
def contains (b : Basin) (x : Nat) : Bool :=
  if b.closed then decide (b.low ≤ x ∧ x ≤ b.high) else decide (b.low < x ∧ x < b.high)

/-- How many steps make the multiple of `step` that reads back as the value and
is nearest to it, a tie going where `tie` says; none if neither neighbour of the
value reads back. -/
def nearestMultiple? (tie : Tie) (b : Basin) (step : Nat) : Option Nat :=
  let count := b.center / step
  match b.contains (count * step), b.contains ((count + 1) * step) with
  | true, true => some (roundDiv tie b.center step)
  | true, false => some count
  | false, true => some (count + 1)
  | false, false => none

/-- The shortest coefficient and the power of ten above the unit that it
counts, trying `shift` and then ever finer powers. -/
def shortest (tie : Tie) (b : Basin) : Nat → Nat × Nat
  | 0 => (b.center / 4, 0)
  | shift + 1 =>
    match b.nearestMultiple? tie (4 * 10 ^ (shift + 1)) with
    | some coefficient => (coefficient, shift + 1)
    | none => shortest tie b shift

end Basin

end Decimal

namespace Format

/-- A magnitude as a whole number of `10 ^ -quantum`. -/
def decimalUnits (F : Format) (magnitude : Nat) : Nat :=
  magnitude * 5 ^ F.quantum

/-- The numbers that round to a magnitude. The gap below a power of two is half
the gap above it, and the ends belong to an even significand. -/
def basin (F : Format) (magnitude : Nat) : Decimal.Basin :=
  let shift := F.excess magnitude
  let significand := magnitude / 2 ^ shift
  let gap := 5 ^ F.quantum * 2 ^ shift
  let center := 4 * F.decimalUnits magnitude
  let gapBelow := if shift ≠ 0 ∧ significand = 2 ^ (F.precision - 1) then gap else 2 * gap
  { center
    low := center - gapBelow
    high := center + 2 * gap
    closed := significand % 2 == 0 }

/-- The shortest decimal that reads back as a positive magnitude. -/
def shortestDecimal (F : Format) (tie : Tie) (magnitude : Nat) : Decimal :=
  let digits := Decimal.digitCount (F.decimalUnits magnitude)
  let found := (F.basin magnitude).shortest tie digits
  ⟨found.1, found.2 - F.quantum⟩

end Format

end VectorDistance
