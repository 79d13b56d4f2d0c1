/-!
# Hexadecimal texts

Numbers in lowercase hexadecimal digits of a fixed width, higher digits cut.
-/

namespace VectorDistance

-- Powers are the core ones also where the algebraic hierarchy is in scope.
attribute [local instance (high)] instPowNat

/-- The lowercase digit of a number below sixteen. -/
def hexDigit (n : Nat) : Char :=
  if n < 10 then Char.ofNat ('0'.toNat + n) else Char.ofNat ('a'.toNat + (n - 10))

/-- The lowest `width` hexadecimal digits of a number, the highest first. -/
def hexChars (n : Nat) : Nat → List Char
  | 0 => []
  | width + 1 => hexDigit (n / 16 ^ width % 16) :: hexChars n width

/-- The lowest `width` hexadecimal digits of a number as a text. -/
def hexText (width n : Nat) : String :=
  String.ofList (hexChars n width)

/-- A text has the width that was asked for. -/
theorem length_hexChars (n width : Nat) : (hexChars n width).length = width := by
  induction width with
  | zero => rfl
  | succ width ih => simp [hexChars, ih]

end VectorDistance
