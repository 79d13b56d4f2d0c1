import VectorDistance.Decimal

/-!
# Texts of floating-point values

Three layouts of decimals. The plain one never has an exponent and writes a
whole number without a point. The fixed one has a given number of places and
the scientific one a given number of digits after the point. The data layout
is plain where the leading digit lies between the fifth place after the point
and the sixteenth before it, always with a decimal, and scientific elsewhere.
A minus sign is kept on zeros.
-/

namespace VectorDistance.Decimal

/-- Digits with a point before the last `places` of them, zeros put in front as
far as needed; no point without places. -/
def positional (digits : List Char) (places : Nat) : List Char :=
  let padded := List.replicate (places + 1 - digits.length) '0' ++ digits
  let whole := padded.length - places
  if places = 0 then padded else padded.take whole ++ '.' :: padded.drop whole

/-- Digits with a point after the first, and the exponent of that digit. -/
def scientific (digits : List Char) (exponent : Int) : List Char :=
  let fraction := digits.drop 1
  digits.take 1 ++ (if fraction.isEmpty then [] else '.' :: fraction) ++
    'e' :: (toString exponent).toList

/-- All digits, without an exponent. -/
def plain (d : Decimal) : List Char :=
  let digits := Nat.toDigits 10 d.coefficient
  if 0 ≤ d.exponent then digits ++ List.replicate d.exponent.toNat '0'
  else positional digits d.exponent.natAbs

/-- The layout of data files: plain with at least one decimal for `10 ^ -5` up to
`10 ^ 16`, scientific beyond. -/
def data (d : Decimal) : List Char :=
  let digits := Nat.toDigits 10 d.coefficient
  let point := digits.length + d.exponent
  if -5 < point ∧ point ≤ 16 then
    if 0 ≤ d.exponent then plain d ++ ['.', '0'] else plain d
  else scientific digits (point - 1)

end VectorDistance.Decimal

namespace VectorDistance.Binary

variable {F : Format}

/-- The sign before a text. -/
def signText (negative : Bool) : String :=
  if negative then "-" else ""

/-- Writes a value by a layout of its magnitude; what is no finite number has a
fixed text. -/
def textWith (layout : Nat → List Char) : Binary F → String
  | .nan _ => "NaN"
  | .infinite negative => signText negative ++ "inf"
  | .finite negative magnitude _ => signText negative ++ String.ofList (layout magnitude)

/-- The shortest text that reads back, without an exponent; of two equally near
ones the larger. -/
def plainText (x : Binary F) : String :=
  x.textWith fun magnitude =>
    if magnitude = 0 then ['0'] else (F.shortestDecimal .away magnitude).plain

/-- The text with exactly `places` decimal places. -/
def fixedText (places : Nat) (x : Binary F) : String :=
  x.textWith fun magnitude =>
    let rounded := Decimal.roundPlaces (F.decimalUnits magnitude) F.quantum places
    Decimal.positional (Nat.toDigits 10 rounded.coefficient) places

/-- The scientific text with `places` digits after the point. -/
def scientificText (places : Nat) (x : Binary F) : String :=
  x.textWith fun magnitude =>
    if magnitude = 0 then
      Decimal.scientific (List.replicate (places + 1) '0') 0
    else
      let rounded := Decimal.roundDigits (F.decimalUnits magnitude) F.quantum (places + 1)
      Decimal.scientific (Nat.toDigits 10 rounded.coefficient) (rounded.exponent + places)

/-- The shortest text of the data layout, of two equally near ones the even; a
value that is no finite number is null. -/
def dataText (x : Binary F) : String :=
  if x.isFinite then
    x.textWith fun magnitude =>
      if magnitude = 0 then ['0', '.', '0'] else (F.shortestDecimal .toEven magnitude).data
  else "null"

end VectorDistance.Binary
