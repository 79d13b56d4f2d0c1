import VectorDistance.BinaryArithmetic

/-!
# An arc cosine

Platforms differ in the last bits of an arc cosine, so the distances of vectors take it
as an argument. This one rounds once, to the 64-bit format, from whole numbers of
`2 ^ -320`. The cosine of an angle fixes the tangent of its half,
`sqrt ((1 - c) / (1 + c))`; repeated halving of that angle makes the tangent small enough
for its power series. A negative cosine is reflected across the right angle, and the half
turn is eight times the angle whose tangent is that of the halved right angle, obtained
from the same series.
-/

namespace VectorDistance.ArcCosine

-- Powers are the core ones also where the algebraic hierarchy is in scope.
attribute [local instance (high)] instPowNat

/-- Numbers of this module count multiples of `2 ^ -precision`. -/
def precision : Nat := 320

/-- The number one. -/
def unit : Nat := 2 ^ precision

/-- The tangent of half an angle below a right one from the tangent of the
angle, `t / (1 + sqrt (1 + t ^ 2))`. -/
def halveTangent (t : Nat) : Nat :=
  t * unit / (unit + (unit * unit + t * t).sqrt)

/-- The tangent after halving the angle a number of times. -/
def halveTangentBy (t : Nat) : Nat → Nat
  | 0 => t
  | times + 1 => halveTangentBy (halveTangent t) times

/-- The power series of the arc tangent, `power` being the next odd power of the
argument and `order` its exponent. -/
def series (square power order : Nat) : Nat → Int
  | 0 => 0
  | terms + 1 =>
    (power / order : Nat) - series square (power * square / unit) (order + 2) terms

/-- Number of halvings before the series is summed. -/
def halvings : Nat := 6

/-- Number of terms of the series, enough for a tangent below `2 ^ -6`. -/
def terms : Nat := 30

/-- The angle with a tangent between zero and one. -/
def arcTangent (t : Nat) : Nat :=
  let small := halveTangentBy t halvings
  (series (small * small / unit) small 1 terms).toNat * 2 ^ halvings

/-- Half a turn: four times the angle whose tangent is one. -/
def halfTurn : Nat := 4 * arcTangent unit

/-- The angle, between zero and a right one, whose cosine is `num / den`. -/
def acute (num den : Nat) : Nat :=
  2 * arcTangent ((den - num) * unit * unit / (den + num)).sqrt

/-- The angle whose cosine is `num / den` under a sign. -/
def angle (negative : Bool) (num den : Nat) : Nat :=
  if negative then halfTurn - acute num den else acute num den

end VectorDistance.ArcCosine

namespace VectorDistance.Binary

attribute [local instance (high)] instPowNat

/-- The angle, in radians, with the given cosine; what is no cosine has none. -/
def arcCosine : Double → Double
  | .finite negative magnitude _ =>
    let one : Nat := 2 ^ Format.double.quantum
    if one < magnitude then .nan false
    else
      ofRatio false
        (ArcCosine.angle negative magnitude one * 2 ^ Format.double.quantum) ArcCosine.unit
  | _ => .nan false

end VectorDistance.Binary
