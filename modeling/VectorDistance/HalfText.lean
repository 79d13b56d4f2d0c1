import VectorDistance.DecimalText
import VectorDistance.HalfCodec
import VectorDistance.HexText

/-!
# Texts of halves

A half is shown as the shortest decimal of its 32-bit value, or as its bits
together with that decimal.
-/

namespace VectorDistance.Half

/-- The shortest decimal of the value in the 32-bit format. -/
def text (h : Half) : String :=
  h.decode.plainText

/-- The bits and the value. -/
def description (h : Half) : String :=
  "Half(0x" ++ hexText 4 h.bits.toNat ++ " = " ++ h.text ++ ")"

end VectorDistance.Half
