import VectorDistance.BinaryEncoding

/-!
# Half-precision values

A half is its sixteen bits: a sign, five exponent bits and ten fraction bits.
Two halves are equal when their bits are, so zeros of both signs differ and a
NaN equals itself. `value` reads the bits as a number of the 16-bit format and
`decode` gives that number in the 32-bit format, in which all arithmetic takes
place; decoding is exact, subnormals included, and forgets which NaN it was.
-/

namespace VectorDistance

-- Powers are the core ones also where the algebraic hierarchy is in scope.
attribute [local instance (high)] instPowNat

/-- A half-precision value, kept as its bits. -/
structure Half where
  /-- Sign, exponent and fraction, from the most significant bit. -/
  bits : UInt16
  deriving DecidableEq, Hashable, Inhabited

/-- A half-precision vector, element after element. -/
abbrev HalfVector := List Half

namespace Half

/-- Positive zero. -/
def zero : Half := ⟨0x0000⟩

/-- Negative zero. -/
def negZero : Half := ⟨0x8000⟩

/-- One. -/
def one : Half := ⟨0x3c00⟩

/-- Minus one. -/
def negOne : Half := ⟨0xbc00⟩

/-- The largest finite value, 65504. -/
def largest : Half := ⟨0x7bff⟩

/-- The least positive value, `2 ^ -24`, which is subnormal. -/
def leastPositive : Half := ⟨0x0001⟩

/-- Positive infinity. -/
def infinity : Half := ⟨0x7c00⟩

/-- Negative infinity. -/
def negInfinity : Half := ⟨0xfc00⟩

/-- The positive NaN that encoding produces. -/
def canonicalNaN : Half := ⟨0x7c01⟩

/-- The number that the bits stand for. -/
def value (h : Half) : Binary Format.half :=
  Binary.decode Format.half h.bits.toNat

/-- The same number in the 32-bit format. -/
def decode (h : Half) : Single :=
  h.value.widen Format.half_embedsIn_single

/-- The five exponent bits. -/
def exponentField (h : Half) : Nat :=
  h.bits.toNat / 1024 % 32

/-- The ten fraction bits. -/
def fraction (h : Half) : Nat :=
  h.bits.toNat % 1024

/-- Is the sign bit set, on zeros and NaNs too? -/
def isNegative (h : Half) : Bool :=
  decide (0x8000 ≤ h.bits.toNat)

/-- Is this any NaN pattern? -/
def isNaN (h : Half) : Bool :=
  h.exponentField == 31 && h.fraction != 0

/-- Is this one of the two infinities? -/
def isInfinite (h : Half) : Bool :=
  h.exponentField == 31 && h.fraction == 0

/-- Is this a zero, a subnormal or a normal number? -/
def isFinite (h : Half) : Bool :=
  h.exponentField != 31

/-- Is this a nonzero number with the least exponent field? -/
def isSubnormal (h : Half) : Bool :=
  h.exponentField == 0 && h.fraction != 0

/-- The half with the other sign bit. -/
def neg (h : Half) : Half :=
  ⟨h.bits ^^^ 0x8000⟩

/-- The value of a half by its three fields. -/
theorem value_eq_ofFields (h : Half) :
    h.value = Binary.ofFields Format.half (h.bits.toNat / 32768 % 2 == 1)
      h.exponentField h.fraction := rfl

/-- The number is not a NaN unless the pattern is one, and conversely. -/
theorem isNaN_value (h : Half) : h.value.isNaN = h.isNaN := by
  have he : h.exponentField < 32 := Nat.mod_lt _ (by decide)
  have hf : h.fraction < 1024 := Nat.mod_lt _ (by decide)
  have hl : Format.half.exponentLimit = 31 := by decide
  have hw : Format.half.exponentWeight = 1024 := by decide
  rw [value_eq_ofFields, Binary.ofFields, isNaN]
  split
  · next hlt =>
    rw [hl] at hlt
    have : h.exponentField ≠ 31 := by omega
    simp [Binary.isNaN, this]
  · next hge =>
    rw [hl, hw] at hge
    have : h.exponentField = 31 := by omega
    split <;> simp_all [Binary.isNaN]

/-- Decoding is exact: one quantum of a half is `2 ^ 125` of the 32-bit format. -/
theorem quanta_decode (h : Half) :
    h.decode.quanta = h.value.quanta.map (fun q => q * ((2 ^ (125 : Nat) : Nat) : Int)) :=
  Binary.quanta_widen Format.half_embedsIn_single h.value

/-- Decoding gives a NaN exactly for a NaN pattern. -/
theorem isNaN_decode (h : Half) : h.decode.isNaN = h.isNaN := by
  rw [← isNaN_value, decode]
  cases h.value <;> rfl

end Half

end VectorDistance
