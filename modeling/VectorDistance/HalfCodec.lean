import VectorDistance.Half

/-!
# Encoding as half precision

Eleven significant bits are kept, rounded to nearest with a half away from
zero. A magnitude below `2 ^ -14` becomes a zero of its sign, so that encoding
never yields a subnormal, and one that rounds past the largest finite half
becomes an infinity. Encoding is total; `tryEncode` refuses what does not fit.
-/

namespace VectorDistance.Half

-- Powers are the core ones also where the algebraic hierarchy is in scope.
attribute [local instance (high)] instPowNat

/-- The bits, sign aside, of the half for a magnitude in 32-bit quanta. The
least normal half is `2 ^ 135` of them; above it, the exponent field and the
eleven rounded bits add up, a carry out of the fraction included. -/
def encodeMagnitude (magnitude : Nat) : Nat :=
  if magnitude < 2 ^ (135 : Nat) then 0
  else
    let shift := magnitude.log2 - 10
    min 0x7c00 ((shift - 125) * 1024 + roundDiv .away magnitude (2 ^ shift))

/-- The half with the given sign and remaining bits. -/
def ofParts (negative : Bool) (magnitudeBits : Nat) : Half :=
  ⟨((if negative then 0x8000 else 0) + magnitudeBits).toUInt16⟩

/-- The half for a 32-bit value. NaNs keep only their sign. -/
def encode : Single → Half
  | .nan negative => ofParts negative 0x7c01
  | .infinite negative => ofParts negative 0x7c00
  | .finite negative magnitude _ => ofParts negative (encodeMagnitude magnitude)

/-- Is this finite and no larger than the largest finite half? -/
def inRange (x : Single) : Bool :=
  x.isFinite && x.abs.le largest.decode

/-- The half for a value in range, none for any other. -/
def tryEncode (x : Single) : Option Half :=
  if inRange x then some (encode x) else none

/-- Magnitude bits never pass those of an infinity. -/
theorem encodeMagnitude_le (magnitude : Nat) : encodeMagnitude magnitude ≤ 0x7c00 := by
  unfold encodeMagnitude
  split
  · omega
  · exact Nat.min_le_left _ _

/-- Encoding in range succeeds and does nothing else than encode. -/
theorem tryEncode_eq_some_iff {x : Single} {h : Half} :
    tryEncode x = some h ↔ inRange x = true ∧ encode x = h := by
  unfold tryEncode
  split <;> simp_all

end VectorDistance.Half
