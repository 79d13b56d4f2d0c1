import VectorDistance.BinaryValue

/-!
# Interchange encodings

Without its sign bit, an encoded finite value is its excess times the weight
of the exponent field plus its leading significant bits; the leading bit of a
normal value carries into the exponent field by itself. The all-ones exponent
holds the infinities and the NaNs. Encoding a NaN yields one quiet pattern of
its sign.
-/

namespace VectorDistance

-- Powers are the core ones also where the algebraic hierarchy is in scope.
attribute [local instance (high)] instPowNat

namespace Format

/-- The exponent field with all bits set, which no finite value uses. -/
def exponentLimit (F : Format) : Nat :=
  F.capacity - F.precision + 2

/-- Weight of the exponent field in an encoding. -/
def exponentWeight (F : Format) : Nat :=
  2 ^ (F.precision - 1)

/-- Weight of the sign bit in an encoding. -/
def signWeight (F : Format) : Nat :=
  (F.exponentLimit + 1) * F.exponentWeight

/-- Magnitude of a finite encoding from its exponent field and its fraction. -/
def magnitudeOfFields (F : Format) (exponent fraction : Nat) : Nat :=
  if exponent = 0 then fraction
  else (F.exponentWeight + fraction) * 2 ^ (exponent - 1)

/-- Fields below their limits give a finite magnitude of the format. -/
theorem represents_magnitudeOfFields (F : Format) {exponent fraction : Nat}
    (he : exponent < F.exponentLimit) (hf : fraction < F.exponentWeight) :
    F.Represents (F.magnitudeOfFields exponent fraction) := by
  have hp := F.precision_pos
  have hc := F.precision_le_capacity
  have hw : F.exponentWeight + F.exponentWeight = 2 ^ F.precision := by
    unfold exponentWeight
    rw [← Nat.two_mul, ← Nat.pow_succ']
    congr 1
    omega
  have hs : F.exponentWeight + fraction < 2 ^ F.precision := by omega
  unfold magnitudeOfFields
  split
  · refine ⟨⟨fraction, 0, by omega, by simp⟩, ?_⟩
    have : 2 ^ F.precision ≤ 2 ^ F.capacity := Nat.pow_le_pow_right (by decide) hc
    omega
  · refine ⟨⟨_, _, hs, rfl⟩, ?_⟩
    unfold exponentLimit at he
    have hl : F.precision + (exponent - 1) ≤ F.capacity := by omega
    refine Nat.lt_of_lt_of_le ?_ (Nat.pow_le_pow_right (by decide) hl)
    rw [Nat.pow_add]
    exact Nat.mul_lt_mul_of_pos_right hs (Nat.two_pow_pos _)

end Format

namespace Binary

variable {F : Format}

/-- The value with the given sign, exponent field and fraction. -/
def ofFields (F : Format) (negative : Bool) (exponent fraction : Nat) : Binary F :=
  if h : exponent < F.exponentLimit ∧ fraction < F.exponentWeight then
    .finite negative (F.magnitudeOfFields exponent fraction)
      (F.represents_magnitudeOfFields h.1 h.2)
  else if fraction = 0 then .infinite negative
  else .nan negative

/-- The value of an encoding; every number is read modulo the width. -/
def decode (F : Format) (bits : Nat) : Binary F :=
  ofFields F (bits / F.signWeight % 2 == 1)
    (bits / F.exponentWeight % (F.exponentLimit + 1)) (bits % F.exponentWeight)

/-- The encoding of a value. -/
def encode (x : Binary F) : Nat :=
  let sign := if x.isNegative then F.signWeight else 0
  match x with
  | .nan _ => sign + F.exponentLimit * F.exponentWeight + F.exponentWeight / 2
  | .infinite _ => sign + F.exponentLimit * F.exponentWeight
  | .finite _ magnitude _ =>
    sign + F.excess magnitude * F.exponentWeight + magnitude / 2 ^ F.excess magnitude

/-- The value of a 32-bit encoding. -/
def ofBits32 (bits : UInt32) : Single :=
  decode Format.single bits.toNat

/-- The value of a 64-bit encoding. -/
def ofBits64 (bits : UInt64) : Double :=
  decode Format.double bits.toNat

/-- The 32-bit encoding of a value. -/
def toBits32 (x : Single) : UInt32 :=
  x.encode.toUInt32

/-- The 64-bit encoding of a value. -/
def toBits64 (x : Double) : UInt64 :=
  x.encode.toUInt64

end Binary

end VectorDistance
