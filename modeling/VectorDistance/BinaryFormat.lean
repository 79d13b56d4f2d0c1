import VectorDistance.Rounding

/-!
# Binary floating-point formats on their own grid

A format with gradual underflow has a least positive value, and every one of
its finite values is a whole multiple of it. Magnitudes are therefore natural
numbers counted in that quantum: a magnitude belongs to the format when its
significant bits fit the precision and it stays below the capacity. Normal and
subnormal values need no separate cases. Rounding goes to the nearest
magnitude with an even significand on ties, and overflow is left to the caller.
-/

namespace VectorDistance

-- Powers are the core ones also where the algebraic hierarchy is in scope.
attribute [local instance (high)] instPowNat

/-- A binary floating-point format. Magnitudes count multiples of `2 ^ -quantum`. -/
structure Format where
  /-- Number of significant bits of a normal value. -/
  precision : Nat
  /-- The least positive value is `2 ^ -quantum`. -/
  quantum : Nat
  /-- Every finite magnitude is below `2 ^ capacity`. -/
  capacity : Nat
  /-- There is a fraction beside the leading bit. -/
  precision_pos : 1 < precision := by decide
  /-- The subnormal range and at least one binade are finite. -/
  precision_le_capacity : precision ≤ capacity := by decide

namespace Format

/-- The 16-bit interchange format: 11 significant bits, quantum `2 ^ -24`. -/
def half : Format where
  precision := 11
  quantum := 24
  capacity := 40

/-- The 32-bit interchange format: 24 significant bits, quantum `2 ^ -149`. -/
def single : Format where
  precision := 24
  quantum := 149
  capacity := 277

/-- The 64-bit interchange format: 53 significant bits, quantum `2 ^ -1074`. -/
def double : Format where
  precision := 53
  quantum := 1074
  capacity := 2098

/-- Number of low bits of a magnitude that lie beyond the precision; its last
significant bit weighs `2 ^ excess` quanta. -/
def excess (F : Format) (magnitude : Nat) : Nat :=
  magnitude.log2 + 1 - F.precision

/-- A magnitude whose significant bits fit the precision, however large. -/
def Fits (F : Format) (magnitude : Nat) : Prop :=
  ∃ significand shift : Nat, significand < 2 ^ F.precision ∧ magnitude = significand * 2 ^ shift

/-- A finite magnitude of the format. -/
def Represents (F : Format) (magnitude : Nat) : Prop :=
  F.Fits magnitude ∧ magnitude < 2 ^ F.capacity

/-- The magnitude nearest to `num / den` quanta among those whose significant
bits fit, the even significand on ties. The exponent is not bounded above. -/
def roundMagnitude (F : Format) (num den : Nat) : Nat :=
  let shift := F.excess (num / den)
  roundDiv .toEven num (den * 2 ^ shift) * 2 ^ shift

/-- Zero belongs to every format. -/
theorem represents_zero (F : Format) : F.Represents 0 :=
  ⟨⟨0, 0, Nat.two_pow_pos _, by simp⟩, Nat.two_pow_pos _⟩

/-- A power of two has a single significant bit. -/
theorem fits_two_pow (F : Format) (n : Nat) : F.Fits (2 ^ n) :=
  ⟨1, n, Nat.one_lt_two_pow (Nat.ne_of_gt (Nat.lt_of_lt_of_le (by decide) F.precision_pos)),
    by simp⟩

/-- A significand may be the full power of two, which has one significant bit. -/
theorem fits_mul_two_pow (F : Format) {significand : Nat} (shift : Nat)
    (h : significand ≤ 2 ^ F.precision) : F.Fits (significand * 2 ^ shift) := by
  rcases Nat.lt_or_eq_of_le h with hlt | heq
  · exact ⟨significand, shift, hlt, rfl⟩
  · rw [heq, ← Nat.pow_add]
    exact F.fits_two_pow _

/-- The bits above the excess fit the precision. -/
theorem lt_two_pow_excess (F : Format) (magnitude : Nat) :
    magnitude < 2 ^ (F.precision + F.excess magnitude) := by
  have h : magnitude < 2 ^ (magnitude.log2 + 1) := Nat.lt_log2_self
  refine Nat.lt_of_lt_of_le h (Nat.pow_le_pow_right (by decide) ?_)
  unfold excess
  omega

/-- Dropping the excess bits leaves a significand of the format. -/
theorem div_excess_lt (F : Format) (magnitude : Nat) :
    magnitude / 2 ^ F.excess magnitude < 2 ^ F.precision := by
  apply Nat.div_lt_of_lt_mul
  rw [Nat.mul_comm, ← Nat.pow_add]
  exact F.lt_two_pow_excess magnitude

/-- A rounded magnitude has only bits that fit. -/
theorem fits_roundMagnitude (F : Format) (num den : Nat) :
    F.Fits (F.roundMagnitude num den) := by
  apply F.fits_mul_two_pow
  have hr := roundDiv_le .toEven num (den * 2 ^ F.excess (num / den))
  have hd := F.div_excess_lt (num / den)
  rw [Nat.div_div_eq_div_mul] at hd
  omega

end Format

end VectorDistance
