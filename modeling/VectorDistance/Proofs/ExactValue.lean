import Mathlib
import VectorDistance.BinaryArithmetic
import VectorDistance.Half

/-!
# Exact values of floating-point numbers

Every finite number of a binary format is a rational. `Binary.exact` names it,
and the lemmas here say what the operations that never round do to it: changes
of sign, absolute values and the passage to a wider format. `OnGrid` adds that
a number is a whole multiple of some power of two quanta, the fact that keeps
sums of decoded halves far away from the least positive value.
-/

namespace VectorDistance

namespace Binary

variable {F : Format}

/-- The rational value of a finite number; a NaN or an infinity counts as zero. -/
def exact (x : Binary F) : ℚ :=
  ((x.quanta.getD 0 : ℤ) : ℚ) / 2 ^ F.quantum

/-- Finite numbers of one sign and one magnitude are equal. -/
theorem finite_congr {s : Bool} {m n : ℕ} {hm : F.Represents m} {hn : F.Represents n}
    (h : m = n) : finite s m hm = finite s n hn := by
  subst h
  rfl

/-- A finite number is its signed magnitude times the quantum. -/
theorem exact_finite (s : Bool) (m : ℕ) (h : F.Represents m) :
    (finite s m h).exact = ((signed s m : ℤ) : ℚ) / 2 ^ F.quantum := rfl

/-- The absolute value of a signed natural number forgets the sign. -/
theorem abs_signed (s : Bool) (m : ℕ) : |((signed s m : ℤ) : ℚ)| = m := by
  cases s <;> simp [signed]

/-- The size of a signed natural number. -/
theorem natAbs_signed (s : Bool) (m : ℕ) : (signed s m).natAbs = m := by
  cases s with
  | false => exact Int.natAbs_natCast m
  | true => exact Int.natAbs_neg m

/-- Zero has no sign. -/
theorem signed_zero (s : Bool) : signed s 0 = 0 :=
  Int.natAbs_eq_zero.mp (natAbs_signed s 0)

/-- The other sign negates a signed size. -/
theorem signed_not (s : Bool) (m : ℕ) : signed (!s) m = -signed s m := by
  cases s <;> simp [signed]

/-- The sign of a size other than zero can be read off. -/
theorem decide_signed_neg (s : Bool) {m : ℕ} (h : m ≠ 0) : decide (signed s m < 0) = s := by
  cases s with
  | false => exact decide_eq_false (not_lt.mpr (Int.natCast_nonneg m))
  | true => exact decide_eq_true (Int.neg_neg_of_pos (Int.natCast_pos.mpr (Nat.pos_of_ne_zero h)))

/-- Signed sizes that are equal and not zero carry one sign. -/
theorem eq_zero_or_eq_of_signed_eq {s t : Bool} {m : ℕ} (h : signed s m = signed t m) :
    m = 0 ∨ s = t := by
  cases s with
  | false =>
    cases t with
    | false => exact Or.inr rfl
    | true =>
      change (m : ℤ) = -m at h
      exact Or.inl (by omega)
  | true =>
    cases t with
    | false =>
      change -(m : ℤ) = m at h
      exact Or.inl (by omega)
    | true => exact Or.inr rfl

/-- Signed natural numbers are multiples of what their sizes are multiples of. -/
theorem natCast_dvd_signed {d m : ℕ} (s : Bool) (h : d ∣ m) : (d : ℤ) ∣ signed s m := by
  rw [Int.natCast_dvd, natAbs_signed]
  exact h

/-- The size of a finite number is its magnitude times the quantum. -/
theorem abs_exact_finite (s : Bool) (m : ℕ) (h : F.Represents m) :
    |(finite s m h).exact| = (m : ℚ) / 2 ^ F.quantum := by
  rw [exact_finite, abs_div, abs_signed, abs_of_pos (by positivity : (0 : ℚ) < 2 ^ F.quantum)]

/-- The value of a number without a minus sign is its magnitude times the quantum. -/
theorem exact_finite_false (m : ℕ) (h : F.Represents m) :
    (finite false m h).exact = (m : ℚ) / 2 ^ F.quantum := by
  rw [exact_finite, signed, if_neg Bool.false_ne_true, Int.cast_natCast]

/-- Zeros of both signs have the value zero. -/
theorem exact_zero (s : Bool) : (zero s : Binary F).exact = 0 := by
  cases s <;> simp [exact, zero, quanta, signed]

/-- A finite number is built from a sign and a magnitude. -/
theorem exists_of_isFinite {x : Binary F} (h : x.isFinite = true) :
    ∃ s m hm, x = finite s m hm := by
  cases x with
  | nan => simp only [isFinite, Bool.false_eq_true] at h
  | infinite => simp only [isFinite, Bool.false_eq_true] at h
  | finite s m hm => exact ⟨s, m, hm, rfl⟩

/-- Changing the sign of a number changes the sign of its value. -/
theorem exact_neg (x : Binary F) : (-x).exact = -x.exact := by
  change x.neg.exact = _
  cases x with
  | nan => simp [neg, exact, quanta]
  | infinite => simp [neg, exact, quanta]
  | finite s m => cases s <;> simp [neg, exact, quanta, signed, neg_div]

/-- Changing the sign keeps a number finite. -/
theorem isFinite_neg (x : Binary F) : (-x).isFinite = x.isFinite := by
  change x.neg.isFinite = _
  cases x <;> rfl

/-- Dropping the sign of a number drops the sign of its value. -/
theorem exact_abs (x : Binary F) : x.abs.exact = |x.exact| := by
  cases x with
  | nan => simp [abs, exact, quanta]
  | infinite => simp [abs, exact, quanta]
  | finite s m h =>
    rw [abs_exact_finite]
    simp [abs, exact_finite, signed]

/-- Dropping the sign keeps a number finite. -/
theorem isFinite_abs (x : Binary F) : x.abs.isFinite = x.isFinite := by
  cases x <;> rfl

/-- The passage to a wider format keeps the value. -/
theorem exact_widen {G : Format} (h : F.EmbedsIn G) (x : Binary F) :
    (x.widen h).exact = x.exact := by
  have hq : (2 : ℚ) ^ G.quantum = 2 ^ F.quantum * 2 ^ (G.quantum - F.quantum) := by
    rw [← pow_add, Nat.add_sub_cancel' h.quantum_le]
  have hp : (2 : ℚ) ^ (G.quantum - F.quantum) ≠ 0 := by positivity
  unfold exact
  rw [quanta_widen, hq]
  cases x.quanta with
  | none => simp
  | some q =>
    simp only [Option.map_some, Option.getD_some]
    push_cast
    rw [mul_div_mul_right _ _ hp]

/-- The passage to a wider format keeps a number finite. -/
theorem isFinite_widen {G : Format} (h : F.EmbedsIn G) (x : Binary F) :
    (x.widen h).isFinite = x.isFinite := by
  cases x <;> rfl

/-- The passage to a wider format keeps the sign of a number. -/
theorem isNegative_widen {G : Format} (h : F.EmbedsIn G) {x : Binary F} (hx : x.isFinite = true) :
    (x.widen h).isNegative = x.isNegative := by
  obtain ⟨s, m, hm, rfl⟩ := exists_of_isFinite hx
  rfl

/-- The 64-bit format keeps the values of the 32-bit one. -/
theorem exact_toDouble (x : Single) : x.toDouble.exact = x.exact :=
  exact_widen Format.single_embedsIn_double x

/-- It keeps numbers finite. -/
theorem isFinite_toDouble (x : Single) : x.toDouble.isFinite = x.isFinite :=
  isFinite_widen Format.single_embedsIn_double x

/-- A finite number is a zero exactly when its value is. -/
theorem exact_eq_zero_iff {x : Binary F} (h : x.isFinite = true) :
    x.exact = 0 ↔ x.isZero = true := by
  obtain ⟨s, m, hm, rfl⟩ := exists_of_isFinite h
  have hq : (2 : ℚ) ^ F.quantum ≠ 0 := by positivity
  cases s <;> simp [exact_finite, isZero, rank, signed, hq]

/-- A finite number whose magnitude is a multiple of `2 ^ e` quanta. -/
def OnGrid (e : ℕ) : Binary F → Prop
  | .finite _ m _ => 2 ^ e ∣ m
  | _ => False

/-- Only finite numbers lie on a grid. -/
theorem OnGrid.isFinite {e : ℕ} {x : Binary F} (h : OnGrid e x) : x.isFinite = true := by
  cases x with
  | nan => exact h.elim
  | infinite => exact h.elim
  | finite => rfl

/-- The value of a number on a grid is a whole number of its steps. -/
theorem OnGrid.exact_eq {e : ℕ} {x : Binary F} (h : OnGrid e x) :
    ∃ j : ℤ, x.exact = j * (2 ^ e / 2 ^ F.quantum) := by
  obtain ⟨s, m, hm, rfl⟩ := exists_of_isFinite h.isFinite
  obtain ⟨c, rfl⟩ := h
  refine ⟨signed s c, ?_⟩
  rw [exact_finite]
  cases s with
  | false => simp only [signed, Bool.false_eq_true, if_false]; push_cast; ring
  | true => simp only [signed, if_true]; push_cast; ring

/-- Zeros lie on every grid. -/
theorem onGrid_zero (e : ℕ) (s : Bool) : OnGrid e (zero s : Binary F) :=
  Nat.dvd_zero _

/-- A grid contains every coarser one. -/
theorem OnGrid.mono {d e : ℕ} {x : Binary F} (h : OnGrid e x) (hde : d ≤ e) : OnGrid d x := by
  obtain ⟨s, m, hm, rfl⟩ := exists_of_isFinite h.isFinite
  exact (Nat.pow_dvd_pow 2 hde).trans h

/-- Changing the sign stays on the grid. -/
theorem OnGrid.neg {e : ℕ} {x : Binary F} (h : OnGrid e x) : OnGrid e (-x) := by
  obtain ⟨s, m, hm, rfl⟩ := exists_of_isFinite h.isFinite
  exact h

/-- Dropping the sign stays on the grid. -/
theorem OnGrid.abs {e : ℕ} {x : Binary F} (h : OnGrid e x) : OnGrid e x.abs := by
  obtain ⟨s, m, hm, rfl⟩ := exists_of_isFinite h.isFinite
  exact h

end Binary

/-- A whole multiple of a positive step is zero or no smaller than the step. -/
theorem eq_zero_or_le_abs_of_multiple {q step : ℚ} (hstep : 0 < step)
    (h : ∃ j : ℤ, q = j * step) : q = 0 ∨ step ≤ |q| := by
  obtain ⟨j, rfl⟩ := h
  by_cases hj : j = 0
  · exact Or.inl (by rw [hj]; simp)
  · have h1 : (1 : ℚ) ≤ |(j : ℚ)| := by exact_mod_cast Int.one_le_abs hj
    rw [abs_mul, abs_of_pos hstep]
    exact Or.inr (le_mul_of_one_le_left hstep.le h1)

/-- A number on a grid is zero or no smaller than the step of the grid. -/
theorem Binary.OnGrid.eq_zero_or_le_abs {F : Format} {e : ℕ} {x : Binary F} (h : x.OnGrid e) :
    x.exact = 0 ∨ 2 ^ e / 2 ^ F.quantum ≤ |x.exact| :=
  eq_zero_or_le_abs_of_multiple (by positivity) h.exact_eq

namespace Half

/-- The exponent has five bits. -/
theorem exponentField_lt (h : Half) : h.exponentField < 32 :=
  Nat.mod_lt _ (by omega)

/-- The fraction has ten bits. -/
theorem fraction_lt (h : Half) : h.fraction < 1024 :=
  Nat.mod_lt _ (by omega)

/-- A half is finite when its decoded number is. -/
theorem isFinite_decode (h : Half) : h.decode.isFinite = h.isFinite := by
  have he := h.exponentField_lt
  have hf := h.fraction_lt
  have hl : Format.half.exponentLimit = 31 := by decide
  have hw : Format.half.exponentWeight = 1024 := by decide
  rw [decode, Binary.isFinite_widen, value_eq_ofFields, Binary.ofFields, isFinite]
  split
  · next hlt =>
    rw [hl] at hlt
    have : h.exponentField ≠ 31 := by omega
    simp [Binary.isFinite, this]
  · next hge =>
    rw [hl, hw] at hge
    have : h.exponentField = 31 := by omega
    split <;> simp_all [Binary.isFinite]

/-- The top bit of a half is its sign. -/
theorem topBit_eq_isNegative (h : Half) : (h.bits.toNat / 32768 % 2 == 1) = h.isNegative := by
  have hb := h.bits.toNat_lt
  rw [isNegative, Bool.eq_iff_iff]
  simp only [beq_iff_eq, decide_eq_true_eq]
  omega

/-- The exponent field of a finite half is not the one of infinities and NaNs. -/
theorem exponentField_lt_of_isFinite {h : Half} (hf : h.isFinite = true) :
    h.exponentField < Format.half.exponentLimit := by
  have hne : h.exponentField ≠ 31 := by simpa [isFinite] using hf
  have hlt := h.exponentField_lt
  have hl : Format.half.exponentLimit = 31 := by decide
  omega

/-- A finite half is decoded to its sign and the magnitude of its fields. -/
theorem decode_of_isFinite {h : Half} (hf : h.isFinite = true) :
    ∃ hr, h.decode = .finite h.isNegative
      (Format.half.magnitudeOfFields h.exponentField h.fraction * 2 ^ 125) hr := by
  have he := exponentField_lt_of_isFinite hf
  refine ⟨Format.half_embedsIn_single.represents
    (Format.half.represents_magnitudeOfFields he h.fraction_lt), ?_⟩
  rw [decode, value_eq_ofFields, Binary.ofFields, dif_pos ⟨he, h.fraction_lt⟩,
    topBit_eq_isNegative]
  rfl

/-- The sign, magnitude and value of a finite half after decoding. -/
theorem exists_decode_of_isFinite {h : Half} (hf : h.isFinite = true) :
    ∃ s m hm, h.decode = .finite s (m * 2 ^ 125) hm ∧ Format.half.Represents m := by
  obtain ⟨hr, hd⟩ := decode_of_isFinite hf
  exact ⟨_, _, hr, hd,
    Format.half.represents_magnitudeOfFields (exponentField_lt_of_isFinite hf) h.fraction_lt⟩

/-- Decoded halves are whole multiples of `2 ^ -24`. -/
theorem onGrid_decode {h : Half} (hf : h.isFinite = true) : h.decode.OnGrid 125 := by
  obtain ⟨s, m, hm, hd, -⟩ := exists_decode_of_isFinite hf
  rw [hd]
  exact Nat.dvd_mul_left _ _

/-- Finite halves lie below `2 ^ 16`. -/
theorem abs_exact_decode_lt {h : Half} (hf : h.isFinite = true) :
    |h.decode.exact| < 2 ^ 16 := by
  obtain ⟨s, m, hm, hd, -, hlt⟩ := exists_decode_of_isFinite hf
  rw [hd, Binary.abs_exact_finite, div_lt_iff₀ (by positivity)]
  have hc : (m : ℚ) < 2 ^ 40 := by exact_mod_cast hlt
  have hq : Format.single.quantum = 149 := rfl
  rw [hq]
  push_cast
  nlinarith

end Half

end VectorDistance
