import Mathlib
import VectorDistance.Proofs.FiniteResults
import VectorDistance.Proofs.ScaledElements

/-!
# All or nothing

Encoding, adding, subtracting and multiplying encode one value for each element of the
result. One value without a half refuses all of them, and the refusal names the first
such value, whatever comes before or after it. The check admits magnitudes up to 65504,
well below the 65520 from which on the encoder yields infinities, so that no admitted
value is rounded out of range: each has a finite half, within half a unit in the last
place, or a zero of its sign where the half would be subnormal.
-/

namespace VectorDistance

namespace Half

/-! ## Single values -/

/-- A value with a half that the check admits: a number of at most 65504. -/
def WithinRange (x : Single) : Prop := x.isFinite = true ∧ |x.exact| ≤ 65504

/-- Weight of the last of eleven significant bits of a number. -/
def unitInLastPlace (q : ℚ) : ℚ := 2 ^ (Int.log 2 |q| - 10)

/-- Powers of two in 32-bit quanta. -/
theorem two_zpow_sub (k : ℕ) : (2 : ℚ) ^ ((k : ℤ) - 149) = 2 ^ k / 2 ^ 149 := by
  rw [zpow_sub₀ two_ne_zero, zpow_natCast, zpow_ofNat]

/-- The leading bit of a magnitude in 32-bit quanta, as a logarithm of its value. -/
theorem log_div_quanta {m : ℕ} (hm : m ≠ 0) : Int.log 2 (m / 2 ^ 149 : ℚ) = m.log2 - 149 := by
  have hpos : (0 : ℚ) < m / 2 ^ 149 := by positivity
  have hlo : ((2 ^ m.log2 : ℕ) : ℚ) ≤ m := Nat.cast_le.mpr (Nat.log2_self_le hm)
  have hhi : (m : ℚ) < (2 ^ (m.log2 + 1) : ℕ) := Nat.cast_lt.mpr Nat.lt_log2_self
  push_cast at hlo hhi
  refine le_antisymm (Int.lt_add_one_iff.mp ?_) ?_
  · have hnext : (m.log2 : ℤ) - 149 + 1 = (m.log2 + 1 : ℕ) - 149 := by push_cast; ring
    rw [hnext, ← Int.lt_zpow_iff_log_lt one_lt_two hpos, Nat.cast_ofNat, two_zpow_sub]
    exact div_lt_div_of_pos_right hhi (by positivity)
  · rw [← Int.zpow_le_iff_le_log one_lt_two hpos, Nat.cast_ofNat, two_zpow_sub]
    exact div_le_div_of_nonneg_right hlo (by positivity)

/-- The last bit that the encoder keeps of a number is its unit in the last place. -/
theorem unitInLastPlace_finite {s : Bool} {m : ℕ} {hr : Format.single.Represents m}
    (hm : 2 ^ 135 ≤ m) :
    unitInLastPlace (Binary.finite s m hr).exact = 2 ^ (m.log2 - 10) / 2 ^ 149 := by
  obtain ⟨-, -, hshift⟩ := significand_bounds hm
  have hne : m ≠ 0 := ((Nat.two_pow_pos 135).trans_le hm).ne'
  have hlast : (m.log2 : ℤ) - 149 - 10 = (m.log2 - 10 : ℕ) - 149 := by omega
  rw [unitInLastPlace, Binary.abs_exact_finite, Format.quantum_single, log_div_quanta hne, hlast,
    two_zpow_sub]

/-- How the half of an admitted value lies to the value. -/
structure EncodesClosely (x : Single) (h : Half) : Prop where
  /-- It is what the encoder yields. -/
  eq_encode : h = encode x
  /-- It is finite, although it may be larger than the value. -/
  isFinite : h.isFinite = true
  /-- From the least normal half on it is off by at most half of its last bit. -/
  near : 1 / 2 ^ 14 ≤ |x.exact| → |h.decode.exact - x.exact| ≤ unitInLastPlace x.exact / 2
  /-- Below that it is the zero of the sign of the value. -/
  flushed : |x.exact| < 1 / 2 ^ 14 → h = zero.withSign x.isNegative

/-- Every admitted value is encoded closely. -/
theorem encodesClosely_encode {x : Single} (hx : WithinRange x) : EncodesClosely x (encode x) := by
  obtain ⟨hfin, hle⟩ := hx
  have hregular := isRegular_encode hfin (hle.trans_lt (by norm_num))
  obtain ⟨s, m, hm, rfl⟩ := Binary.exists_of_isFinite hfin
  have hlt : m < 65520 * 2 ^ 149 := Nat.not_le.mp fun hge => by
    have hover : 65520 ≤ |(Binary.finite s m hm).exact| := overflow_iff.mpr hge
    linarith
  refine ⟨rfl, hregular.1, fun hlarge => ?_, fun hsmall => encode_of_lt (flush_iff.mp hsmall)⟩
  have hm135 : 2 ^ 135 ≤ m := Nat.not_lt.mp fun h => absurd (flush_iff.mpr h) hlarge.not_gt
  have hpos : (0 : ℚ) < 2 ^ 149 := by positivity
  obtain ⟨-, -, hr, hd⟩ := exists_decode_encode (s := s) hm hlt
  have hmag : encodedMagnitude m = roundedMagnitude m := if_neg (Nat.not_lt.mpr hm135)
  rw [hd, unitInLastPlace_finite hm135, Binary.exact_finite, Binary.exact_finite,
    Format.quantum_single, abs_signed_sub_signed, ← sub_div, abs_div, abs_of_pos hpos, hmag,
    div_right_comm, div_le_div_iff_of_pos_right hpos]
  exact abs_roundedMagnitude_sub_le_half m

/-- Both checks of a single value have the same results. -/
theorem checkedEncode_eq_ok_iff {x : Single} {h : Half} :
    checkedEncode x = .ok h ↔ tryEncode x = some h := by
  rw [checkedEncode, tryEncode]
  split
  · rw [Except.ok.injEq, Option.some.injEq]
  · exact iff_of_false (fun h => by cases h) (fun h => by cases h)

end Half

namespace HalfVector

/-! ## All elements -/

/-- A result with one close half for each value, or a refusal for the first value that
has none. -/
structure AllOrNothing (values : List Single) (outcome : Except Fault HalfVector) : Prop where
  /-- There is a result exactly if all values are admitted. -/
  exists_ok_iff : (∃ u, outcome = .ok u) ↔ ∀ x ∈ values, Half.WithinRange x
  /-- It has one element for each value. -/
  length_eq : ∀ u, outcome = .ok u → u.length = values.length
  /-- Each element is close to its value. -/
  element : ∀ u, outcome = .ok u → ∀ (i : ℕ) (x : Single) (h : Half),
    values[i]? = some x → u[i]? = some h → Half.EncodesClosely x h
  /-- Otherwise the first value that is not admitted is named, as out of range. -/
  refusal : (¬∀ x ∈ values, Half.WithinRange x) → ∃ (i : ℕ) (x : Single),
    values[i]? = some x ∧ ¬Half.WithinRange x ∧
    (∀ j < i, ∀ y, values[j]? = some y → Half.WithinRange y) ∧
    outcome = .error (.outOfHalfRange x) ∧ (Fault.outOfHalfRange x).kind = .numericRange

/-- Whatever encodes values with a check of each does all of them or none. -/
theorem ChecksRange.allOrNothing {values : List Single} {outcome : Except Fault HalfVector}
    (h : ChecksRange values outcome) : AllOrNothing values outcome := by
  have hrange (x : Single) : Half.inRange x = true ↔ Half.WithinRange x := Half.inRange_iff
  have hok : (∃ u, outcome = .ok u) ↔ ∀ x ∈ values, Half.WithinRange x := by
    simp only [h.eq_ok_iff, hrange, exists_and_left, exists_eq, and_true]
  refine ⟨hok, ?length, ?element, ?refusal⟩
  case length =>
    intro u hu
    obtain ⟨-, rfl⟩ := (h.eq_ok_iff u).mp hu
    exact List.length_map _
  case element =>
    intro u hu i x e hx he
    have hin := hok.mp ⟨u, hu⟩ x (List.mem_of_getElem? hx)
    obtain ⟨-, rfl⟩ := (h.eq_ok_iff u).mp hu
    rw [List.getElem?_map, hx, Option.map_some] at he
    obtain rfl : Half.encode x = e := Option.some.inj he
    exact Half.encodesClosely_encode hin
  case refusal =>
    intro hnot
    rw [← hok] at hnot
    cases outcome with
    | ok u => exact absurd ⟨u, rfl⟩ hnot
    | error fault =>
      obtain ⟨front, x, back, rfl, hfront, hx, rfl⟩ := (h.eq_error_iff fault).mp rfl
      refine ⟨front.length, x, by simp, mt (hrange x).mpr (Bool.eq_false_iff.mp hx), ?_, rfl, rfl⟩
      intro j hj y hy
      rw [List.getElem?_append_left hj] at hy
      exact (hrange y).mp (hfront y (List.mem_of_getElem? hy))

/-- Combining two vectors is refused for their lengths exactly if these differ, whatever the
elements are. -/
theorem combine_eq_mismatch_iff (op : Single → Single → Single) (a b : HalfVector) (l r : ℕ) :
    combine op a b = .error (.dimensionMismatch l r) ↔
      a.length ≠ b.length ∧ l = a.length ∧ r = b.length := by
  constructor
  · intro hmismatch
    by_cases hlen : a.length = b.length
    · obtain ⟨_, x, _, _, _, _, hfault⟩ :=
        ((checksRange_combine op hlen).eq_error_iff _).mp hmismatch
      cases hfault
    · rw [combine_of_length_ne op hlen] at hmismatch
      cases hmismatch
      exact ⟨hlen, rfl, rfl⟩
  · rintro ⟨hlen, rfl, rfl⟩
    exact combine_of_length_ne op hlen

/-- What the checked operations on two vectors, on values and on a factor come to. -/
structure CheckedArithmetic (values : List Single) (a b : HalfVector) (factor : Single) : Prop where
  /-- Encoding values. -/
  encoded : AllOrNothing values (ofSingles values)
  /-- Adding vectors of different lengths is refused for that. -/
  add_mismatch_iff : ∀ l r, add a b = .error (.dimensionMismatch l r) ↔
    a.length ≠ b.length ∧ l = a.length ∧ r = b.length
  /-- So is subtracting them. -/
  sub_mismatch_iff : ∀ l r, sub a b = .error (.dimensionMismatch l r) ↔
    a.length ≠ b.length ∧ l = a.length ∧ r = b.length
  /-- Adding vectors of one length. -/
  added : a.length = b.length →
    AllOrNothing (List.zipWith (fun x y => x.decode + y.decode) a b) (add a b)
  /-- Subtracting vectors of one length. -/
  subtracted : a.length = b.length →
    AllOrNothing (List.zipWith (fun x y => x.decode - y.decode) a b) (sub a b)
  /-- Multiplying a vector by a value. -/
  scaled : AllOrNothing (a.map fun h => h.decode * factor) (scale a factor)
  /-- On single values both checks succeed alike. -/
  single : ∀ x h, Half.checkedEncode x = .ok h ↔ Half.tryEncode x = some h

/-- The checked operations do all elements or none, for arbitrary values and vectors of
arbitrary elements. -/
theorem checkedArithmetic (values : List Single) (a b : HalfVector) (factor : Single) :
    CheckedArithmetic values a b factor where
  encoded := (checksRange_ofSingles values).allOrNothing
  add_mismatch_iff := combine_eq_mismatch_iff (· + ·) a b
  sub_mismatch_iff := combine_eq_mismatch_iff (· - ·) a b
  added h := (checksRange_combine (· + ·) h).allOrNothing
  subtracted h := (checksRange_combine (· - ·) h).allOrNothing
  scaled := (checksRange_ofSingles _).allOrNothing
  single _ _ := Half.checkedEncode_eq_ok_iff

/-- Different lengths are what is named, not the infinity. And one more than the largest half
is refused, although it is nearer to that than to any infinity. -/
theorem checkedArithmetic_largest :
    add [Half.infinity] [] = .error (.dimensionMismatch 1 0) ∧
      ¬∃ u, add [Half.one, Half.largest] [Half.one, Half.one] = .ok u := by
  have hempty := checkedArithmetic [] [Half.infinity] [] (.zero false)
  have hlargest := checkedArithmetic [] [Half.one, Half.largest] [Half.one, Half.one] (.zero false)
  refine ⟨(hempty.add_mismatch_iff 1 0).mpr ⟨by decide, rfl, rfl⟩, fun hok => ?_⟩
  have hrange := (hlargest.added rfl).exists_ok_iff.mp hok
    (Half.largest.decode + Half.one.decode) (List.mem_cons_of_mem _ List.mem_cons_self)
  exact absurd (Half.inRange_iff.mpr hrange) (by decide +kernel)

end HalfVector

end VectorDistance
