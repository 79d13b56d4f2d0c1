import Mathlib
import VectorDistance.HalfCodec
import VectorDistance.Proofs.RoundingLaws

/-!
# Encoding rounds to the nearest normal half

`EncodesAs` states the rule of the encoder on exact values: NaNs and infinities
keep their sign, magnitudes from 65520 on become infinities, magnitudes below
`2 ^ -14` become zeros, and everything between becomes the nearest normal half,
the larger one if two are equally near. The main statement is that encoding
satisfies this rule on all 32-bit patterns and that nothing else does.
-/

namespace VectorDistance

/-- Rounding a half up leaves less than half a unit missing. -/
theorem num_lt_roundDiv_away (num : ℕ) {den : ℕ} (hden : 0 < den) :
    2 * num < 2 * (roundDiv .away num den * den) + den := by
  have hd := Nat.div_add_mod' num den
  have hm := Nat.mod_lt num hden
  unfold roundDiv
  dsimp only
  split
  · omega
  · split
    · rw [Nat.add_mul]
      omega
    · rw [Nat.add_mul]
      omega

/-- Of all whole multiples, the one that rounding away chooses is nearest, and
of two nearest ones it is the larger. -/
theorem roundDiv_away_nearest (num : ℕ) {den : ℕ} (hden : 0 < den) (k : ℕ) :
    |((roundDiv .away num den * den : ℕ) : ℤ) - num| ≤ |((k * den : ℕ) : ℤ) - num| ∧
      (|((k * den : ℕ) : ℤ) - num| = |((roundDiv .away num den * den : ℕ) : ℤ) - num| →
        k * den ≤ roundDiv .away num den * den) := by
  have hlo := num_lt_roundDiv_away num hden
  have hhi := roundDiv_mul_le .away num den
  generalize roundDiv .away num den = r at hlo hhi ⊢
  simp only [Int.abs_eq_natAbs]
  rcases Nat.lt_trichotomy k r with hk | rfl | hk
  · have hs : k * den + den ≤ r * den := by
      rw [← Nat.succ_mul]
      exact Nat.mul_le_mul_right den hk
    constructor
    · omega
    · intro _
      omega
  · exact ⟨le_rfl, fun _ => le_rfl⟩
  · have hs : r * den + den ≤ k * den := by
      rw [← Nat.succ_mul]
      exact Nat.mul_le_mul_right den hk
    constructor
    · omega
    · intro he
      omega

/-- Turning the top bit of a number around keeps the bits below it. -/
theorem xor_top_bit {n k : ℕ} (h : n < 2 ^ (k + 1)) :
    (n ^^^ 2 ^ k) % 2 ^ k = n % 2 ^ k ∧ (n ^^^ 2 ^ k) / 2 ^ k = 1 - n / 2 ^ k := by
  have htop : n / 2 ^ k < 2 := by
    rw [Nat.div_lt_iff_lt_mul (Nat.two_pow_pos k), ← Nat.pow_succ']
    exact h
  rw [Nat.xor_mod_two_pow, Nat.xor_div_two_pow, Nat.mod_self, Nat.xor_zero,
    Nat.div_self (Nat.two_pow_pos k)]
  refine ⟨rfl, ?_⟩
  interval_cases n / 2 ^ k
  · rfl
  · rfl

namespace Half

/-- Is this a finite number with a full significand? -/
def isNormal (h : Half) : Bool :=
  h.isFinite && h.exponentField != 0

/-- The half with its sign bit turned around if asked for. -/
def withSign (negative : Bool) (h : Half) : Half :=
  if negative then h.neg else h

/-- Of all normal halves `h` is nearest to `q`, and no other nearest one is larger. -/
structure NearestNormal (q : ℚ) (h : Half) : Prop where
  /-- The chosen half is neither zero, subnormal, infinite nor a NaN. -/
  normal : h.isNormal = true
  /-- No normal half is closer. -/
  nearest : ∀ g : Half, g.isNormal = true → |h.decode.exact - q| ≤ |g.decode.exact - q|
  /-- A normal half at the same distance has no larger magnitude. -/
  larger : ∀ g : Half, g.isNormal = true → |g.decode.exact - q| = |h.decode.exact - q| →
    |g.decode.exact| ≤ |h.decode.exact|

/-- The rule by which a 32-bit value of the given sign bit becomes a half. -/
inductive EncodesAs (negative : Bool) (x : Single) : Half → Prop
  /-- A NaN keeps its sign bit and nothing else. -/
  | nan (hx : x.isNaN = true) : EncodesAs negative x (canonicalNaN.withSign negative)
  /-- An infinity keeps its sign. -/
  | infinite (s : Bool) (hx : x = .infinite s) : EncodesAs negative x (infinity.withSign negative)
  /-- From halfway past the largest half on there are only infinities. -/
  | overflow (hx : x.isFinite = true) (hlarge : 65520 ≤ |x.exact|) :
    EncodesAs negative x (infinity.withSign negative)
  /-- Below the least normal half there are only zeros. -/
  | flush (hx : x.isFinite = true) (hsmall : |x.exact| < 1 / 2 ^ 14) :
    EncodesAs negative x (zero.withSign negative)
  /-- Everything else goes to the nearest normal half. -/
  | nearest {h : Half} (hx : x.isFinite = true) (hlo : 1 / 2 ^ 14 ≤ |x.exact|)
    (hhi : |x.exact| < 65520) (hs : h.isNegative = negative) (hn : NearestNormal x.exact h) :
    EncodesAs negative x h

/-! ## The bits of an encoded half -/

/-- The bits of a half that is put together from its parts. -/
theorem toNat_bits_ofParts (s : Bool) {b : ℕ} (hb : b < 0x8000) :
    (ofParts s b).bits.toNat = (if s then 0x8000 else 0) + b := by
  unfold ofParts
  rw [Nat.toUInt16, UInt16.toNat_ofNat']
  cases s with
  | false => simp only [Bool.false_eq_true, if_false]; omega
  | true => simp only [if_true]; omega

/-- The exponent field of a half that is put together from its parts. -/
theorem exponentField_ofParts (s : Bool) {b : ℕ} (hb : b < 0x8000) :
    (ofParts s b).exponentField = b / 1024 := by
  rw [exponentField, toNat_bits_ofParts s hb]
  cases s with
  | false => simp only [Bool.false_eq_true, if_false]; omega
  | true => simp only [if_true]; omega

/-- The fraction of a half that is put together from its parts. -/
theorem fraction_ofParts (s : Bool) {b : ℕ} (hb : b < 0x8000) :
    (ofParts s b).fraction = b % 1024 := by
  rw [fraction, toNat_bits_ofParts s hb]
  cases s with
  | false => simp only [Bool.false_eq_true, if_false]; omega
  | true => simp only [if_true]; omega

/-- The sign of a half that is put together from its parts. -/
theorem isNegative_ofParts (s : Bool) {b : ℕ} (hb : b < 0x8000) :
    (ofParts s b).isNegative = s := by
  rw [isNegative, toNat_bits_ofParts s hb]
  cases s with
  | false => simp only [Bool.false_eq_true, if_false, decide_eq_false_iff_not]; omega
  | true => simp only [if_true, decide_eq_true_eq]; omega

/-- A half is its sign and its fields. -/
theorem eq_of_fields {g h : Half} (hs : g.isNegative = h.isNegative)
    (he : g.exponentField = h.exponentField) (hf : g.fraction = h.fraction) : g = h := by
  have hg := g.bits.toNat_lt
  have hh := h.bits.toNat_lt
  unfold isNegative at hs
  unfold exponentField at he
  unfold fraction at hf
  have hlt : 0x8000 ≤ g.bits.toNat ↔ 0x8000 ≤ h.bits.toNat := by
    simpa only [decide_eq_decide] using hs
  have hb : g.bits.toNat = h.bits.toNat := by omega
  cases g
  cases h
  exact congrArg Half.mk (UInt16.toNat_inj.mp hb)

/-- The half of the other sign has the other sign bit, and the same fields. -/
theorem fields_neg (h : Half) : h.neg.isNegative = !h.isNegative ∧
    h.neg.exponentField = h.exponentField ∧ h.neg.fraction = h.fraction := by
  obtain ⟨hlow, hhigh⟩ := xor_top_bit (k := 15) h.bits.toNat_lt
  have hbits : h.neg.bits.toNat = h.bits.toNat ^^^ 2 ^ 15 := UInt16.toNat_xor _ _
  have htop := h.bits.toNat_lt
  rw [← hbits] at hlow hhigh
  unfold isNegative exponentField fraction
  refine ⟨?_, by omega, by omega⟩
  rw [Bool.eq_iff_iff]
  simp only [decide_eq_true_eq, Bool.not_eq_true', decide_eq_false_iff_not]
  omega

/-- The sign and the fields of a half without a sign determine a half. -/
theorem eq_withSign {g h : Half} (hg : g.isNegative = false)
    (he : h.exponentField = g.exponentField) (hf : h.fraction = g.fraction) :
    h = g.withSign h.isNegative := by
  obtain ⟨hsign, hexponent, hfraction⟩ := fields_neg g
  generalize hs : h.isNegative = s
  cases s with
  | false => exact eq_of_fields (hs.trans hg.symm) he hf
  | true =>
    refine eq_of_fields ?_ (he.trans hexponent.symm) (hf.trans hfraction.symm)
    rw [hs, withSign, if_pos rfl, hsign, hg]
    rfl

/-- The exponent field of a normal half lies strictly between its limits. -/
theorem isNormal_iff {h : Half} :
    h.isNormal = true ↔ 0 < h.exponentField ∧ h.exponentField < 31 := by
  have he := h.exponentField_lt
  simp only [isNormal, isFinite, Bool.and_eq_true, bne_iff_ne, ne_eq]
  omega

/-- Magnitude of a normal half in 32-bit quanta. -/
def normalMagnitude (h : Half) : ℕ :=
  (1024 + h.fraction) * 2 ^ (h.exponentField + 124)

/-- A normal half decodes to its sign and its magnitude. -/
theorem decode_of_isNormal {h : Half} (hn : h.isNormal = true) :
    ∃ hm, h.decode = .finite h.isNegative h.normalMagnitude hm := by
  obtain ⟨hlo, hhi⟩ := isNormal_iff.mp hn
  obtain ⟨hr, hd⟩ := decode_of_isFinite (Bool.and_elim_left hn)
  have hm : Format.half.magnitudeOfFields h.exponentField h.fraction * 2 ^ 125 =
      h.normalMagnitude := by
    have hw : Format.half.exponentWeight = 1024 := by decide
    rw [Format.magnitudeOfFields, if_neg (by omega), hw, normalMagnitude, Nat.mul_assoc, ← pow_add]
    congr 2
    omega
  rw [hd]
  exact ⟨hm ▸ hr, Binary.finite_congr hm⟩

/-- Halves with the same fields have the same magnitude, and nothing else has. -/
theorem fields_eq_of_normalMagnitude_eq {g h : Half}
    (he : g.normalMagnitude = h.normalMagnitude) :
    g.exponentField = h.exponentField ∧ g.fraction = h.fraction := by
  have hlog : ∀ k : Half, k.normalMagnitude.log2 = k.exponentField + 134 := by
    intro k
    have hf := k.fraction_lt
    have hlo : 2 ^ (k.exponentField + 134) ≤ k.normalMagnitude := by
      rw [show k.exponentField + 134 = 10 + (k.exponentField + 124) by omega, pow_add]
      exact Nat.mul_le_mul_right _ (by omega)
    have hhi : k.normalMagnitude < 2 ^ (k.exponentField + 135) := by
      rw [show k.exponentField + 135 = 11 + (k.exponentField + 124) by omega, pow_add]
      exact Nat.mul_lt_mul_of_pos_right (by omega) (Nat.two_pow_pos _)
    exact (Nat.log2_eq_iff (by have := Nat.two_pow_pos (k.exponentField + 134); omega)).mpr
      ⟨hlo, hhi⟩
  have hexp : g.exponentField = h.exponentField := by
    have h1 := hlog g
    have h2 := hlog h
    rw [he] at h1
    omega
  refine ⟨hexp, ?_⟩
  unfold normalMagnitude at he
  rw [hexp] at he
  have := Nat.eq_of_mul_eq_mul_right (Nat.two_pow_pos _) he
  omega

/-! ## The rounded magnitude -/

/-- A magnitude of eleven significant bits or more rounded to eleven, a half
away from zero. -/
def roundedMagnitude (m : ℕ) : ℕ :=
  roundDiv .away m (2 ^ (m.log2 - 10)) * 2 ^ (m.log2 - 10)

/-- From the least normal half on a magnitude fills its eleven bits. -/
theorem significand_bounds {m : ℕ} (hm : 2 ^ 135 ≤ m) :
    1024 * 2 ^ (m.log2 - 10) ≤ m ∧ m < 2048 * 2 ^ (m.log2 - 10) ∧ 125 ≤ m.log2 - 10 := by
  have hne : m ≠ 0 := by
    rintro rfl
    exact absurd hm (by norm_num)
  have hlog : 135 ≤ m.log2 := (Nat.le_log2 hne).mpr hm
  have hlo := Nat.log2_self_le hne
  have hhi : m < 2 ^ (m.log2 + 1) := Nat.lt_log2_self
  refine ⟨?_, ?_, by omega⟩
  · rw [show (1024 : ℕ) = 2 ^ 10 from rfl, ← pow_add]
    rwa [show 10 + (m.log2 - 10) = m.log2 by omega]
  · rw [show (2048 : ℕ) = 2 ^ 11 from rfl, ← pow_add]
    rwa [show 11 + (m.log2 - 10) = m.log2 + 1 by omega]

/-- Eleven rounded bits are a significand, the full power of two included. -/
theorem roundDiv_significand_bounds {m : ℕ} (hm : 2 ^ 135 ≤ m) :
    1024 ≤ roundDiv .away m (2 ^ (m.log2 - 10)) ∧
      roundDiv .away m (2 ^ (m.log2 - 10)) ≤ 2048 := by
  obtain ⟨hlo, hhi, -⟩ := significand_bounds hm
  have hpos := Nat.two_pow_pos (m.log2 - 10)
  have h1 := le_roundDiv .away m (2 ^ (m.log2 - 10))
  have h2 := roundDiv_le .away m (2 ^ (m.log2 - 10))
  have h3 : 1024 ≤ m / 2 ^ (m.log2 - 10) := (Nat.le_div_iff_mul_le hpos).mpr hlo
  have h4 : m / 2 ^ (m.log2 - 10) < 2048 := (Nat.div_lt_iff_lt_mul hpos).mpr hhi
  omega

/-- No normal magnitude is closer than the rounded one, and none as close is larger. -/
theorem roundedMagnitude_nearest {m : ℕ} (hm : 2 ^ 135 ≤ m) (g : Half) :
    |(roundedMagnitude m : ℤ) - m| ≤ |(g.normalMagnitude : ℤ) - m| ∧
      (|(g.normalMagnitude : ℤ) - m| = |(roundedMagnitude m : ℤ) - m| →
        g.normalMagnitude ≤ roundedMagnitude m) := by
  obtain ⟨hlo, hhi, hshift⟩ := significand_bounds hm
  have hpos := Nat.two_pow_pos (m.log2 - 10)
  unfold roundedMagnitude normalMagnitude
  generalize m.log2 - 10 = k at hlo hhi hshift hpos ⊢
  rcases Nat.lt_or_ge (g.exponentField + 124) k with hk | hk
  · -- A lower binade ends where the binade of the magnitude starts.
    have hstart := (roundDiv_away_nearest m hpos 1024).1
    have hbelow : (1024 + g.fraction) * 2 ^ (g.exponentField + 124) < 1024 * 2 ^ k := by
      have hf := g.fraction_lt
      calc (1024 + g.fraction) * 2 ^ (g.exponentField + 124)
          < 2048 * 2 ^ (g.exponentField + 124) :=
            Nat.mul_lt_mul_of_pos_right (by omega) (Nat.two_pow_pos _)
        _ = 1024 * 2 ^ (g.exponentField + 125) := by ring
        _ ≤ 1024 * 2 ^ k := Nat.mul_le_mul_left _ (Nat.pow_le_pow_right (by omega) hk)
    simp only [Int.abs_eq_natAbs] at hstart ⊢
    constructor
    · omega
    · intro he
      omega
  · -- A binade at least as high consists of multiples of the last bit kept.
    have hsplit : (1024 + g.fraction) * 2 ^ (g.exponentField + 124) =
        (1024 + g.fraction) * 2 ^ (g.exponentField + 124 - k) * 2 ^ k := by
      rw [Nat.mul_assoc, ← pow_add, Nat.sub_add_cancel hk]
    rw [hsplit]
    exact roundDiv_away_nearest m hpos _

/-- Below the overflow threshold the bits of an encoded magnitude are not cut off. -/
theorem encodeMagnitude_of_lt {m : ℕ} (hm : 2 ^ 135 ≤ m) (hlt : m < 65520 * 2 ^ 149) :
    encodeMagnitude m = (m.log2 - 135) * 1024 + roundDiv .away m (2 ^ (m.log2 - 10)) ∧
      (m.log2 - 135) * 1024 + roundDiv .away m (2 ^ (m.log2 - 10)) < 0x7c00 := by
  obtain ⟨hr1, hr2⟩ := roundDiv_significand_bounds hm
  have hlog : m.log2 ≤ 164 := by
    have h : m.log2 < 165 := (Nat.log2_lt (by omega)).mpr (by omega)
    omega
  have hbits : (m.log2 - 135) * 1024 + roundDiv .away m (2 ^ (m.log2 - 10)) < 0x7c00 := by
    rcases Nat.lt_or_ge m.log2 164 with h | h
    · omega
    · have he : m.log2 = 164 := by omega
      have hround := roundDiv_mul_le .away m (2 ^ (m.log2 - 10))
      rw [he] at hround ⊢
      norm_num at hround hlt ⊢
      omega
  refine ⟨?_, hbits⟩
  unfold encodeMagnitude
  dsimp only
  rw [if_neg (by omega), show m.log2 - 10 - 125 = m.log2 - 135 by omega, Nat.min_eq_right (by omega)]

/-- From halfway past the largest half on the bits are those of an infinity. -/
theorem encodeMagnitude_of_ge {m : ℕ} (hge : 65520 * 2 ^ 149 ≤ m) : encodeMagnitude m = 0x7c00 := by
  have hm : 2 ^ 135 ≤ m := le_trans (by norm_num) hge
  obtain ⟨hr1, hr2⟩ := roundDiv_significand_bounds hm
  have hlog : 164 ≤ m.log2 := (Nat.le_log2 (by omega)).mpr (le_trans (by norm_num) hge)
  unfold encodeMagnitude
  dsimp only
  rw [if_neg (by omega)]
  refine Nat.min_eq_left ?_
  rcases Nat.lt_or_ge 164 m.log2 with h | h
  · omega
  · have he : m.log2 = 164 := by omega
    have hround := num_lt_roundDiv_away m (Nat.two_pow_pos (m.log2 - 10))
    rw [he] at hround ⊢
    norm_num at hround hge ⊢
    omega

/-- Between the thresholds an encoded magnitude is normal and has the rounded
magnitude, a carry into the exponent field included. -/
theorem ofParts_encodeMagnitude {m : ℕ} (s : Bool) (hm : 2 ^ 135 ≤ m)
    (hlt : m < 65520 * 2 ^ 149) :
    (ofParts s (encodeMagnitude m)).isNormal = true ∧
      (ofParts s (encodeMagnitude m)).isNegative = s ∧
      (ofParts s (encodeMagnitude m)).normalMagnitude = roundedMagnitude m := by
  obtain ⟨hr1, hr2⟩ := roundDiv_significand_bounds hm
  obtain ⟨-, -, hshift⟩ := significand_bounds hm
  obtain ⟨he, hbits⟩ := encodeMagnitude_of_lt hm hlt
  have hb : encodeMagnitude m < 0x8000 := by omega
  rw [isNormal_iff, exponentField_ofParts s hb, isNegative_ofParts s hb, normalMagnitude,
    exponentField_ofParts s hb, fraction_ofParts s hb, he]
  refine ⟨by omega, rfl, ?_⟩
  unfold roundedMagnitude
  generalize roundDiv .away m (2 ^ (m.log2 - 10)) = r at hr1 hr2 hbits ⊢
  rcases Nat.lt_or_ge r 2048 with hr | hr
  · rw [show ((m.log2 - 135) * 1024 + r) / 1024 + 124 = m.log2 - 10 by omega,
      show 1024 + ((m.log2 - 135) * 1024 + r) % 1024 = r by omega]
  · have h2048 : r = 2048 := by omega
    subst h2048
    rw [show ((m.log2 - 135) * 1024 + 2048) / 1024 + 124 = m.log2 - 10 + 1 by omega,
      show 1024 + ((m.log2 - 135) * 1024 + 2048) % 1024 = 1024 by omega, pow_succ]
    ring

/-! ## The rule of the encoder -/

/-- The size of a normal half as a rational. -/
theorem abs_exact_of_isNormal {h : Half} (hn : h.isNormal = true) :
    |h.decode.exact| = (h.normalMagnitude : ℚ) / 2 ^ 149 := by
  obtain ⟨hm, hd⟩ := decode_of_isNormal hn
  rw [hd, Binary.abs_exact_finite]
  rfl

/-- Distances of whole magnitudes as rationals on the grid of quanta. -/
theorem abs_div_sub_div (a b : ℕ) :
    |(a : ℚ) / 2 ^ 149 - b / 2 ^ 149| = ((|(a : ℤ) - b| : ℤ) : ℚ) / 2 ^ 149 := by
  rw [← sub_div, abs_div, abs_of_pos (by positivity : (0 : ℚ) < 2 ^ 149)]
  push_cast
  rfl

/-- Two numbers of one sign are as far apart as their sizes. -/
theorem abs_signed_sub_signed (s : Bool) (a b : ℕ) :
    |((Binary.signed s a : ℤ) : ℚ) / 2 ^ 149 - (Binary.signed s b : ℤ) / 2 ^ 149| =
      |(a : ℚ) / 2 ^ 149 - b / 2 ^ 149| := by
  cases s with
  | false => simp [Binary.signed]
  | true =>
    simp only [Binary.signed, if_true]
    push_cast
    rw [← abs_neg]
    congr 1
    ring

/-- A normal half of the rounded magnitude of a number, and of its sign, is
nearest to the number, whether or not that is one of the 32-bit format. -/
theorem nearestNormal_of_roundedMagnitude {s : Bool} {m : ℕ} {h : Half} (hm : 2 ^ 135 ≤ m)
    (hn : h.isNormal = true) (hs : h.isNegative = s)
    (hmag : h.normalMagnitude = roundedMagnitude m) :
    NearestNormal (((Binary.signed s m : ℤ) : ℚ) / 2 ^ 149) h := by
  have habs := abs_exact_of_isNormal hn
  obtain ⟨hrep, hd⟩ := decode_of_isNormal hn
  rw [hmag] at habs
  have hself : |h.decode.exact - ((Binary.signed s m : ℤ) : ℚ) / 2 ^ 149| =
      ((|(roundedMagnitude m : ℤ) - m| : ℤ) : ℚ) / 2 ^ 149 := by
    rw [hd, Binary.exact_finite, hs, hmag]
    exact (abs_signed_sub_signed s _ m).trans (abs_div_sub_div _ m)
  have hpos : (0 : ℚ) < 2 ^ 149 := by positivity
  -- A half of the other sign is at least as far away as its mirror image.
  have hother : ∀ g : Half, g.isNormal = true →
      ((|(g.normalMagnitude : ℤ) - m| : ℤ) : ℚ) / 2 ^ 149 ≤
        |g.decode.exact - ((Binary.signed s m : ℤ) : ℚ) / 2 ^ 149| := by
    intro g hg
    have hx : |((Binary.signed s m : ℤ) : ℚ) / 2 ^ 149| = (m : ℚ) / 2 ^ 149 := by
      rw [abs_div, Binary.abs_signed, abs_of_pos hpos]
    rw [← abs_div_sub_div, ← abs_exact_of_isNormal hg, ← hx]
    exact abs_abs_sub_abs_le _ _
  refine ⟨hn, ?_, ?_⟩
  · intro g hg
    refine le_trans ?_ (hother g hg)
    rw [hself, div_le_div_iff_of_pos_right hpos]
    exact_mod_cast (roundedMagnitude_nearest hm g).1
  · intro g hg he
    have hle := hother g hg
    rw [he, hself, div_le_div_iff_of_pos_right hpos] at hle
    have heq := le_antisymm (by exact_mod_cast hle) (roundedMagnitude_nearest hm g).1
    rw [abs_exact_of_isNormal hg, habs, div_le_div_iff_of_pos_right hpos]
    exact_mod_cast (roundedMagnitude_nearest hm g).2 heq

/-- Between the thresholds the encoder finds the nearest normal half. -/
theorem nearestNormal_encode {s : Bool} {m : ℕ} {hr : Format.single.Represents m}
    (hm : 2 ^ 135 ≤ m) (hlt : m < 65520 * 2 ^ 149) :
    NearestNormal (Binary.finite s m hr).exact (encode (.finite s m hr)) := by
  obtain ⟨hn, hs, hmag⟩ := ofParts_encodeMagnitude s hm hlt
  exact nearestNormal_of_roundedMagnitude hm hn hs hmag

/-- Two nearest normal halves of one sign are the same half. -/
theorem NearestNormal.unique {q : ℚ} {g h : Half} (hg : NearestNormal q g)
    (hh : NearestNormal q h) (hs : g.isNegative = h.isNegative) : g = h := by
  have hd : |g.decode.exact - q| = |h.decode.exact - q| :=
    le_antisymm (hg.nearest h hh.normal) (hh.nearest g hg.normal)
  have habs : |g.decode.exact| = |h.decode.exact| :=
    le_antisymm (hh.larger g hg.normal hd) (hg.larger h hh.normal hd.symm)
  rw [abs_exact_of_isNormal hg.normal, abs_exact_of_isNormal hh.normal,
    div_left_inj' (by positivity)] at habs
  obtain ⟨he, hf⟩ := fields_eq_of_normalMagnitude_eq (by exact_mod_cast habs)
  exact eq_of_fields hs he hf

/-- The overflow threshold in quanta. -/
theorem overflow_iff {s : Bool} {m : ℕ} {hr : Format.single.Represents m} :
    65520 ≤ |(Binary.finite s m hr).exact| ↔ 65520 * 2 ^ 149 ≤ m := by
  have hq : Format.single.quantum = 149 := rfl
  rw [Binary.abs_exact_finite, hq, le_div_iff₀ (by positivity)]
  exact_mod_cast Iff.rfl

/-- The flush threshold in quanta. -/
theorem flush_iff {s : Bool} {m : ℕ} {hr : Format.single.Represents m} :
    |(Binary.finite s m hr).exact| < 1 / 2 ^ 14 ↔ m < 2 ^ 135 := by
  have hq : Format.single.quantum = 149 := rfl
  have hsplit : (2 : ℚ) ^ 149 = 2 ^ 135 * 2 ^ 14 := by rw [← pow_add]
  rw [Binary.abs_exact_finite, hq, hsplit, ← div_div,
    div_lt_div_iff_of_pos_right (by positivity), div_lt_one (by positivity)]
  exact_mod_cast Iff.rfl

/-- The half for a NaN. -/
theorem encode_nan (s : Bool) : encode (.nan s) = canonicalNaN.withSign s := by
  cases s <;> rfl

/-- The half for an infinity. -/
theorem encode_infinite (s : Bool) : encode (.infinite s) = infinity.withSign s := by
  cases s <;> rfl

/-- The half for a magnitude below the flush threshold. -/
theorem encode_of_lt {s : Bool} {m : ℕ} {hr : Format.single.Represents m} (hm : m < 2 ^ 135) :
    encode (.finite s m hr) = zero.withSign s := by
  rw [encode, encodeMagnitude, if_pos hm]
  cases s <;> rfl

/-- The half for a magnitude from the overflow threshold on. -/
theorem encode_of_ge {s : Bool} {m : ℕ} {hr : Format.single.Represents m}
    (hm : 65520 * 2 ^ 149 ≤ m) : encode (.finite s m hr) = infinity.withSign s := by
  rw [encode, encodeMagnitude_of_ge hm]
  cases s <;> rfl

/-- Encoding follows the rule on every 32-bit value. -/
theorem encodesAs_encode (x : Single) : EncodesAs x.isNegative x (encode x) := by
  cases x with
  | nan s =>
    rw [encode_nan]
    exact .nan rfl
  | infinite s =>
    rw [encode_infinite]
    exact .infinite s rfl
  | finite s m hr =>
    rcases Nat.lt_or_ge m (2 ^ 135) with hsmall | hm
    · rw [encode_of_lt hsmall]
      exact .flush rfl (flush_iff.mpr hsmall)
    · rcases Nat.lt_or_ge m (65520 * 2 ^ 149) with hlt | hge
      · obtain ⟨-, hs, -⟩ := ofParts_encodeMagnitude s hm hlt
        have hlo : 1 / 2 ^ 14 ≤ |(Binary.finite s m hr).exact| :=
          not_lt.mp fun h => Nat.not_lt.mpr hm (flush_iff.mp h)
        have hhi : |(Binary.finite s m hr).exact| < 65520 :=
          not_le.mp fun h => Nat.not_le.mpr hlt (overflow_iff.mp h)
        exact .nearest rfl hlo hhi hs (nearestNormal_encode hm hlt)
      · rw [encode_of_ge hge]
        exact .overflow rfl (overflow_iff.mpr hge)

/-- The rule leaves no other choice than what encoding gives. -/
theorem EncodesAs.eq_encode {x : Single} {h : Half} (he : EncodesAs x.isNegative x h) :
    encode x = h := by
  cases he with
  | nan hx =>
    cases x with
    | nan s => exact encode_nan s
    | infinite => cases hx
    | finite => cases hx
  | infinite s hx =>
    subst hx
    exact encode_infinite s
  | overflow hx hlarge =>
    obtain ⟨s, m, hr, rfl⟩ := Binary.exists_of_isFinite hx
    exact encode_of_ge (overflow_iff.mp hlarge)
  | flush hx hsmall =>
    obtain ⟨s, m, hr, rfl⟩ := Binary.exists_of_isFinite hx
    exact encode_of_lt (flush_iff.mp hsmall)
  | nearest hx hlo hhi hs hn =>
    obtain ⟨s, m, hr, rfl⟩ := Binary.exists_of_isFinite hx
    have hm : 2 ^ 135 ≤ m := Nat.not_lt.mp fun h => not_lt.mpr hlo (flush_iff.mpr h)
    have hlt : m < 65520 * 2 ^ 149 := Nat.not_le.mp fun h => not_le.mpr hhi (overflow_iff.mpr h)
    obtain ⟨-, hsign, -⟩ := ofParts_encodeMagnitude s hm hlt
    exact (nearestNormal_encode hm hlt).unique hn (hsign.trans hs.symm)

/-- The sign of a 32-bit pattern is its top bit. -/
theorem isNegative_ofBits32 (bits : UInt32) :
    (Binary.ofBits32 bits).isNegative = decide (0x80000000 ≤ bits.toNat) := by
  have hb := bits.toNat_lt
  have hw : Format.single.signWeight = 2147483648 := by decide
  have hs : (bits.toNat / Format.single.signWeight % 2 == 1) =
      decide (0x80000000 ≤ bits.toNat) := by
    rw [hw, Bool.eq_iff_iff]
    simp only [beq_iff_eq, decide_eq_true_eq]
    omega
  rw [← hs, Binary.ofBits32, Binary.decode, Binary.ofFields]
  split
  · rfl
  · split <;> rfl

/-- Encoding a 32-bit pattern gives the half that the rule allows, and the rule
allows no other. -/
theorem encode_ofBits32_eq_iff (bits : UInt32) (h : Half) :
    encode (Binary.ofBits32 bits) = h ↔
      EncodesAs (decide (0x80000000 ≤ bits.toNat)) (Binary.ofBits32 bits) h := by
  rw [← isNegative_ofBits32]
  constructor
  · rintro rfl
    exact encodesAs_encode _
  · exact EncodesAs.eq_encode

end Half

end VectorDistance
