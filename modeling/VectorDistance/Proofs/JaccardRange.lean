import Mathlib
import VectorDistance.Proofs.ExactSums
import VectorDistance.Proofs.HammingMetric

/-!
# The range of the Jaccard distance

The share of a union that is common to both buffers is a quotient of two counts.
As long as the counts fit a significand, a share other than zero and one is at
least one roundoff away from both. Numbers that far from the ends are kept there by
rounding, of the quotient and of its difference from one, so that the distance is
zero or one exactly when the counts say so, and lies between them otherwise.
-/

namespace VectorDistance

namespace Format

variable {F : Format}

/-- A roundoff, in quanta. -/
def gap (F : Format) : ℕ := 2 ^ (F.quantum - F.precision)

/-- A magnitude between zero and one, at least one roundoff away from each of them
unless it is `zero` or `one`. -/
structure UnitShare (F : Format) (zero one : Prop) (magnitude : ℕ) : Prop where
  /-- One end. -/
  eq_zero : zero → magnitude = 0
  /-- The other end. -/
  eq_one : one → magnitude = 2 ^ F.quantum
  /-- Room above zero. -/
  gap_le : ¬zero → F.gap ≤ magnitude
  /-- Room below one. -/
  add_gap_le : ¬one → magnitude + F.gap ≤ 2 ^ F.quantum

/-- A roundoff is less than one. -/
theorem gap_le_one (F : Format) : F.gap ≤ 2 ^ F.quantum :=
  Nat.pow_le_pow_right (by omega) (Nat.sub_le _ _)

/-- A full significand of roundoffs makes one. -/
theorem two_pow_mul_gap (hprec : F.precision ≤ F.quantum) :
    2 ^ F.precision * F.gap = 2 ^ F.quantum := by
  rw [gap, ← pow_add, Nat.add_sub_cancel' hprec]

/-- One roundoff below one there is a number of the format. -/
theorem fits_one_sub_gap (hprec : F.precision ≤ F.quantum) : F.Fits (2 ^ F.quantum - F.gap) := by
  have h : 2 ^ F.quantum - F.gap = (2 ^ F.precision - 1) * F.gap := by
    rw [Nat.sub_mul, two_pow_mul_gap hprec, Nat.one_mul]
  rw [h]
  exact F.fits_mul_two_pow _ (Nat.sub_le _ _)

section Rounding

variable {zero one : Prop} {magnitude both either : ℕ}

/-- Nothing exceeds one. -/
theorem UnitShare.le (h : F.UnitShare zero one magnitude) : magnitude ≤ 2 ^ F.quantum := by
  by_cases hone : one
  · exact (h.eq_one hone).le
  · exact (Nat.le_add_right _ _).trans (h.add_gap_le hone)

/-- Only the one end is zero. -/
theorem UnitShare.eq_zero_iff (h : F.UnitShare zero one magnitude) : magnitude = 0 ↔ zero := by
  refine ⟨fun hm => ?_, h.eq_zero⟩
  by_contra hzero
  exact absurd ((h.gap_le hzero).trans_eq hm) (Nat.not_le.mpr (Nat.two_pow_pos _))

/-- Only the other end is one. -/
theorem UnitShare.eq_one_iff (h : F.UnitShare zero one magnitude) :
    magnitude = 2 ^ F.quantum ↔ one := by
  refine ⟨fun hm => ?_, h.eq_one⟩
  by_contra hone
  have hroom := h.add_gap_le hone
  have hgap : 0 < F.gap := Nat.two_pow_pos _
  omega

/-- A rounded quotient of two counts keeps its distance from both ends. -/
theorem unitShare_roundMagnitude (hprec : F.precision ≤ F.quantum) (hle : both ≤ either)
    (hpos : 0 < either) (hcount : either ≤ 2 ^ F.precision) :
    F.UnitShare (both = 0) (both = either) (F.roundMagnitude (both * 2 ^ F.quantum) either) where
  eq_zero h := by rw [h, Nat.zero_mul, F.roundMagnitude_zero hpos]
  eq_one h := by
    have hround := F.roundMagnitude_mul_right (2 ^ F.quantum) 1 hpos
    rw [Nat.one_mul] at hround
    rw [h, Nat.mul_comm, hround, F.roundMagnitude_of_fits (F.fits_two_pow _)]
  gap_le h := by
    refine (F.fits_two_pow _).le_roundMagnitude hpos ?_
    calc F.gap * either ≤ F.gap * 2 ^ F.precision := Nat.mul_le_mul_left _ hcount
      _ = 2 ^ F.quantum := by rw [Nat.mul_comm, two_pow_mul_gap hprec]
      _ ≤ both * 2 ^ F.quantum := Nat.le_mul_of_pos_left _ (Nat.pos_of_ne_zero h)
  add_gap_le h := by
    have hgap := F.gap_le_one
    have hstep : F.gap * either ≤ 2 ^ F.quantum := by
      rw [← two_pow_mul_gap hprec, Nat.mul_comm]
      exact Nat.mul_le_mul_right _ hcount
    -- the counts differ by one at least, which is at least one roundoff of the larger
    have hnext : (both + 1) * 2 ^ F.quantum ≤ either * 2 ^ F.quantum :=
      Nat.mul_le_mul_right _ (by omega)
    have hbelow : both * 2 ^ F.quantum ≤ (2 ^ F.quantum - F.gap) * either := by
      rw [Nat.add_mul, Nat.one_mul] at hnext
      rw [Nat.sub_mul, Nat.mul_comm _ either]
      omega
    have hround := (fits_one_sub_gap hprec).roundMagnitude_le hpos hbelow
    omega

/-- The difference from one exchanges the ends and keeps its distance from both. -/
theorem UnitShare.one_sub (hprec : F.precision ≤ F.quantum)
    (h : F.UnitShare zero one magnitude) :
    F.UnitShare one zero (F.roundMagnitude (2 ^ F.quantum - magnitude) 1) where
  eq_zero hone := by rw [h.eq_one hone, Nat.sub_self, F.roundMagnitude_zero Nat.one_pos]
  eq_one hzero := by
    rw [h.eq_zero hzero, Nat.sub_zero, F.roundMagnitude_of_fits (F.fits_two_pow _)]
  gap_le hone := by
    have hroom := h.add_gap_le hone
    exact (F.fits_two_pow _).le_roundMagnitude Nat.one_pos (by rw [← gap]; omega)
  add_gap_le hzero := by
    have hroom := h.gap_le hzero
    have hgap := F.gap_le_one
    have hbelow : 2 ^ F.quantum - magnitude ≤ (2 ^ F.quantum - F.gap) * 1 := by omega
    have hround := (fits_one_sub_gap hprec).roundMagnitude_le Nat.one_pos hbelow
    omega

end Rounding

end Format

namespace Binary

variable {F : Format} {zero one : Prop} {magnitude : ℕ}

/-- A number of that magnitude, without a minus sign, lies between zero and one and
is an end exactly as the magnitude says. -/
theorem exact_of_unitShare (h : F.UnitShare zero one magnitude) (hm : F.Represents magnitude) :
    0 ≤ (finite false magnitude hm).exact ∧ (finite false magnitude hm).exact ≤ 1 ∧
      ((finite false magnitude hm).exact = 0 ↔ zero) ∧
      ((finite false magnitude hm).exact = 1 ↔ one) := by
  have hq : (0 : ℚ) < 2 ^ F.quantum := by positivity
  have hle : (magnitude : ℚ) ≤ 2 ^ F.quantum := by exact_mod_cast h.le
  rw [exact_finite_false, div_le_one hq, div_eq_zero_iff, or_iff_left hq.ne', div_eq_one_iff_eq hq.ne',
    Nat.cast_eq_zero, h.eq_zero_iff]
  refine ⟨by positivity, hle, Iff.rfl, ?_⟩
  rw [← h.eq_one_iff]
  exact_mod_cast Iff.rfl

/-- One is a magnitude of the format. -/
theorem two_pow_quantum_lt (hcap : F.precision + F.quantum < F.capacity) :
    2 ^ F.quantum < 2 ^ F.capacity :=
  Nat.pow_lt_pow_right (by omega) (by omega)

/-- Two counts that fit a significand have a quotient away from both ends. -/
theorem exists_div_ofNat (hprec : F.precision ≤ F.quantum)
    (hcap : F.precision + F.quantum < F.capacity) {both either : ℕ} (hle : both ≤ either)
    (hpos : 0 < either) (hcount : either ≤ 2 ^ F.precision) :
    ∃ m hm, (ofNat both / ofNat either : Binary F) = finite false m hm ∧
      F.UnitShare (both = 0) (both = either) m := by
  obtain ⟨hb, hboth⟩ := ofNat_of_le hcap (hle.trans hcount)
  obtain ⟨he, heither⟩ := ofNat_of_le hcap hcount
  have hshare := Format.unitShare_roundMagnitude hprec hle hpos hcount
  have hne : either * 2 ^ F.quantum ≠ 0 := (Nat.mul_pos hpos (Nat.two_pow_pos _)).ne'
  have hdiv : (ofNat both / ofNat either : Binary F) =
      ofRatio false (both * 2 ^ F.quantum) either := by
    rw [hboth, heither]
    change div _ _ = _
    simp only [div, if_neg hne, bne_self_eq_false]
    exact ofRatio_mul_right false _ _ (Nat.two_pow_pos _)
  have hlt := hshare.le.trans_lt (two_pow_quantum_lt hcap)
  exact ⟨_, _, hdiv.trans (ofRatio_of_lt false hlt), hshare⟩

/-- The difference from one of a number between zero and one. -/
theorem exists_one_sub (hprec : F.precision ≤ F.quantum)
    (hcap : F.precision + F.quantum < F.capacity) (h : F.UnitShare zero one magnitude)
    (hm : F.Represents magnitude) :
    ∃ n hn, (ofNat 1 - finite false magnitude hm : Binary F) = finite false n hn ∧
      F.UnitShare one zero n := by
  obtain ⟨h1, hone⟩ := ofNat_of_le hcap Nat.one_le_two_pow
  obtain ⟨u, hu, hsign, hadd⟩ := exists_finite_add false true h1 hm
  have htotal : signed false (1 * 2 ^ F.quantum) + signed true magnitude =
      ((2 ^ F.quantum - magnitude : ℕ) : ℤ) := by
    rw [Nat.cast_sub h.le, Nat.one_mul]
    simp only [signed, Bool.false_eq_true, if_false, if_true]
    exact (sub_eq_add_neg _ _).symm
  rw [htotal, Int.natAbs_natCast] at hadd hu
  rw [htotal] at hsign
  -- an exact zero is positive here, and any other difference is
  obtain rfl : u = false := by
    by_contra hneg
    rw [Bool.not_eq_false] at hneg
    rw [hneg, signed, if_pos rfl] at hu
    exact absurd (hneg.symm.trans (hsign (by omega))) (by decide)
  have hshare := h.one_sub hprec
  have hlt := hshare.le.trans_lt (two_pow_quantum_lt hcap)
  refine ⟨_, represents_roundMagnitude hlt, ?_, hshare⟩
  rw [hone]
  exact hadd.trans (ofRatio_of_lt false hlt)

end Binary

namespace BitKernels

/-- Counts of four rules add up alike if the rules do on every element. -/
theorem countP_add_countP {α : Type*} {f g h k : α → Bool} (l : List α)
    (hrule : ∀ i ∈ l, (f i).toNat + (g i).toNat = (h i).toNat + (k i).toNat) :
    l.countP f + l.countP g = l.countP h + l.countP k := by
  induction l with
  | nil => rfl
  | cons i l ih =>
    obtain ⟨hi, hrest⟩ := List.forall_mem_cons.mp hrule
    have hstep (p : α → Bool) : (i :: l).countP p = l.countP p + (p i).toNat := by
      rw [List.countP_cons]
      cases p i <;> rfl
    rw [hstep, hstep, hstep, hstep]
    have := ih hrest
    omega

/-- Positions set in either buffer are set in both or differ. -/
theorem countBits_or (a b : List UInt8) :
    countBits (· || ·) a b = countBits (· && ·) a b + countBits (· ^^ ·) a b := by
  have hrule : ∀ i ∈ List.range (8 * a.length), (bitAt a i || bitAt b i).toNat + false.toNat =
      (bitAt a i && bitAt b i).toNat + (bitAt a i ^^ bitAt b i).toNat := by
    intro i _
    cases bitAt a i <;> cases bitAt b i <;> rfl
  have hcount := countP_add_countP _ hrule
  rwa [List.countP_false, Function.const_apply, Nat.add_zero] at hcount

namespace OverlapCounts

/-- The distance behind two counts that fit a significand. -/
theorem exists_distance {counts : OverlapCounts} (hle : counts.both.toNat ≤ counts.either.toNat)
    (hcount : counts.either.toNat ≤ 2 ^ 53) :
    ∃ m hm, counts.distance = .finite false m hm ∧
      Format.double.UnitShare (counts.both.toNat = counts.either.toNat)
        (counts.both.toNat = 0 ∧ 0 < counts.either.toNat) m := by
  have hprec : Format.double.precision ≤ Format.double.quantum := by decide
  have hcap : Format.double.precision + Format.double.quantum < Format.double.capacity := by decide
  unfold distance
  split
  · next hzero =>
    have heither : counts.either.toNat = 0 := by rw [hzero]; rfl
    refine ⟨0, Format.double.represents_zero, rfl, fun _ => rfl, fun h => ?_, fun h => ?_,
      fun _ => ?_⟩
    · omega
    · omega
    · rw [Nat.zero_add]
      exact Format.double.gap_le_one
  · next hne =>
    have hpos : 0 < counts.either.toNat := by
      refine Nat.pos_of_ne_zero fun h => hne ?_
      exact UInt64.toNat_inj.mp h
    obtain ⟨m, hm, hdiv, hshare⟩ := Binary.exists_div_ofNat hprec hcap hle hpos hcount
    obtain ⟨n, hn, hsub, hrest⟩ := Binary.exists_one_sub hprec hcap hshare hm
    rw [hdiv, hsub]
    refine ⟨n, hn, rfl, ?_⟩
    rwa [and_iff_left hpos]

end OverlapCounts

/-- Without seeds the running counts are the numbers of positions. -/
theorem toNat_push_zero {a b : List UInt8} (h : a.length = b.length) (hshort : a.length < 2 ^ 61) :
    (OverlapCounts.push ⟨0, 0⟩ a b).both.toNat = countBits (· && ·) a b ∧
      (OverlapCounts.push ⟨0, 0⟩ a b).either.toNat = countBits (· || ·) a b := by
  have hboth := countBits_le (· && ·) a b
  have heither := countBits_le (· || ·) a b
  rw [OverlapCounts.push, toNat_accumulate bitwise_and h, toNat_accumulate bitwise_or h,
    UInt64.toNat_zero, Nat.zero_add, Nat.zero_add]
  exact ⟨Nat.mod_eq_of_lt (by omega), Nat.mod_eq_of_lt (by omega)⟩

/-- The counts of disjoint buffers, not both of zeros, say so of their bits. -/
theorem countBits_disjoint_iff {a b : List UInt8} :
    countBits (· && ·) a b = 0 ∧ 0 < countBits (· || ·) a b ↔
      (∃ i < 8 * a.length, bitAt a i = true ∨ bitAt b i = true) ∧
        ∀ i < 8 * a.length, ¬(bitAt a i = true ∧ bitAt b i = true) := by
  rw [Nat.pos_iff_ne_zero, Ne, countBits_eq_zero_iff, countBits_eq_zero_iff, and_comm]
  simp only [not_forall, not_not, Bool.or_eq_true, exists_prop,
    ← Bool.not_eq_true, Bool.and_eq_true]

/-- The order of the buffers is immaterial. -/
theorem jaccard_comm {a b : List UInt8} (h : a.length = b.length) (seed : UInt64) :
    jaccard a b seed = jaccard b a seed := by
  rw [jaccard, jaccard, OverlapCounts.push, OverlapCounts.push, accumulate_eq bitwise_and h,
    accumulate_eq bitwise_or h, accumulate_eq bitwise_and h.symm, accumulate_eq bitwise_or h.symm,
    countBits_comm Bool.and_comm h, countBits_comm Bool.or_comm h]

end BitKernels

namespace Registry

open BitKernels

/-- What a Jaccard distance tells about the first `bytes` bytes of two buffers. -/
structure JaccardOutcome (bytes : ℕ) (a b : List UInt8) (d : Double) : Prop where
  /-- It is a number. -/
  isFinite : d.isFinite = true
  /-- It carries no minus sign, also if it is zero. -/
  isNegative : d.isNegative = false
  /-- It is no less than zero. -/
  nonneg : 0 ≤ d.exact
  /-- It is no more than one. -/
  le_one : d.exact ≤ 1
  /-- It is zero exactly for bytes that agree, bytes of zeros included. -/
  eq_zero_iff : d.exact = 0 ↔ a.take bytes = b.take bytes
  /-- It is one exactly if some bit is set, and none in both. -/
  eq_one_iff : d.exact = 1 ↔ (∃ i < 8 * bytes, bitAt a i = true ∨ bitAt b i = true) ∧
    ∀ i < 8 * bytes, ¬(bitAt a i = true ∧ bitAt b i = true)

/-- The Jaccard distance without a seed, on a bound registry and for up to `2 ^ 49`
bytes: it lies between zero and one, both ends mean what they should, and neither
the order of the buffers nor the seeds of the sides change it. -/
theorem exists_jaccardOutcome {r : Registry} (hr : r.isBound = true) {bytes : ℕ}
    (hbytes : bytes ≤ 2 ^ 49) {a b : List UInt8} (ha : bytes ≤ a.length) (hb : bytes ≤ b.length) :
    ∃ d, (∀ seedLeft seedRight, r.jaccardDistance bytes a b 0 seedLeft seedRight = .ok d ∧
        r.jaccardDistance bytes b a 0 seedLeft seedRight = .ok d) ∧
      JaccardOutcome bytes a b d := by
  have hlena : (a.take bytes).length = bytes := List.length_take_of_le ha
  have hlen : (a.take bytes).length = (b.take bytes).length :=
    hlena.trans (List.length_take_of_le hb).symm
  obtain ⟨hboth, heither⟩ := toNat_push_zero hlen (by omega)
  have hsplit := countBits_or (a.take bytes) (b.take bytes)
  have hunion := countBits_le (· || ·) (a.take bytes) (b.take bytes)
  have hle : (OverlapCounts.push ⟨0, 0⟩ (a.take bytes) (b.take bytes)).both.toNat ≤
      (OverlapCounts.push ⟨0, 0⟩ (a.take bytes) (b.take bytes)).either.toNat := by omega
  obtain ⟨m, hm, hdistance, hshare⟩ := OverlapCounts.exists_distance hle (by omega)
  obtain ⟨hnonneg, hone, hzero_iff, hone_iff⟩ := Binary.exact_of_unitShare hshare hm
  refine ⟨_, fun left right => ⟨jaccardDistance_of_isBound hr ha hb 0 left right, ?_⟩, ?_⟩
  · rw [jaccard_comm hlen]
    exact jaccardDistance_of_isBound hr hb ha 0 left right
  · rw [jaccard, hdistance]
    refine ⟨rfl, rfl, hnonneg, hone, hzero_iff.trans ?_, hone_iff.trans ?_⟩
    · rw [hboth, heither, hsplit, left_eq_add, countBits_xor_eq_zero_iff hlen]
    · rw [hboth, heither, countBits_disjoint_iff, hlena]
      have hbits (i : ℕ) (hi : i < 8 * bytes) :
          bitAt (a.take bytes) i = bitAt a i ∧ bitAt (b.take bytes) i = bitAt b i :=
        ⟨bitAt_take ha hi, bitAt_take hb hi⟩
      refine and_congr (exists_congr fun i => and_congr_right fun hi => ?_)
        (forall₂_congr fun i hi => ?_)
      · rw [(hbits i hi).1, (hbits i hi).2]
      · rw [(hbits i hi).1, (hbits i hi).2]

/-- Buffers of different lengths, disjoint in the two bytes that are compared and
not beyond, are as far apart as can be. -/
theorem exists_jaccardOutcome_disjoint :
    ∃ d, (fresh.bind ⟨true, true⟩ .auto).jaccardDistance 2 [0xf0, 0x01] [0x0f, 0x80, 0x01] 0 7 9 =
        .ok d ∧
      (fresh.bind ⟨true, true⟩ .auto).jaccardDistance 2 [0x0f, 0x80, 0x01] [0xf0, 0x01] 0 7 9 =
        .ok d ∧
      JaccardOutcome 2 [0xf0, 0x01] [0x0f, 0x80, 0x01] d ∧ d.exact = 1 := by
  have ha : 2 ≤ ([0xf0, 0x01] : List UInt8).length := by decide
  have hb : 2 ≤ ([0x0f, 0x80, 0x01] : List UInt8).length := by decide
  obtain ⟨d, hanswer, hd⟩ := exists_jaccardOutcome (isBound_bind ⟨true, true⟩ .auto fresh)
    (by decide) ha hb
  exact ⟨d, (hanswer 7 9).1, (hanswer 7 9).2, hd, hd.eq_one_iff.mpr (by decide)⟩

end Registry

end VectorDistance
