import Mathlib
import VectorDistance.HalfVectorRun
import VectorDistance.Proofs.HalfRounding
import VectorDistance.Proofs.RoundingOrder

/-!
# Vectors without subnormal, infinite or undefined elements

A half is regular when it is a zero or a normal number. Encoding a value below
65520 gives a regular half, and every checked operation encodes only values up
to 65504. Scaling to unit length checks nothing: it is regular because the norm,
rounded at every square, at every addition and at the root, is still no smaller
than any element, so that every quotient is at most one. Hence no run of
operations ever makes a vector with any other element.
-/

namespace VectorDistance

namespace Binary

variable {F : Format}

/-- Numbers are ordered as their ranks, and a NaN has none. -/
theorem le_iff_rank {x y : Binary F} :
    x.le y = true ↔ ∃ i j, x.rank = some i ∧ y.rank = some j ∧ i ≤ j := by
  unfold le lt compare?
  cases x.rank with
  | none => simp
  | some i =>
    cases y.rank with
    | none => simp
    | some j =>
      simp only [Bool.or_eq_true, beq_iff_eq, Option.some.injEq, compare_lt_iff_lt,
        compare_eq_iff_eq, exists_and_left, exists_eq_left']
      exact le_iff_lt_or_eq.symm

/-- Finite numbers are ordered as their values. -/
theorem le_iff_exact {x y : Binary F} (hx : x.isFinite = true) (hy : y.isFinite = true) :
    x.le y = true ↔ x.exact ≤ y.exact := by
  obtain ⟨s, m, hm, rfl⟩ := exists_of_isFinite hx
  obtain ⟨t, n, hn, rfl⟩ := exists_of_isFinite hy
  have hq : (0 : ℚ) < 2 ^ F.quantum := by positivity
  rw [exact_finite, exact_finite, div_le_div_iff_of_pos_right hq, Int.cast_le, le_iff_rank]
  constructor
  · rintro ⟨i, j, hi, hj, hij⟩
    rwa [← Option.some.inj hi, ← Option.some.inj hj] at hij
  · intro h
    exact ⟨_, _, rfl, rfl, h⟩

end Binary

namespace Half

/-- Is this a zero or a normal number? -/
def IsRegular (h : Half) : Prop := h.isFinite = true ∧ h.isSubnormal = false

/-- Normal numbers are regular. -/
theorem isRegular_of_isNormal {h : Half} (hn : h.isNormal = true) : h.IsRegular := by
  have he := isNormal_iff.mp hn
  constructor
  · rw [isFinite, bne_iff_ne]
    omega
  · rw [isSubnormal, Bool.and_eq_false_iff, beq_eq_false_iff_ne]
    exact Or.inl (by omega)

/-- Zeros of both signs are regular. -/
theorem isRegular_zero (s : Bool) : (zero.withSign s).IsRegular := by
  cases s with
  | false => exact ⟨rfl, rfl⟩
  | true => exact ⟨rfl, rfl⟩

/-- A finite value below the overflow threshold is encoded as a regular half. -/
theorem isRegular_encode {x : Single} (hx : x.isFinite = true) (h : |x.exact| < 65520) :
    (encode x).IsRegular := by
  have hrule := encodesAs_encode x
  generalize encode x = k at hrule ⊢
  cases hrule with
  | nan hn =>
    obtain ⟨s, m, hm, rfl⟩ := Binary.exists_of_isFinite hx
    cases hn
  | infinite s hs => rw [hs] at hx; cases hx
  | overflow _ hlarge => exact absurd h (not_lt.mpr hlarge)
  | flush => exact isRegular_zero _
  | nearest _ _ _ _ hn => exact isRegular_of_isNormal hn.normal

/-- The largest half is 65504. -/
theorem exact_largest : largest.decode.exact = 65504 := by
  obtain ⟨hm, hd⟩ := decode_of_isNormal (h := largest) rfl
  have hmag : largest.normalMagnitude = 2047 * 2 ^ 154 := rfl
  have hsign : largest.isNegative = false := by decide
  have hq : Format.single.quantum = 149 := rfl
  rw [hd, Binary.exact_finite, hsign, hmag, hq]
  norm_num [Binary.signed]

/-- A value is in range when it is finite and its size at most 65504. -/
theorem inRange_iff {x : Single} : inRange x = true ↔ x.isFinite = true ∧ |x.exact| ≤ 65504 := by
  rw [inRange, Bool.and_eq_true]
  refine and_congr_right fun hx => ?_
  rw [Binary.le_iff_exact (by rw [Binary.isFinite_abs]; exact hx) rfl, Binary.exact_abs,
    exact_largest]

/-- What is encoded in range is regular. -/
theorem isRegular_of_inRange {x : Single} (h : inRange x = true) : (encode x).IsRegular := by
  obtain ⟨hx, hle⟩ := inRange_iff.mp h
  exact isRegular_encode hx (hle.trans_lt (by norm_num))

/-- A number up to one is encoded as a regular half. -/
theorem isRegular_encode_of_le_one {s : Bool} {m : ℕ} {hm : Format.single.Represents m}
    (h : m ≤ 2 ^ Format.single.quantum) : (encode (.finite s m hm)).IsRegular := by
  refine isRegular_encode rfl ?_
  rw [Binary.abs_exact_finite]
  have hle : (m : ℚ) / 2 ^ Format.single.quantum ≤ 1 := by
    rw [div_le_one (by positivity)]
    exact_mod_cast h
  linarith

end Half

namespace HalfVector

open Binary

/-- A vector of zeros and normal numbers. -/
def IsRegular (v : HalfVector) : Prop := ∀ h ∈ v, h.IsRegular

/-- The first value is encoded before the others. -/
theorem ofSingles_cons (x : Single) (values : List Single) :
    ofSingles (x :: values) =
      (Half.checkedEncode x).bind fun h => (ofSingles values).bind fun t => .ok (h :: t) := by
  unfold ofSingles
  rw [List.mapM_cons]
  rfl

/-- Values are encoded exactly when all of them are in range, one by one. -/
theorem ofSingles_eq_ok_iff {values : List Single} {v : HalfVector} :
    ofSingles values = .ok v ↔
      (∀ x ∈ values, Half.inRange x = true) ∧ v = values.map Half.encode := by
  induction values generalizing v with
  | nil =>
    have hnil : ofSingles [] = .ok [] := rfl
    rw [hnil, List.map_nil, Except.ok.injEq]
    exact ⟨fun h => ⟨fun _ hx => absurd hx List.not_mem_nil, h.symm⟩, fun h => h.2.symm⟩
  | cons x values ih =>
    rw [ofSingles_cons, Half.checkedEncode, List.forall_mem_cons, List.map_cons]
    by_cases hx : Half.inRange x = true
    · rw [if_pos hx]
      simp only [Except.bind, hx, true_and]
      cases ht : ofSingles values with
      | error f =>
        have hne : ¬∀ y ∈ values, Half.inRange y = true := fun h => by
          rw [ih.mpr ⟨h, rfl⟩] at ht
          cases ht
        simp only [reduceCtorEq, hne, false_and]
      | ok t =>
        obtain ⟨hall, rfl⟩ := ih.mp ht
        rw [Except.ok.injEq, and_iff_right hall]
        exact eq_comm
    · rw [if_neg hx]
      simp only [Except.bind, reduceCtorEq, hx, false_and, Bool.false_eq_true]

/-- Whatever is encoded value by value is regular. -/
theorem isRegular_of_ofSingles {values : List Single} {v : HalfVector}
    (h : ofSingles values = .ok v) : IsRegular v := by
  obtain ⟨hrange, rfl⟩ := ofSingles_eq_ok_iff.mp h
  intro e he
  obtain ⟨x, hx, rfl⟩ := List.mem_map.mp he
  exact Half.isRegular_of_inRange (hrange x hx)

/-- Elementwise combinations are regular. -/
theorem isRegular_of_combine {op : Single → Single → Single} {a b v : HalfVector}
    (h : combine op a b = .ok v) : IsRegular v := by
  unfold combine at h
  cases hd : commonDimension a b with
  | error f => rw [hd] at h; cases h
  | ok dimension => rw [hd] at h; exact isRegular_of_ofSingles h

/-! ## Scaling to unit length -/

/-- The square of a finite half, which is exact, bounds the sum of squares. -/
theorem atLeast_squaredNorm {values : HalfVector} (hv : ∀ h ∈ values, h.isFinite = true)
    {h : Half} (hh : h ∈ values) {s : Bool} {m : ℕ} {hm : Format.single.Represents (m * 2 ^ 125)}
    (hd : h.decode = .finite s (m * 2 ^ 125) hm) (hr : Format.half.Represents m) :
    AtLeast (m * m * 2 ^ 101) (squaredNorm values) := by
  have hterms : ∀ x ∈ values.map fun h => h.decode.square, AtLeast 0 x := by
    intro x hx
    obtain ⟨g, hg, rfl⟩ := List.mem_map.mp hx
    obtain ⟨t, n, hn, hgd, -⟩ := Half.exists_decode_of_isFinite (hv g hg)
    rw [hgd]
    exact atLeast_square hn Format.single.represents_zero.1 (by rw [Nat.zero_mul]; exact Nat.zero_le _)
  refine AtLeast.foldl_negZero hterms (List.mem_map_of_mem hh) ?_
  rw [hd]
  have hfits : Format.single.Fits (m * m * 2 ^ 101) := by
    obtain ⟨a, i, ha, rfl⟩ := hr.1
    refine ⟨a * a, i + i + 101, (Nat.mul_lt_mul'' ha ha).trans_le (by decide), ?_⟩
    rw [pow_add, pow_add]
    ring
  refine atLeast_square hm hfits (le_of_eq ?_)
  have hq : Format.single.quantum = 149 := rfl
  rw [hq]
  ring

/-- No element is larger than the norm. -/
theorem atLeast_norm {values : HalfVector} (hv : ∀ h ∈ values, h.isFinite = true)
    {h : Half} (hh : h ∈ values) {s : Bool} {m : ℕ} {hm : Format.single.Represents (m * 2 ^ 125)}
    (hd : h.decode = .finite s (m * 2 ^ 125) hm) (hr : Format.half.Represents m) :
    AtLeast (m * 2 ^ 125 * 2 ^ (Format.double.quantum - Format.single.quantum)) (norm values) := by
  have hsum := (atLeast_squaredNorm hv hh hd hr).widen Format.single_embedsIn_double
  have hfits := (Format.single_embedsIn_double.represents hm).1
  refine hsum.sqrt hfits (le_of_eq ?_)
  have hq : Format.double.quantum - Format.single.quantum = 925 := rfl
  have hpow : 2 ^ 125 * 2 ^ 925 * (2 ^ 125 * 2 ^ 925) = 2 ^ 101 * 2 ^ 925 * 2 ^ 1074 := by
    simp only [← pow_add]
  rw [hq, Format.quantum_double]
  calc m * 2 ^ 125 * 2 ^ 925 * (m * 2 ^ 125 * 2 ^ 925)
      = m * m * (2 ^ 125 * 2 ^ 925 * (2 ^ 125 * 2 ^ 925)) := by
        generalize 2 ^ 125 = c
        generalize 2 ^ 925 = d
        ring
    _ = m * m * (2 ^ 101 * 2 ^ 925 * 2 ^ 1074) := by rw [hpow]
    _ = m * m * 2 ^ 101 * 2 ^ 925 * 2 ^ 1074 := by
        simp only [Nat.mul_assoc]

/-- An element divided by a norm that is not zero is encoded as a regular half. -/
theorem isRegular_scaleElement {values : HalfVector} (hv : ∀ h ∈ values, h.isFinite = true)
    (hnorm : (norm values).isZero = false) {h : Half} (hh : h ∈ values) :
    (scaleElement (norm values) h).IsRegular := by
  obtain ⟨s, m, hm, hd, hr⟩ := Half.exists_decode_of_isFinite (hv h hh)
  have hle := atLeast_norm hv hh hd hr
  have hwide : h.decode.toDouble =
      .finite s (m * 2 ^ 125 * 2 ^ (Format.double.quantum - Format.single.quantum))
        (Format.single_embedsIn_double.represents hm) := by
    rw [hd]
    rfl
  obtain ⟨q, hq, hdiv, hq1⟩ := @exists_div_of_atLeast _ s _
    (Format.single_embedsIn_double.represents hm) _ (by decide) hle hnorm
  obtain ⟨r, hr, hconv, hr1⟩ := exists_convert_of_le_one (G := Format.single) (by decide) hq1
  rw [scaleElement, hwide, hdiv, hconv]
  exact Half.isRegular_encode_of_le_one hr1

/-- A vector scaled to unit length is regular. -/
theorem isRegular_of_normalize {values v : HalfVector} (hv : ∀ h ∈ values, h.isFinite = true)
    (h : normalize values = .ok v) : IsRegular v := by
  unfold normalize at h
  dsimp only at h
  split at h
  · cases h
  · next hnorm =>
    cases h
    intro e he
    obtain ⟨x, hx, rfl⟩ := List.mem_map.mp he
    exact isRegular_scaleElement hv (Bool.eq_false_of_not_eq_true hnorm) hx

/-! ## Shape -/

/-- Joined regular vectors are regular. -/
theorem isRegular_of_concat {a b v : HalfVector} (ha : IsRegular a) (hb : IsRegular b)
    (h : concat a b = .ok v) : IsRegular v := by
  obtain ⟨-, rfl⟩ := concat_eq_ok_iff.mp h
  exact List.forall_mem_append.mpr ⟨ha, hb⟩

/-- A part of a regular vector is regular. -/
theorem isRegular_of_subvector {a v : HalfVector} {start stop : ℕ} (ha : IsRegular a)
    (h : subvector a start stop = .ok v) : IsRegular v := by
  obtain ⟨-, rfl⟩ := subvector_eq_ok_iff.mp h
  exact fun e he => ha e (List.mem_of_mem_drop (List.mem_of_mem_take he))

/-- A quantized vector holds ones of both signs. -/
theorem isRegular_quantize (a : HalfVector) : IsRegular (quantize a) := by
  intro e he
  obtain ⟨x, -, rfl⟩ := List.mem_map.mp he
  split
  · exact ⟨rfl, rfl⟩
  · exact ⟨rfl, rfl⟩

/-! ## Runs -/

namespace Operation

/-- An operation with an operand works on one of the vectors made before. -/
theorem exists_operand {α : Type} {made : List HalfVector} {i : ℕ} {rest : HalfVector → Option α}
    {result : α} (h : made[i]?.bind rest = some result) : ∃ a ∈ made, rest a = some result := by
  obtain ⟨a, ha, hrest⟩ := Option.bind_eq_some_iff.mp h
  exact ⟨a, List.mem_of_getElem? ha, hrest⟩

/-- Whatever an operation makes of regular vectors is regular. -/
theorem isRegular_of_outcome {made : List HalfVector} (hmade : ∀ v ∈ made, IsRegular v)
    {operation : Operation} {v : HalfVector} (h : operation.outcome made = some (.ok v)) :
    IsRegular v := by
  cases operation with
  | encode values => exact isRegular_of_ofSingles (Option.some.inj h)
  | add left right =>
    obtain ⟨a, -, h⟩ := exists_operand h
    obtain ⟨b, -, h⟩ := exists_operand h
    exact isRegular_of_combine (Option.some.inj h)
  | sub left right =>
    obtain ⟨a, -, h⟩ := exists_operand h
    obtain ⟨b, -, h⟩ := exists_operand h
    exact isRegular_of_combine (Option.some.inj h)
  | scale operand factor =>
    obtain ⟨a, -, h⟩ := exists_operand h
    exact isRegular_of_ofSingles (Option.some.inj h)
  | normalize operand =>
    obtain ⟨a, ha, h⟩ := exists_operand h
    exact isRegular_of_normalize (fun e he => (hmade a ha e he).1) (Option.some.inj h)
  | concat left right =>
    obtain ⟨a, ha, h⟩ := exists_operand h
    obtain ⟨b, hb, h⟩ := exists_operand h
    exact isRegular_of_concat (hmade a ha) (hmade b hb) (Option.some.inj h)
  | subvector operand start stop =>
    obtain ⟨a, ha, h⟩ := exists_operand h
    exact isRegular_of_subvector (hmade a ha) (Option.some.inj h)
  | quantize operand =>
    obtain ⟨a, -, h⟩ := exists_operand h
    rw [← Except.ok.inj (Option.some.inj h)]
    exact isRegular_quantize a

/-- One operation keeps all vectors made so far regular. -/
theorem isRegular_of_mem_step {made : List HalfVector} (hmade : ∀ v ∈ made, IsRegular v)
    (operation : Operation) : ∀ v ∈ step made operation, IsRegular v := by
  unfold step
  split
  · next w hw =>
    intro v hv
    rcases List.mem_append.mp hv with hv | hv
    · exact hmade v hv
    · rw [List.mem_singleton.mp hv]
      exact isRegular_of_outcome hmade hw
  · exact hmade

/-- Operations keep all vectors regular. -/
theorem isRegular_of_mem_foldl {made : List HalfVector} (hmade : ∀ v ∈ made, IsRegular v)
    (operations : List Operation) : ∀ v ∈ operations.foldl step made, IsRegular v := by
  induction operations generalizing made with
  | nil => exact hmade
  | cons operation rest ih => exact ih (isRegular_of_mem_step hmade operation)

/-- No run of operations, whatever values and factors it is given, ever makes a
vector with an element that is infinite, a NaN or subnormal. -/
theorem elements_of_run (operations : List Operation) :
    ∀ v ∈ run operations, ∀ h ∈ v, h.isFinite = true ∧ h.isSubnormal = false :=
  isRegular_of_mem_foldl (fun _ hv => absurd hv List.not_mem_nil) operations

/-- A run that refuses a NaN, scales `3, 4, 2 ^ -24` to unit length and then
multiplies by `1 / 10000`, which takes one element just below the least normal half. -/
theorem elements_of_run_scaled :
    [⟨0⟩, ⟨1342⟩, ⟨0⟩] ∈ run
        [.encode [.ofBits32 0x40400000, .ofBits32 0x40800000, .ofBits32 0x33800000],
          .encode [.ofBits32 0x7fc00000], .normalize 0, .scale 1 (.ofBits32 0x38d1b717)] ∧
      (⟨1342⟩ : Half).isFinite = true ∧ (⟨1342⟩ : Half).isSubnormal = false := by
  have hmem : [⟨0⟩, ⟨1342⟩, ⟨0⟩] ∈ run
      [.encode [.ofBits32 0x40400000, .ofBits32 0x40800000, .ofBits32 0x33800000],
        .encode [.ofBits32 0x7fc00000], .normalize 0, .scale 1 (.ofBits32 0x38d1b717)] := by
    decide +kernel
  exact ⟨hmem, elements_of_run _ _ hmem _ (by decide)⟩

end Operation

end HalfVector

end VectorDistance
