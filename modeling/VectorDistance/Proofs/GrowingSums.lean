import Mathlib
import VectorDistance.Proofs.NormRange
import VectorDistance.Proofs.RoundingMonotone

/-!
# Sums that only grow

Rounding keeps the order of exact sums, and numbers of the format are not moved by it.
So a running sum is no smaller for a larger start, and a term without a minus sign
never takes it below what it was: the sum over a stretch of such terms is no more than
the sum over all of them, although both round at every step and round differently.
Roots keep the order too. Hence no part of a vector has a larger norm than the whole,
and distances do not fall when more elements are read.
-/

namespace VectorDistance

namespace Format

variable (F : Format)

/-- A whole number of quanta, its size rounded to the precision under its sign. -/
def roundQuanta (total : ℤ) : ℤ :=
  Binary.signed (decide (total < 0)) (F.roundMagnitude total.natAbs 1)

/-- The sign of a number passes through its rounding, that of zero too. -/
theorem roundQuanta_signed (s : Bool) (n : ℕ) :
    F.roundQuanta (Binary.signed s n) = Binary.signed s (F.roundMagnitude n 1) := by
  rw [roundQuanta, Binary.natAbs_signed]
  rcases Nat.eq_zero_or_pos n with rfl | hn
  · rw [F.roundMagnitude_zero Nat.one_pos, Binary.signed_zero, Binary.signed_zero]
  · rw [Binary.decide_signed_neg s hn.ne']

/-- A larger number of quanta is not rounded to a smaller one. -/
theorem roundQuanta_mono {i j : ℤ} (h : i ≤ j) : F.roundQuanta i ≤ F.roundQuanta j := by
  obtain ⟨s, m, rfl⟩ := Binary.exists_signed i
  obtain ⟨t, n, rfl⟩ := Binary.exists_signed j
  rw [roundQuanta_signed, roundQuanta_signed]
  exact Binary.signed_map_mono (fun _ _ => F.roundMagnitude_mono 1)
    (F.roundMagnitude_zero Nat.one_pos) h

end Format

/-- The quarters of a root are no more than those of the root of a larger number. -/
theorem Binary.rootQuarters_mono {m n : ℕ} (h : m ≤ n) : rootQuarters m ≤ rootQuarters n := by
  by_contra hlt
  -- an even number between the two would be the doubled root of both
  obtain ⟨i, hi, hi'⟩ : ∃ i, rootQuarters n ≤ 2 * i ∧ 2 * i ≤ rootQuarters m :=
    ⟨(rootQuarters n + 1) / 2, by omega, by omega⟩
  rw [rootQuarters_le_two_mul_iff] at hi
  rw [two_mul_le_rootQuarters_iff] at hi'
  obtain rfl : m = n := by omega
  exact hlt le_rfl

namespace Binary

variable {F : Format}

/-! ## Values in quanta -/

/-- The value of a number is its quanta by the quantum. -/
theorem exact_of_quanta {x : Binary F} {i : ℤ} (h : x.quanta = some i) :
    x.exact = i / 2 ^ F.quantum := by
  rw [exact, h, Option.getD_some]

/-- Finite numbers have quanta. -/
theorem exists_quanta {x : Binary F} (h : x.isFinite = true) : ∃ i, x.quanta = some i := by
  obtain ⟨s, m, hm, rfl⟩ := exists_of_isFinite h
  exact ⟨_, rfl⟩

/-- Only finite numbers have. -/
theorem isFinite_of_quanta {x : Binary F} {i : ℤ} (h : x.quanta = some i) :
    x.isFinite = true := by
  cases x with
  | nan => cases h
  | infinite => cases h
  | finite => rfl

/-- Values are ordered as their quanta. -/
theorem exact_le_exact_iff {x y : Binary F} {i j : ℤ} (hx : x.quanta = some i)
    (hy : y.quanta = some j) : x.exact ≤ y.exact ↔ i ≤ j := by
  have hq : (0 : ℚ) < 2 ^ F.quantum := by positivity
  rw [exact_of_quanta hx, exact_of_quanta hy, div_le_div_iff_of_pos_right hq, Int.cast_le]

/-- The quanta of a number are rounded to themselves. -/
theorem roundQuanta_of_quanta {x : Binary F} {i : ℤ} (h : x.quanta = some i) :
    F.roundQuanta i = i := by
  cases x with
  | nan => cases h
  | infinite => cases h
  | finite s m hm =>
    obtain rfl : signed s m = i := Option.some.inj h
    rw [F.roundQuanta_signed, F.roundMagnitude_of_fits hm.1]

/-- A sum that does not overflow has the rounded sum of the quanta. -/
theorem quanta_add {x y : Binary F} {i j : ℤ} (hx : x.quanta = some i) (hy : y.quanta = some j)
    (h : (x + y).isFinite = true) : (x + y).quanta = some (F.roundQuanta (i + j)) := by
  obtain ⟨hxf, hyf⟩ := isFinite_of_add h
  obtain ⟨s, m, hm, rfl⟩ := exists_of_isFinite hxf
  obtain ⟨t, n, hn, rfl⟩ := exists_of_isFinite hyf
  obtain rfl : signed s m = i := Option.some.inj hx
  obtain rfl : signed t n = j := Option.some.inj hy
  obtain ⟨u, htotal, -, hadd⟩ := exists_finite_add s t hm hn
  rw [hadd] at h ⊢
  rw [← htotal, natAbs_signed, F.roundQuanta_signed]
  exact quanta_ofRatio h

/-- What carries no minus sign is no less than zero. -/
theorem exact_nonneg {x : Binary F} (h : x.isNegative = false) : 0 ≤ x.exact := by
  cases x with
  | nan => simp [exact, quanta]
  | infinite => simp [exact, quanta]
  | finite s m hm =>
    obtain rfl : s = false := h
    rw [exact_finite_false]
    positivity

/-! ## Running sums -/

/-- A larger number plus the same one is no smaller. -/
theorem exact_add_mono {x y t : Binary F} (hx : (x + t).isFinite = true)
    (hy : (y + t).isFinite = true) (h : x.exact ≤ y.exact) : (x + t).exact ≤ (y + t).exact := by
  obtain ⟨i, hi⟩ := exists_quanta (isFinite_of_add hx).1
  obtain ⟨j, hj⟩ := exists_quanta (isFinite_of_add hy).1
  obtain ⟨k, hk⟩ := exists_quanta (isFinite_of_add hx).2
  rw [exact_le_exact_iff hi hj] at h
  rw [exact_le_exact_iff (quanta_add hi hk hx) (quanta_add hj hk hy)]
  exact F.roundQuanta_mono (by omega)

/-- A number is no larger than its sum with one that is not negative. -/
theorem exact_le_add {x t : Binary F} (h : (x + t).isFinite = true) (ht : 0 ≤ t.exact) :
    x.exact ≤ (x + t).exact := by
  obtain ⟨i, hi⟩ := exists_quanta (isFinite_of_add h).1
  obtain ⟨k, hk⟩ := exists_quanta (isFinite_of_add h).2
  have hk0 : 0 ≤ k := by
    rw [← exact_zero false] at ht
    exact (exact_le_exact_iff (i := 0) rfl hk).mp ht
  rw [exact_le_exact_iff hi (quanta_add hi hk h)]
  calc i = F.roundQuanta i := (roundQuanta_of_quanta hi).symm
    _ ≤ F.roundQuanta (i + k) := F.roundQuanta_mono (by omega)

/-- A running sum is finite only from a finite start. -/
theorem isFinite_start_of_foldl_add {start : Binary F} (terms : List (Binary F))
    (h : (terms.foldl (· + ·) start).isFinite = true) : start.isFinite = true := by
  induction terms generalizing start with
  | nil => exact h
  | cons t terms ih => exact (isFinite_of_add (ih h)).1

/-- A running sum is no smaller for a larger start. -/
theorem foldl_add_mono {x y : Binary F} {terms : List (Binary F)}
    (hx : (terms.foldl (· + ·) x).isFinite = true) (hy : (terms.foldl (· + ·) y).isFinite = true)
    (h : x.exact ≤ y.exact) :
    (terms.foldl (· + ·) x).exact ≤ (terms.foldl (· + ·) y).exact := by
  induction terms generalizing x y with
  | nil => exact h
  | cons t terms ih =>
    have hstep := exact_add_mono (isFinite_start_of_foldl_add terms hx)
      (isFinite_start_of_foldl_add terms hy) h
    exact ih hx hy hstep

/-- Terms that are not negative never take a running sum below its start. -/
theorem exact_le_foldl_add {start : Binary F} {terms : List (Binary F)}
    (hterms : ∀ t ∈ terms, 0 ≤ t.exact) (h : (terms.foldl (· + ·) start).isFinite = true) :
    start.exact ≤ (terms.foldl (· + ·) start).exact := by
  induction terms generalizing start with
  | nil => exact le_rfl
  | cons t terms ih =>
    obtain ⟨ht, hrest⟩ := List.forall_mem_cons.mp hterms
    calc start.exact ≤ (start + t).exact :=
          exact_le_add (isFinite_start_of_foldl_add terms h) ht
      _ ≤ (terms.foldl (· + ·) (start + t)).exact := ih hrest h

/-- The sum over a stretch of terms that are not negative is no larger than the sum over
all of them. -/
theorem foldl_add_le_of_stretch {start : Binary F} {part terms : List (Binary F)}
    (hstretch : part <:+: terms) (hterms : ∀ t ∈ terms, 0 ≤ t.exact)
    (hpart : (part.foldl (· + ·) start).isFinite = true)
    (hall : (terms.foldl (· + ·) start).isFinite = true) :
    (part.foldl (· + ·) start).exact ≤ (terms.foldl (· + ·) start).exact := by
  obtain ⟨front, back, rfl⟩ := hstretch
  rw [List.forall_mem_append, List.forall_mem_append] at hterms
  obtain ⟨⟨hfront, -⟩, hback⟩ := hterms
  rw [List.foldl_append, List.foldl_append] at hall ⊢
  have hthrough := isFinite_start_of_foldl_add back hall
  calc (part.foldl (· + ·) start).exact
      ≤ (part.foldl (· + ·) (front.foldl (· + ·) start)).exact :=
        foldl_add_mono hpart hthrough
          (exact_le_foldl_add hfront (isFinite_start_of_foldl_add part hthrough))
    _ ≤ _ := exact_le_foldl_add hback hall

/-! ## Roots -/

/-- A finite root is the rounded root of the magnitude, also of a zero. -/
theorem exists_exact_sqrt {x : Binary F} (h : x.sqrt.isFinite = true) :
    ∃ m : ℕ, x.exact = m / 2 ^ F.quantum ∧
      x.sqrt.exact = F.roundMagnitude (rootQuarters (m * 2 ^ F.quantum)) 4 / 2 ^ F.quantum := by
  obtain ⟨s, m, hm, rfl⟩ := exists_of_isFinite (isFinite_of_sqrt h)
  refine ⟨m, ?_⟩
  by_cases hz : m = 0
  · subst hz
    have hroot : rootQuarters (0 * 2 ^ F.quantum) = 0 := by
      rw [Nat.zero_mul]
      rfl
    rw [sqrt, if_pos rfl, hroot, F.roundMagnitude_zero (by omega), Nat.cast_zero, zero_div]
    exact ⟨exact_zero s, exact_zero s⟩
  · simp only [sqrt, if_neg hz] at h ⊢
    cases s with
    | true => cases h
    | false =>
      simp only [Bool.false_eq_true, if_false] at h ⊢
      refine ⟨exact_finite_false m hm, ?_⟩
      rw [ofRatio_of_lt false (roundMagnitude_lt_of_isFinite h), exact_finite_false]

/-- The root of a larger number is no smaller. -/
theorem exact_sqrt_mono {x y : Binary F} (hx : x.sqrt.isFinite = true)
    (hy : y.sqrt.isFinite = true) (h : x.exact ≤ y.exact) : x.sqrt.exact ≤ y.sqrt.exact := by
  have hq : (0 : ℚ) < 2 ^ F.quantum := by positivity
  obtain ⟨m, hm, hxr⟩ := exists_exact_sqrt hx
  obtain ⟨n, hn, hyr⟩ := exists_exact_sqrt hy
  rw [hm, hn, div_le_div_iff_of_pos_right hq, Nat.cast_le] at h
  rw [hxr, hyr, div_le_div_iff_of_pos_right hq, Nat.cast_le]
  exact F.roundMagnitude_mono 4 (rootQuarters_mono (Nat.mul_le_mul_right _ h))

end Binary

namespace HalfVector

open Binary

/-! ## Norms -/

section Finite

variable {v : HalfVector} (hv : ∀ h ∈ v, h.isFinite = true)
include hv

/-- The norm of a finite vector is finite and at most `2 ^ 28`. -/
theorem norm_le : (norm v).isFinite = true ∧ (norm v).exact ≤ 2 ^ 28 := by
  by_cases hzeros : v.IsZeros
  · obtain ⟨s, hs⟩ := isZero_iff.mp (isZero_norm_iff.mpr hzeros)
    rw [hs, exact_zero]
    exact ⟨rfl, by positivity⟩
  · obtain ⟨hfin, -, hle⟩ := norm_bounds hv hzeros
    exact ⟨hfin, hle⟩

/-- No part of a finite vector has a larger squared norm. -/
theorem squaredNorm_le_of_part {part : HalfVector} (h : part <:+: v) :
    (squaredNorm part).exact ≤ (squaredNorm v).exact := by
  refine foldl_add_le_of_stretch (h.map _) (fun t ht => ?_)
    (squaredNorm_le fun x hx => hv x (h.subset hx)).1 (squaredNorm_le hv).1
  obtain ⟨x, -, rfl⟩ := List.mem_map.mp ht
  exact exact_nonneg (isNegative_square _)

/-- No part of a finite vector has a larger norm. -/
theorem norm_le_of_part {part : HalfVector} (h : part <:+: v) :
    (norm part).exact ≤ (norm v).exact := by
  refine exact_sqrt_mono (norm_le fun x hx => hv x (h.subset hx)).1 (norm_le hv).1 ?_
  rw [exact_toDouble, exact_toDouble]
  exact squaredNorm_le_of_part hv h

end Finite

/-- What is cut out of a vector is a part of it. -/
theorem part_of_subvector {v part : HalfVector} {start stop : ℕ}
    (h : subvector v start stop = .ok part) : part <:+: v := by
  obtain ⟨-, rfl⟩ := subvector_eq_ok_iff.mp h
  exact (List.take_prefix _ _).isInfix.trans (List.drop_suffix _ _).isInfix

/-- How the norm of a vector lies to its elements and to the norms of its parts. -/
structure BoundedNorm (v : HalfVector) : Prop where
  /-- The norm does not overflow. -/
  isFinite : (norm v).isFinite = true
  /-- It is no smaller than any element. -/
  abs_le : ∀ h ∈ v, |h.decode.exact| ≤ (norm v).exact
  /-- It has a bound that does not depend on the dimension. -/
  le : (norm v).exact ≤ 2 ^ 28
  /-- It is zero exactly if all elements are zeros. -/
  isZero_iff : (norm v).isZero = true ↔ v.IsZeros
  /-- The norms of contiguous parts are finite and no larger. -/
  part_le : ∀ part : HalfVector, part <:+: v →
    (norm part).isFinite = true ∧ (norm part).exact ≤ (norm v).exact
  /-- In particular those of the parts that are cut out by position. -/
  subvector_le : ∀ start stop part, subvector v start stop = .ok part →
    (norm part).isFinite = true ∧ (norm part).exact ≤ (norm v).exact

/-- The norm of a finite vector is bounded, of any dimension. -/
theorem boundedNorm {v : HalfVector} (hv : ∀ h ∈ v, h.isFinite = true) : BoundedNorm v := by
  have hparts (part : HalfVector) (h : part <:+: v) :
      (norm part).isFinite = true ∧ (norm part).exact ≤ (norm v).exact :=
    ⟨(norm_le fun x hx => hv x (h.subset hx)).1, norm_le_of_part hv h⟩
  exact
    { isFinite := (norm_le hv).1
      abs_le := fun h hh => abs_decode_le_norm hv hh (norm_le hv).1
      le := (norm_le hv).2
      isZero_iff := isZero_norm_iff
      part_le := hparts
      subvector_le := fun start stop part h => hparts part (part_of_subvector h) }

end HalfVector

namespace Registry

open HalfKernels

/-! ## Distances over more elements -/

/-- A call answers with numbers for two dimensions, and with no smaller one for the second. -/
def Grows (call : ℕ → HalfVector → HalfVector → Except Fault Single) (d₁ d₂ : ℕ)
    (a b : HalfVector) : Prop :=
  ∃ s₁ s₂, call d₁ a b = .ok s₁ ∧ call d₂ a b = .ok s₂ ∧ s₁.isFinite = true ∧
    s₂.isFinite = true ∧ s₁.exact ≤ s₂.exact

/-- The pairs of fewer elements come first among those of more. -/
theorem zip_take_front {d₁ d₂ : ℕ} (h : d₁ ≤ d₂) (a b : HalfVector) :
    (a.take d₁).zip (b.take d₁) <+: (a.take d₂).zip (b.take d₂) := by
  have hcut : (a.take d₁).zip (b.take d₁) = ((a.take d₂).zip (b.take d₂)).take d₁ := by
    rw [List.zip_eq_zipWith, List.zip_eq_zipWith, List.take_zipWith, List.take_take,
      List.take_take, Nat.min_eq_left h]
  rw [hcut]
  exact List.take_prefix _ _

section Bound

variable (host : CapabilitySet) {d₁ d₂ : ℕ} (hpos : 1 ≤ d₁) (hle : d₁ ≤ d₂)
  (hmax : d₂ ≤ maxDimension)
include hpos hle hmax

/-- A portable kernel that sums terms without a minus sign grows with the dimension as long
as it stays finite. -/
theorem grows_onHalves (kernel : HalfStrategy → HalfVector → HalfVector → Single)
    {term : Half × Half → Single}
    (hkernel : ∀ x y, kernel .portable x y = sumSingles ((x.zip y).map term))
    (hsign : ∀ p, (term p).isNegative = false) {a b : HalfVector}
    (ha : d₂ ≤ a.length) (hb : d₂ ≤ b.length)
    (hfin : ∀ d ≤ d₂, (kernel .portable (a.take d) (b.take d)).isFinite = true) :
    Grows ((fresh.bind host .portable).onHalves fun strategy x y => .ok (kernel strategy x y))
      d₁ d₂ a b := by
  refine ⟨_, _, onHalves_of_portable host _ hpos (hle.trans hmax) (hle.trans ha) (hle.trans hb),
    onHalves_of_portable host _ (hpos.trans hle) hmax ha hb, hfin d₁ hle, hfin d₂ le_rfl, ?_⟩
  have hfront := hfin d₁ hle
  have hwhole := hfin d₂ le_rfl
  rw [hkernel] at hfront hwhole
  rw [hkernel, hkernel]
  refine Binary.foldl_add_le_of_stretch ((zip_take_front hle a b).map term).isInfix
    (fun t ht => ?_) hfront hwhole
  obtain ⟨p, -, rfl⟩ := List.mem_map.mp ht
  exact Binary.exact_nonneg (hsign p)

end Bound

/-- Over finite elements norms are bounded whatever the dimension, and neither norms nor
the two distances of a bound registry fall when more elements are read. -/
theorem norms_and_distances_grow (host : CapabilitySet) :
    (∀ v : HalfVector, (∀ h ∈ v, h.isFinite = true) → v.BoundedNorm) ∧
    ∀ (a b : HalfVector) (d₁ d₂ : ℕ), 1 ≤ d₁ → d₁ ≤ d₂ → d₂ ≤ maxDimension →
      d₂ ≤ a.length → d₂ ≤ b.length →
      (∀ h ∈ a.take d₂, h.isFinite = true) → (∀ h ∈ b.take d₂, h.isFinite = true) →
      Grows (fresh.bind host .portable).squaredDistance d₁ d₂ a b ∧
        Grows (fresh.bind host .portable).taxicabDistance d₁ d₂ a b := by
  refine ⟨fun v hv => HalfVector.boundedNorm hv, ?_⟩
  intro a b d₁ d₂ hpos hle hmax ha hb hfa hfb
  have haccurate (d : ℕ) (hd : d ≤ d₂) :
      ((a.take d).zip (b.take d)).length ≤ maxDimension ∧
        ∀ p ∈ (a.take d).zip (b.take d), FinitePair p := by
    refine ⟨(length_zip_take_le d a b).trans (hd.trans hmax), fun p hp => ?_⟩
    exact finitePair_of_mem_zip hfa hfb p ((zip_take_front hd a b).subset hp)
  constructor
  · refine grows_onHalves host hpos hle hmax HalfStrategy.squaredDistance
      squaredDistance_eq (fun _ => Binary.isNegative_square _) ha hb fun d hd => ?_
    exact (squaredDistance_accurate (haccurate d hd).1 (haccurate d hd).2).1
  · refine grows_onHalves host hpos hle hmax HalfStrategy.taxicabDistance
      taxicabDistance_eq (fun _ => Binary.isNegative_abs _) ha hb fun d hd => ?_
    exact (taxicabDistance_accurate (haccurate d hd).1 (haccurate d hd).2).1

/-- The largest half, one and the least one, and the distances from zeros and ones of
both signs over one element and over all three. -/
theorem norms_and_distances_grow_largest :
    HalfVector.BoundedNorm [Half.largest, Half.negOne, Half.leastPositive] ∧
    Grows (fresh.bind .none .portable).squaredDistance 1 3
      [Half.largest, Half.negOne, Half.leastPositive] [Half.negZero, Half.one, Half.zero] ∧
    Grows (fresh.bind .none .portable).taxicabDistance 1 3
      [Half.largest, Half.negOne, Half.leastPositive] [Half.negZero, Half.one, Half.zero] :=
  ⟨(norms_and_distances_grow .none).1 _ (by decide),
    (norms_and_distances_grow .none).2 _ _ 1 3 (by decide) (by decide) (by decide) (by decide)
      (by decide) (by decide) (by decide)⟩

end Registry

end VectorDistance
