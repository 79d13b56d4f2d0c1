import Mathlib
import VectorDistance.Proofs.RoundingOrder

/-!
# Sums with infinities, NaNs and zeros

When operations are undefined, and where a running sum of arbitrary numbers ends.
`SumsTo` names the three ends: undefined terms give a NaN, one infinity among
terms that are finite or that same infinity gives it, and finite terms give a
finite number. The last case needs that no stretch of finite terms overflows,
and nothing else. Zeros keep their own rules: rounding never makes a sum of
numbers vanish, so that a sum is negative zero only over negative zeros.
-/

namespace VectorDistance

namespace Binary

variable {F : Format}

/-- A number that is not a NaN is an infinity or finite. -/
theorem infinite_or_isFinite {x : Binary F} (h : x.isNaN = false) :
    (∃ s, x = .infinite s) ∨ x.isFinite = true := by
  cases x with
  | nan => exact Bool.noConfusion h
  | infinite s => exact Or.inl ⟨s, rfl⟩
  | finite => exact Or.inr rfl

/-- Nothing built from a magnitude is a NaN. -/
theorem isNaN_finite (s : Bool) {m : ℕ} (hm : F.Represents m) :
    (finite s m hm).isNaN = false := rfl

/-- Finite numbers are not NaNs. -/
theorem isNaN_of_isFinite {x : Binary F} (h : x.isFinite = true) : x.isNaN = false := by
  obtain ⟨s, m, hm, rfl⟩ := exists_of_isFinite h
  exact isNaN_finite s hm

/-- Rounding a quotient never gives a NaN. -/
theorem isNaN_ofRatio (s : Bool) (num den : ℕ) :
    (ofRatio s num den : Binary F).isNaN = false := by
  unfold ofRatio
  split
  · rfl
  · rfl

/-- Infinities are not zero. -/
theorem isZero_infinite (s : Bool) : (infinite s : Binary F).isZero = false := by
  cases s <;> simp [isZero, rank, signed]

/-- Only a zero has no magnitude. -/
theorem isZero_finite (s : Bool) {m : ℕ} (hm : F.Represents m) :
    (finite s m hm).isZero = true ↔ m = 0 := by
  cases s <;> simp [isZero, rank, signed]

/-- A sum is undefined for a NaN and for two infinities of different signs. -/
theorem isNaN_add_iff {x y : Binary F} :
    (x + y).isNaN = true ↔
      x.isNaN = true ∨ y.isNaN = true ∨ ∃ s, x = .infinite s ∧ y = .infinite (!s) := by
  change (add x y).isNaN = true ↔ _
  cases x with
  | nan => cases y <;> simp [add, isNaN]
  | infinite s =>
    cases y with
    | nan => simp [add, isNaN]
    | infinite t => cases s <;> cases t <;> simp [add, isNaN]
    | finite => simp [add, isNaN]
  | finite s m hm =>
    cases y with
    | nan => simp [add, isNaN]
    | infinite => simp [add, isNaN]
    | finite t n hn =>
      have hsum : (add (finite s m hm) (finite t n hn)).isNaN = false := isNaN_ofRatio _ _ _
      simp [hsum, isNaN_finite]

/-- Infinities change their sign and stay infinities. -/
theorem neg_eq_infinite_not_iff {x : Binary F} {s : Bool} :
    -x = .infinite (!s) ↔ x = .infinite s := by
  change x.neg = _ ↔ _
  cases x <;> simp [neg]

/-- Changing the sign makes no NaN. -/
theorem isNaN_neg (x : Binary F) : (-x).isNaN = x.isNaN := by
  change x.neg.isNaN = _
  cases x <;> rfl

/-- A difference is undefined for a NaN and for two equal infinities. -/
theorem isNaN_sub_iff {x y : Binary F} :
    (x - y).isNaN = true ↔
      x.isNaN = true ∨ y.isNaN = true ∨ ∃ s, x = .infinite s ∧ y = .infinite s := by
  change (x + -y).isNaN = true ↔ _
  simp only [isNaN_add_iff, isNaN_neg, neg_eq_infinite_not_iff]

/-- A product is undefined for a NaN and for a zero with an infinity. -/
theorem isNaN_mul_iff {x y : Binary F} :
    (x * y).isNaN = true ↔ x.isNaN = true ∨ y.isNaN = true ∨
      (x.isZero = true ∧ ∃ s, y = .infinite s) ∨ (y.isZero = true ∧ ∃ s, x = .infinite s) := by
  change (mul x y).isNaN = true ↔ _
  cases x with
  | nan => cases y <;> simp [mul, isNaN]
  | infinite s =>
    cases y with
    | nan => simp [mul, isNaN]
    | infinite t => simp [mul, isNaN, isZero_infinite]
    | finite t n hn =>
      rw [isZero_finite]
      by_cases hz : n = 0 <;> simp [mul, isNaN, hz]
  | finite s m hm =>
    cases y with
    | nan => simp [mul, isNaN]
    | infinite t =>
      rw [isZero_finite]
      by_cases hz : m = 0 <;> simp [mul, isNaN, hz]
    | finite t n hn =>
      have hprod : (mul (finite s m hm) (finite t n hn)).isNaN = false := isNaN_ofRatio _ _ _
      simp [hprod, isNaN_finite]

/-- The summands of a finite sum are finite. -/
theorem isFinite_of_add {x y : Binary F} (h : (x + y).isFinite = true) :
    x.isFinite = true ∧ y.isFinite = true := by
  change (add x y).isFinite = true at h
  cases x with
  | nan => cases y <;> simp [add, isFinite] at h
  | infinite s =>
    cases y with
    | nan => simp [add, isFinite] at h
    | infinite t => cases s <;> cases t <;> simp [add, isFinite] at h
    | finite => simp [add, isFinite] at h
  | finite =>
    cases y with
    | nan => simp [add, isFinite] at h
    | infinite => simp [add, isFinite] at h
    | finite => exact ⟨rfl, rfl⟩

/-- The factors of a finite product are finite. -/
theorem isFinite_of_mul {x y : Binary F} (h : (x * y).isFinite = true) :
    x.isFinite = true ∧ y.isFinite = true := by
  change (mul x y).isFinite = true at h
  cases x with
  | nan => cases y <;> simp [mul, isFinite] at h
  | infinite s =>
    cases y with
    | nan => simp [mul, isFinite] at h
    | infinite t => simp [mul, isFinite] at h
    | finite t n hn => by_cases hz : n = 0 <;> simp [mul, isFinite, hz] at h
  | finite s m hm =>
    cases y with
    | nan => simp [mul, isFinite] at h
    | infinite t => by_cases hz : m = 0 <;> simp [mul, isFinite, hz] at h
    | finite => exact ⟨rfl, rfl⟩

/-- A running sum over these terms has no value: one is a NaN, or both
infinities are among them. -/
def UndefinedSum (terms : List (Binary F)) : Prop :=
  (∃ t ∈ terms, t.isNaN = true) ∨ (.infinite false ∈ terms ∧ .infinite true ∈ terms)

/-- Where a running sum over these terms can end. -/
inductive SumsTo (terms : List (Binary F)) : Binary F → Prop
  /-- Undefined terms give a NaN. -/
  | undefined (s : Bool) (h : UndefinedSum terms) : SumsTo terms (.nan s)
  /-- An infinity among terms that are finite or the same infinity. -/
  | infinite {s : Bool} (hmem : .infinite s ∈ terms)
      (hall : ∀ t ∈ terms, t = .infinite s ∨ t.isFinite = true) : SumsTo terms (.infinite s)
  /-- A finite number for finite terms. -/
  | finite {x : Binary F} (hx : x.isFinite = true) (hall : ∀ t ∈ terms, t.isFinite = true) :
      SumsTo terms x

/-- A sum without a value has none with one more term. -/
theorem UndefinedSum.append {terms : List (Binary F)} (h : UndefinedSum terms) (t : Binary F) :
    UndefinedSum (terms ++ [t]) := by
  rcases h with ⟨u, hu, hnan⟩ | ⟨hpos, hneg⟩
  · exact Or.inl ⟨u, List.mem_append_left _ hu, hnan⟩
  · exact Or.inr ⟨List.mem_append_left _ hpos, List.mem_append_left _ hneg⟩

/-- Infinities of different signs have no sum. -/
theorem undefinedSum_of_infinities {terms : List (Binary F)} {s u : Bool} (hsu : s ≠ u)
    (hs : .infinite s ∈ terms) (hu : .infinite u ∈ terms) : UndefinedSum terms := by
  obtain rfl : u = !s := Bool.eq_not.mpr (Ne.symm hsu)
  cases s with
  | false => exact Or.inr ⟨hs, hu⟩
  | true => exact Or.inr ⟨hu, hs⟩

/-- Terms that are finite or all one infinity have a sum. -/
theorem not_undefinedSum {terms : List (Binary F)} {s : Bool}
    (hall : ∀ t ∈ terms, t = .infinite s ∨ t.isFinite = true) : ¬UndefinedSum terms := by
  rintro (⟨t, ht, hnan⟩ | ⟨hpos, hneg⟩)
  · rcases hall t ht with rfl | hfin
    · exact Bool.noConfusion hnan
    · exact Bool.noConfusion ((isNaN_of_isFinite hfin).symm.trans hnan)
  · have hs : false = s := by simpa [isFinite] using hall _ hpos
    have ht : true = s := by simpa [isFinite] using hall _ hneg
    exact Bool.noConfusion (hs.trans ht.symm)

/-- One more term of a running sum. Only a sum of finite terms needs to be known
to stay in range. -/
theorem SumsTo.push {terms : List (Binary F)} {x t : Binary F} (h : SumsTo terms x)
    (hfin : (∀ u ∈ terms ++ [t], u.isFinite = true) → (x + t).isFinite = true) :
    SumsTo (terms ++ [t]) (x + t) := by
  have hlast : t ∈ terms ++ [t] := List.mem_append_right _ List.mem_cons_self
  cases h with
  | undefined s h =>
    cases t with
    | nan => exact .undefined false (h.append _)
    | infinite => exact .undefined false (h.append _)
    | finite => exact .undefined false (h.append _)
  | @infinite s hmem hall =>
    have hmem' : .infinite s ∈ terms ++ [t] := List.mem_append_left _ hmem
    cases t with
    | nan => exact .undefined false (Or.inl ⟨_, hlast, rfl⟩)
    | infinite u =>
      by_cases hu : s = u
      · subst hu
        have hsum : (.infinite s + .infinite s : Binary F) = .infinite s := if_pos rfl
        rw [hsum]
        exact .infinite hmem' (List.forall_mem_append.mpr
          ⟨hall, List.forall_mem_singleton.mpr (Or.inl rfl)⟩)
      · have hsum : (.infinite s + .infinite u : Binary F) = .nan false := if_neg hu
        rw [hsum]
        exact .undefined false (undefinedSum_of_infinities hu hmem' hlast)
    | finite =>
      exact .infinite hmem' (List.forall_mem_append.mpr
        ⟨hall, List.forall_mem_singleton.mpr (Or.inr rfl)⟩)
  | finite hx hall =>
    obtain ⟨s, m, hm, rfl⟩ := exists_of_isFinite hx
    cases t with
    | nan => exact .undefined false (Or.inl ⟨_, hlast, rfl⟩)
    | infinite u =>
      exact .infinite hlast (List.forall_mem_append.mpr
        ⟨fun v hv => Or.inr (hall v hv), List.forall_mem_singleton.mpr (Or.inl rfl)⟩)
    | finite u n hn =>
      have hall' : ∀ v ∈ terms ++ [.finite u n hn], v.isFinite = true :=
        List.forall_mem_append.mpr ⟨hall, fun v hv => by rw [List.mem_singleton.mp hv]; rfl⟩
      exact .finite (hfin hall') hall'

/-- A whole running sum, if it stays in range along every stretch of finite terms
at its beginning. -/
theorem sumsTo_foldl {start : Binary F} {terms : List (Binary F)}
    (hfin : ∀ front, front <+: terms → (∀ t ∈ front, t.isFinite = true) →
      (front.foldl (· + ·) start).isFinite = true) :
    SumsTo terms (terms.foldl (· + ·) start) := by
  induction terms using List.reverseRecOn with
  | nil => exact .finite (hfin [] List.nil_prefix (by simp)) (by simp)
  | append_singleton terms t ih =>
    have hinit := ih fun front hfront => hfin front (hfront.trans (List.prefix_append _ _))
    rw [List.foldl_append, List.foldl_cons, List.foldl_nil]
    refine hinit.push fun hall => ?_
    have hwhole := hfin _ List.prefix_rfl hall
    rwa [List.foldl_append, List.foldl_cons, List.foldl_nil] at hwhole

section Outcome

variable {terms : List (Binary F)} {x : Binary F} (h : SumsTo terms x)
include h

/-- A running sum is a NaN exactly when its terms are undefined. -/
theorem SumsTo.isNaN_iff : x.isNaN = true ↔ UndefinedSum terms := by
  cases h with
  | undefined s h => exact iff_of_true rfl h
  | infinite hmem hall => exact iff_of_false Bool.false_ne_true (not_undefinedSum hall)
  | finite hx hall =>
    rw [isNaN_of_isFinite hx]
    exact iff_of_false Bool.false_ne_true
      (not_undefinedSum (s := false) fun t ht => Or.inr (hall t ht))

/-- A defined running sum is an infinity exactly when that is among its terms. -/
theorem SumsTo.eq_infinite_iff (hx : x.isNaN = false) (s : Bool) :
    x = .infinite s ↔ .infinite s ∈ terms := by
  cases h with
  | undefined => exact Bool.noConfusion hx
  | infinite hmem hall =>
    constructor
    · rintro ⟨⟩
      exact hmem
    · intro hs
      exact ((hall _ hs).resolve_right Bool.false_ne_true).symm
  | finite hfin hall =>
    refine iff_of_false ?_ fun hs => Bool.false_ne_true (hall _ hs)
    rintro rfl
    exact Bool.false_ne_true hfin

end Outcome

/-- No whole number of quanta but zero is rounded to a zero. -/
theorem eq_zero_of_ofRatio_eq_zero {u v : Bool} {total : ℕ}
    (h : (ofRatio u total 1 : Binary F) = zero v) : total = 0 ∧ u = v := by
  have hfinite : (ofRatio u total 1 : Binary F).isFinite = true := by rw [h]; rfl
  rw [ofRatio_of_lt u (roundMagnitude_lt_of_isFinite hfinite)] at h
  injection h with hu hround
  refine ⟨?_, hu⟩
  by_contra hpos
  have hone : 2 ^ 0 ≤ F.roundMagnitude total 1 :=
    (F.fits_two_pow 0).le_roundMagnitude Nat.one_pos (by omega)
  omega

/-- A sum is negative zero only if both summands are: no rounding makes a sum
that is not zero vanish. -/
theorem add_eq_negZero_iff {x y : Binary F} :
    x + y = zero true ↔ x = zero true ∧ y = zero true := by
  constructor
  · intro h
    have hfin : (x + y).isFinite = true := by rw [h]; rfl
    obtain ⟨hx, hy⟩ := isFinite_of_add hfin
    obtain ⟨s, m, hm, rfl⟩ := exists_of_isFinite hx
    obtain ⟨t, n, hn, rfl⟩ := exists_of_isFinite hy
    obtain ⟨u, hu, hsign, hsum⟩ := exists_finite_add s t hm hn
    obtain ⟨htotal, hneg⟩ := eq_zero_of_ofRatio_eq_zero (hsum.symm.trans h)
    have hzero : signed s m + signed t n = 0 := Int.natAbs_eq_zero.mp htotal
    obtain ⟨rfl, rfl⟩ : s = true ∧ t = true := by
      simpa [hneg] using (hsign hzero).symm
    have hmn : m = 0 ∧ n = 0 := by
      simp only [signed, if_true] at hzero
      omega
    exact ⟨finite_congr hmn.1, finite_congr hmn.2⟩
  · rintro ⟨rfl, rfl⟩
    exact ofRatio_of_represents true F.represents_zero

/-- A running sum is negative zero only if its start and all its terms are. -/
theorem foldl_add_eq_negZero_iff {start : Binary F} {terms : List (Binary F)} :
    terms.foldl (· + ·) start = zero true ↔
      start = zero true ∧ ∀ t ∈ terms, t = zero true := by
  induction terms generalizing start with
  | nil => simp
  | cons t terms ih => rw [List.foldl_cons, ih, add_eq_negZero_iff, List.forall_mem_cons, and_assoc]

/-- Rounding keeps the sign, of results that vanish or overflow too. -/
theorem isNegative_ofRatio (s : Bool) (num den : ℕ) :
    (ofRatio s num den : Binary F).isNegative = s := by
  unfold ofRatio
  split
  · rfl
  · rfl

/-- A square carries no minus sign. -/
theorem isNegative_square (x : Binary F) : x.square.isNegative = false := by
  change (mul x x).isNegative = false
  cases x with
  | nan => rfl
  | infinite s => exact bne_self_eq_false s
  | finite s m hm => exact (isNegative_ofRatio (s != s) _ _).trans (bne_self_eq_false s)

/-- A square is a NaN only for a NaN. -/
theorem isNaN_square (x : Binary F) : x.square.isNaN = x.isNaN := by
  change (mul x x).isNaN = x.isNaN
  cases x with
  | nan => rfl
  | infinite => rfl
  | finite => exact isNaN_ofRatio _ _ _

/-- An absolute value is a NaN only for a NaN. -/
theorem isNaN_abs (x : Binary F) : x.abs.isNaN = x.isNaN := by
  cases x <;> rfl

/-- An absolute value carries no minus sign. -/
theorem isNegative_abs (x : Binary F) : x.abs.isNegative = false := by
  cases x <;> rfl

/-- What carries no minus sign is at least zero, unless it is a NaN. -/
theorem atLeast_zero {x : Binary F} (hx : x.isNaN = false) (hs : x.isNegative = false) :
    AtLeast 0 x := by
  cases x with
  | nan => exact Bool.noConfusion hx
  | infinite s =>
    obtain rfl : s = false := hs
    exact .infinite
  | finite s m hm =>
    obtain rfl : s = false := hs
    exact .finite hm (Nat.zero_le m)

/-- A number other than zero is at least one quantum. -/
theorem AtLeast.one {x : Binary F} (h : AtLeast 0 x) (hx : x.exact ≠ 0) : AtLeast 1 x := by
  cases h with
  | infinite => exact .infinite
  | @finite m hm =>
    refine .finite hm (Nat.one_le_iff_ne_zero.mpr ?_)
    rintro rfl
    exact hx (exact_zero false)

/-- A finite number of at least one quantum is positive. -/
theorem AtLeast.exact_pos {x : Binary F} (h : AtLeast 1 x) (hx : x.isFinite = true) :
    0 < x.exact := by
  cases h with
  | infinite => exact Bool.noConfusion hx
  | @finite m hm h1 =>
    have hm0 : (0 : ℚ) < m := by exact_mod_cast h1
    rw [exact_finite_false]
    positivity

/-- A zero has no quanta. -/
theorem not_atLeast_one_zero (s : Bool) : ¬AtLeast 1 (zero s : Binary F) := by
  rintro (_ | ⟨_, h⟩)
  exact absurd h (by decide)

/-- Zero is the only finite number of no size and no sign. -/
theorem eq_zero_of_exact {x : Binary F} (hx : x.isFinite = true) (hs : x.isNegative = false)
    (h0 : x.exact = 0) : x = zero false := by
  obtain ⟨s, m, hm, rfl⟩ := exists_of_isFinite hx
  obtain rfl : s = false := hs
  exact finite_congr ((isZero_finite false hm).mp ((exact_eq_zero_iff hx).mp h0))

/-- Zeros add up to a zero, which is negative if both are. -/
theorem zero_add_zero (s u : Bool) : (zero s + zero u : Binary F) = zero (s && u) := by
  cases s <;> cases u <;> exact ofRatio_of_represents _ F.represents_zero

/-- Positive zeros add up to a positive zero. -/
theorem foldl_add_posZero {terms : List (Binary F)} (h : ∀ t ∈ terms, t = zero false) :
    terms.foldl (· + ·) (zero false) = zero false := by
  induction terms with
  | nil => rfl
  | cons t terms ih =>
    obtain ⟨rfl, hrest⟩ := List.forall_mem_cons.mp h
    rw [List.foldl_cons, zero_add_zero]
    exact ih hrest

/-- A rounded result is zero exactly when the exact one is. -/
theorem Approximates.exact_eq_zero_iff {x : Binary F} {q : ℚ} (h : x.Approximates q) :
    x.exact = 0 ↔ q = 0 := by
  have herr := h.2
  constructor
  · intro hx
    rw [hx, zero_sub, abs_neg] at herr
    by_contra hq
    nlinarith [abs_pos.mpr hq, F.roundoff_lt_one]
  · intro hq
    rw [hq, sub_zero, abs_zero, zero_mul] at herr
    exact abs_nonpos_iff.mp herr

end Binary

end VectorDistance
