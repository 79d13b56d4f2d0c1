import Mathlib
import VectorDistance.HalfKernels
import VectorDistance.Proofs.QuotientError
import VectorDistance.Proofs.SummationError

/-!
# Rounding keeps order

A rounded quotient never passes a magnitude of the format that the exact one
does not pass. Numbers that are known only from below are handled through
`AtLeast`: no minus sign, an infinity included, and at least so many quanta.
Sums, square roots and wider formats keep such bounds, so that a running sum of
numbers without a minus sign ends no lower than any of its terms, however long
it is. In the other direction a quotient of a number by one that is no smaller
is at most one, and stays so in every format.
-/

namespace VectorDistance

namespace Format

variable {F : Format}

/-- A magnitude that fits is a whole number of last bits of a given weight, or
lies below all magnitudes whose last bit has that weight. -/
theorem Fits.dvd_or_lt {m : ℕ} (h : F.Fits m) (e : ℕ) :
    2 ^ e ∣ m ∨ 0 < e ∧ m < 2 ^ (F.precision - 1 + e) := by
  obtain ⟨significand, shift, hs, rfl⟩ := h
  have hp := F.precision_pos
  rcases Nat.lt_or_ge shift e with hlt | hge
  · refine Or.inr ⟨by omega, ?_⟩
    calc significand * 2 ^ shift < 2 ^ F.precision * 2 ^ shift :=
          Nat.mul_lt_mul_of_pos_right hs (Nat.two_pow_pos _)
      _ = 2 ^ (F.precision + shift) := (pow_add _ _ _).symm
      _ ≤ 2 ^ (F.precision - 1 + e) := Nat.pow_le_pow_right (by omega) (by omega)
  · exact Or.inl ((Nat.pow_dvd_pow 2 hge).trans (Nat.dvd_mul_left _ _))

/-- Rounding never goes below a magnitude of the format. -/
theorem Fits.le_roundMagnitude {m num den : ℕ} (h : F.Fits m) (hden : 0 < den)
    (hle : m * den ≤ num) : m ≤ F.roundMagnitude num den := by
  have hq : m ≤ num / den := (Nat.le_div_iff_mul_le hden).mpr hle
  rcases h.dvd_or_lt (F.excess (num / den)) with ⟨c, hc⟩ | ⟨hpos, hlt⟩
  · have hquot : c ≤ num / (den * 2 ^ F.excess (num / den)) := by
      rw [Nat.le_div_iff_mul_le (by positivity)]
      calc c * (den * 2 ^ F.excess (num / den)) = 2 ^ F.excess (num / den) * c * den := by ring
        _ = m * den := by rw [← hc]
        _ ≤ num := hle
    calc m = c * 2 ^ F.excess (num / den) := by rw [Nat.mul_comm]; exact hc
      _ ≤ F.roundMagnitude num den :=
        Nat.mul_le_mul_right _ (hquot.trans (le_roundDiv .toEven _ _))
  · exact hlt.le.trans (F.two_pow_le_roundMagnitude (F.two_pow_le_of_excess_pos hpos))

/-- Rounding never goes above a magnitude of the format. -/
theorem Fits.roundMagnitude_le {m num den : ℕ} (h : F.Fits m) (hden : 0 < den)
    (hle : num ≤ m * den) : F.roundMagnitude num den ≤ m := by
  have hq : num / den ≤ m := Nat.div_le_of_le_mul (by rwa [Nat.mul_comm])
  rcases h.dvd_or_lt (F.excess (num / den)) with ⟨c, hc⟩ | ⟨hpos, hlt⟩
  · have hround : roundDiv .toEven num (den * 2 ^ F.excess (num / den)) ≤ c := by
      refine roundDiv_le_of_lt .toEven ?_
      have hw : 0 < den * 2 ^ F.excess (num / den) := by positivity
      have hnum : num ≤ c * (den * 2 ^ F.excess (num / den)) := by
        calc num ≤ m * den := hle
          _ = 2 ^ F.excess (num / den) * c * den := by rw [← hc]
          _ = c * (den * 2 ^ F.excess (num / den)) := by ring
      rw [Nat.add_mul, Nat.one_mul, Nat.mul_assoc]
      omega
    calc F.roundMagnitude num den ≤ c * 2 ^ F.excess (num / den) := Nat.mul_le_mul_right _ hround
      _ = m := by rw [Nat.mul_comm]; exact hc.symm
  · -- the quotient would lie in a binade above the magnitude
    have hbinade := F.two_pow_le_of_excess_pos hpos
    omega

end Format

namespace Binary

variable {F G : Format}

/-- A number without a minus sign that is no smaller than `m` quanta. -/
inductive AtLeast (m : ℕ) : Binary F → Prop
  /-- Infinity is no smaller than anything. -/
  | infinite : AtLeast m (.infinite false)
  /-- A finite number of at least that magnitude. -/
  | finite {n : ℕ} (hn : F.Represents n) (h : m ≤ n) : AtLeast m (.finite false n hn)

/-- A lower bound can be lowered. -/
theorem AtLeast.mono {l m : ℕ} {x : Binary F} (h : AtLeast m x) (hlm : l ≤ m) : AtLeast l x := by
  cases h with
  | infinite => exact .infinite
  | finite hn h => exact .finite hn (hlm.trans h)

/-- What is bounded from below carries no minus sign. -/
theorem AtLeast.isNegative {m : ℕ} {x : Binary F} (h : AtLeast m x) : x.isNegative = false := by
  cases h with
  | infinite => rfl
  | finite => rfl

/-- A quotient keeps a lower bound that fits the format. -/
theorem atLeast_ofRatio {m num den : ℕ} (hm : F.Fits m) (hden : 0 < den) (hle : m * den ≤ num) :
    AtLeast m (ofRatio false num den : Binary F) := by
  have hround := hm.le_roundMagnitude hden hle
  by_cases h : F.roundMagnitude num den < 2 ^ F.capacity
  · rw [ofRatio_of_lt false h]
    exact .finite _ hround
  · rw [ofRatio, dif_neg h]
    exact .infinite

/-- A quotient up to a magnitude of the format becomes a finite number up to it. -/
theorem exists_ofRatio_of_le {m num den : ℕ} (s : Bool) (hm : F.Represents m) (hden : 0 < den)
    (hle : num ≤ m * den) : ∃ r hr, (ofRatio s num den : Binary F) = finite s r hr ∧ r ≤ m := by
  have hround := hm.1.roundMagnitude_le hden hle
  exact ⟨_, _, ofRatio_of_lt s (hround.trans_lt hm.2), hround⟩

/-- A sum of finite numbers is their exact sum, under its sign, rounded once; an
exact zero is negative only if both numbers are. -/
theorem exists_finite_add (s t : Bool) {m n : ℕ} (hm : F.Represents m) (hn : F.Represents n) :
    ∃ u, signed u (signed s m + signed t n).natAbs = signed s m + signed t n ∧
      (signed s m + signed t n = 0 → u = (s && t)) ∧
      finite s m hm + finite t n hn = ofRatio u (signed s m + signed t n).natAbs 1 := by
  refine ⟨if signed s m + signed t n = 0 then s && t else decide (signed s m + signed t n < 0),
    ?_, fun hz => if_pos hz, rfl⟩
  generalize signed s m + signed t n = total
  by_cases hz : total = 0
  · rw [hz]
    exact signed_zero _
  · rw [if_neg hz]
    rcases lt_or_ge total 0 with h | h
    · rw [decide_eq_true h, signed, if_pos rfl]
      omega
    · rw [decide_eq_false (not_lt.mpr h), signed, if_neg Bool.false_ne_true]
      omega

/-- Adding a number without a minus sign keeps a lower bound. -/
theorem AtLeast.add {m : ℕ} {x y : Binary F} (hx : AtLeast m x) (hy : AtLeast 0 y) :
    AtLeast m (x + y) := by
  change AtLeast m (Binary.add x y)
  cases hx with
  | infinite =>
    cases hy with
    | infinite => exact .infinite
    | finite => exact .infinite
  | @finite a ha hma =>
    cases hy with
    | infinite => exact .infinite
    | @finite b hb =>
      have hsum : signed false a + signed false b = ((a + b : ℕ) : ℤ) := by
        simp [signed]
      have hsign : (if ((a + b : ℕ) : ℤ) = 0 then (false && false)
          else decide (((a + b : ℕ) : ℤ) < 0)) = false := by
        split
        · rfl
        · exact decide_eq_false (by omega)
      simp only [Binary.add, hsum, hsign, Int.natAbs_natCast]
      exact (atLeast_ofRatio ha.1 Nat.one_pos (by omega)).mono hma

/-- A running sum of numbers without a minus sign keeps the bound of its start. -/
theorem AtLeast.foldl_add {m : ℕ} {start : Binary F} (hstart : AtLeast m start)
    {terms : List (Binary F)} (hterms : ∀ t ∈ terms, AtLeast 0 t) :
    AtLeast m (terms.foldl (· + ·) start) := by
  induction terms generalizing start with
  | nil => exact hstart
  | cons t terms ih =>
    exact ih (hstart.add (hterms t List.mem_cons_self))
      fun x hx => hterms x (List.mem_cons_of_mem t hx)

/-- A running sum of numbers without a minus sign is no smaller than any of them. -/
theorem AtLeast.foldl_add_of_mem {m : ℕ} {start t : Binary F} (hstart : AtLeast 0 start)
    {terms : List (Binary F)} (hterms : ∀ x ∈ terms, AtLeast 0 x) (ht : t ∈ terms)
    (hm : AtLeast m t) : AtLeast m (terms.foldl (· + ·) start) := by
  obtain ⟨front, back, rfl⟩ := List.append_of_mem ht
  have hfront : AtLeast 0 (front.foldl (· + ·) start) :=
    hstart.foldl_add fun x hx => hterms x (List.mem_append_left _ hx)
  rw [List.foldl_append, List.foldl_cons]
  refine AtLeast.foldl_add ?_ fun x hx => hterms x (by simp [hx])
  rw [Binary.add_comm]
  exact hm.add hfront

/-- Negative zero leaves a number without a minus sign as it is. -/
theorem AtLeast.negZero_add {m : ℕ} {x : Binary F} (h : AtLeast m x) : zero true + x = x := by
  cases h with
  | infinite => rfl
  | @finite n hn h =>
    rw [Binary.add_comm]
    rcases Nat.eq_zero_or_pos n with rfl | hpos
    · exact ofRatio_of_represents false hn
    · exact finite_add_zero false true hn hpos.ne'

/-- A sum from negative zero over at least one term without a minus sign carries
none, and is no smaller than any term. -/
theorem AtLeast.foldl_negZero {m : ℕ} {t : Binary F} {terms : List (Binary F)}
    (hterms : ∀ x ∈ terms, AtLeast 0 x) (ht : t ∈ terms) (hm : AtLeast m t) :
    AtLeast m (terms.foldl (· + ·) (zero true)) := by
  cases terms with
  | nil => cases ht
  | cons first rest =>
    have hfirst : AtLeast 0 first := hterms first List.mem_cons_self
    have hrest : ∀ x ∈ rest, AtLeast 0 x := fun x hx => hterms x (List.mem_cons_of_mem _ hx)
    rw [List.foldl_cons, hfirst.negZero_add]
    rcases List.mem_cons.mp ht with rfl | hmem
    · exact hm.foldl_add hrest
    · exact hfirst.foldl_add_of_mem hrest hmem hm

/-- A square carries no minus sign and keeps a bound that fits the format. -/
theorem atLeast_square {s : Bool} {n m : ℕ} (hn : F.Represents n) (hm : F.Fits m)
    (h : m * 2 ^ F.quantum ≤ n * n) : AtLeast m (finite s n hn).square := by
  change AtLeast m (Binary.mul (finite s n hn) (finite s n hn))
  simp only [Binary.mul, bne_self_eq_false]
  exact atLeast_ofRatio hm (by positivity) h

/-- A wider format counts a bound in its own quanta. -/
theorem AtLeast.widen {m : ℕ} {x : Binary F} (h : F.EmbedsIn G) (hx : AtLeast m x) :
    AtLeast (m * 2 ^ (G.quantum - F.quantum)) (x.widen h) := by
  cases hx with
  | infinite => exact .infinite
  | finite hn hmn => exact .finite _ (Nat.mul_le_mul_right _ hmn)

/-- The quarters of a root reach an even number exactly if its half squared is no more than
the quadrupled square. -/
theorem two_mul_le_rootQuarters_iff {i n : ℕ} : 2 * i ≤ rootQuarters n ↔ i * i ≤ 4 * n := by
  rw [← Nat.le_sqrt]
  unfold rootQuarters
  dsimp only
  split
  · omega
  · omega

/-- They stay within it exactly if its half squared is no less. -/
theorem rootQuarters_le_two_mul_iff {i n : ℕ} : rootQuarters n ≤ 2 * i ↔ 4 * n ≤ i * i := by
  unfold rootQuarters
  dsimp only
  split
  · next hsquare =>
    have hle : 4 * n ≤ i * i ↔ (4 * n).sqrt ≤ i := by
      nth_rewrite 1 [← hsquare]
      exact Nat.mul_self_le_mul_self_iff
    omega
  · next hsquare =>
    have hne : 4 * n ≠ i * i := by
      intro heq
      rw [heq, Nat.sqrt_eq] at hsquare
      exact hsquare rfl
    have hlt : (4 * n).sqrt < i ↔ 4 * n < i * i := Nat.sqrt_lt
    omega

/-- The quarters of a root are no fewer than those of a smaller root. -/
theorem four_mul_le_rootQuarters {r n : ℕ} (h : r * r ≤ n) : 4 * r ≤ rootQuarters n := by
  have hfour : 4 * r = 2 * (2 * r) := Nat.mul_assoc 2 2 r
  rw [hfour, two_mul_le_rootQuarters_iff, Nat.mul_mul_mul_comm]
  exact Nat.mul_le_mul_left 4 h

/-- A square root keeps a bound that fits the format, taken to the root. -/
theorem AtLeast.sqrt {m r : ℕ} {x : Binary F} (hx : AtLeast m x) (hr : F.Fits r)
    (h : r * r ≤ m * 2 ^ F.quantum) : AtLeast r x.sqrt := by
  cases hx with
  | infinite => exact .infinite
  | @finite n hn hmn =>
    have hsq : r * r ≤ n * 2 ^ F.quantum := h.trans (Nat.mul_le_mul_right _ hmn)
    simp only [Binary.sqrt, Bool.false_eq_true, if_false]
    split
    · next hz =>
      rw [hz, Nat.zero_mul] at hsq
      have hr0 : r = 0 := by simpa using hsq
      exact .finite hn (by omega)
    · refine atLeast_ofRatio hr (by omega) ?_
      rw [Nat.mul_comm]
      exact four_mul_le_rootQuarters hsq

/-- One is a number of every format that reaches beyond it. -/
theorem represents_one (h : F.quantum < F.capacity) : F.Represents (2 ^ F.quantum) :=
  ⟨F.fits_two_pow _, Nat.pow_lt_pow_right (by omega) h⟩

/-- A number divided by one that is no smaller becomes a number up to one. -/
theorem exists_div_of_atLeast {s : Bool} {m : ℕ} {hm : F.Represents m} {y : Binary F}
    (hone : F.quantum < F.capacity) (hy : AtLeast m y) (hy0 : y.isZero = false) :
    ∃ r hr, finite s m hm / y = finite s r hr ∧ r ≤ 2 ^ F.quantum := by
  change ∃ r hr, Binary.div _ _ = _ ∧ _
  cases hy with
  | infinite => exact ⟨0, F.represents_zero, by simp [Binary.div, zero], Nat.zero_le _⟩
  | @finite n hn hmn =>
    have hn0 : n ≠ 0 := by
      rintro rfl
      simp [isZero, rank, signed] at hy0
    simp only [Binary.div, if_neg hn0, Bool.bne_false]
    refine exists_ofRatio_of_le s (represents_one hone) (Nat.pos_of_ne_zero hn0) ?_
    rw [Nat.mul_comm]
    exact Nat.mul_le_mul_left _ hmn

/-- A number up to one stays so in every format. -/
theorem exists_convert_of_le_one {s : Bool} {m : ℕ} {hm : F.Represents m}
    (hone : G.quantum < G.capacity) (h : m ≤ 2 ^ F.quantum) :
    ∃ r hr, (finite s m hm).convert G = finite s r hr ∧ r ≤ 2 ^ G.quantum := by
  refine exists_ofRatio_of_le s (represents_one hone) (Nat.two_pow_pos _) ?_
  rw [Nat.mul_comm]
  exact Nat.mul_le_mul_left _ h

end Binary

end VectorDistance
