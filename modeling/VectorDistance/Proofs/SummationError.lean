import Mathlib
import VectorDistance.Proofs.RoundingLaws

/-!
# Error of running sums

A running sum rounds once for each term it takes in. On a grid that lies above
the least normal value no addition can underflow, and as long as the sizes of
the terms, grown by one roundoff for each addition, stay below the reach of the
format none can overflow either. The error of the whole sum is then `growth n - 1`
times the sum of these sizes. Terms that were rounded themselves add their own
roundings to the exponent.
-/

namespace VectorDistance

namespace Format

variable (F : Format)

/-- The factor by which `n` roundings in sequence can stretch a value. -/
def growth (n : ℕ) : ℚ := (1 + F.roundoff) ^ n

/-- No rounding stretches nothing. -/
theorem growth_zero : F.growth 0 = 1 := pow_zero _

/-- One rounding stretches by one roundoff. -/
theorem growth_one : F.growth 1 = 1 + F.roundoff := pow_one _

/-- The factors of two sequences of roundings multiply. -/
theorem growth_add (m n : ℕ) : F.growth (m + n) = F.growth m * F.growth n := pow_add _ _ _

/-- Growth never shrinks a value. -/
theorem one_le_growth (n : ℕ) : 1 ≤ F.growth n :=
  one_le_pow₀ (by linarith [F.roundoff_pos])

/-- More roundings stretch further. -/
theorem growth_mono {m n : ℕ} (h : m ≤ n) : F.growth m ≤ F.growth n :=
  pow_le_pow_right₀ (by linarith [F.roundoff_pos]) h

/-- The growth stays below the inverse of what Bernoulli's inequality leaves. -/
theorem growth_mul_le_one (n : ℕ) : F.growth n * (1 - n * F.roundoff) ≤ 1 := by
  have hu := F.roundoff_pos
  have hu1 := F.roundoff_lt_one
  have hb : 1 - n * F.roundoff ≤ (1 - F.roundoff) ^ n := by
    have h := one_add_mul_le_pow (by linarith : (-2 : ℚ) ≤ -F.roundoff) n
    calc 1 - n * F.roundoff = 1 + n * -F.roundoff := by ring
      _ ≤ (1 + -F.roundoff) ^ n := h
      _ = (1 - F.roundoff) ^ n := by rw [← sub_eq_add_neg]
  calc F.growth n * (1 - n * F.roundoff)
      ≤ F.growth n * (1 - F.roundoff) ^ n :=
        mul_le_mul_of_nonneg_left hb (zero_le_one.trans (F.one_le_growth n))
    _ = ((1 + F.roundoff) * (1 - F.roundoff)) ^ n := by rw [growth, mul_pow]
    _ ≤ 1 := pow_le_one₀ (mul_nonneg (by linarith) (by linarith)) (by nlinarith)

end Format

namespace Binary

variable {F : Format}

/-- A finite number that `n` roundings can have moved away from an exact value. -/
def Near (n : ℕ) (x : Binary F) (q : ℚ) : Prop :=
  x.isFinite = true ∧ |x.exact - q| ≤ (F.growth n - 1) * |q|

/-- A rounded result off by at most one roundoff, without overflow or underflow. -/
def RoundsSafely (x : Binary F) (q : ℚ) : Prop :=
  x.Approximates q ∧ F.ClearsUnderflow q

/-- One rounding moves by at most one roundoff. -/
theorem Approximates.near {x : Binary F} {q : ℚ} (h : x.Approximates q) : Near 1 x q :=
  ⟨h.1, h.2.trans_eq (by rw [F.growth_one]; ring)⟩

/-- A number near a value is at most stretched. -/
theorem Near.abs_le {n : ℕ} {x : Binary F} {q : ℚ} (h : Near n x q) :
    |x.exact| ≤ F.growth n * |q| := by
  have h1 : |x.exact| ≤ |x.exact - q| + |q| := by
    simpa only [sub_add_cancel] using abs_add_le (x.exact - q) q
  linarith [h.2]

/-- Dropping the sign keeps a number near. -/
theorem Near.abs {n : ℕ} {x : Binary F} {q : ℚ} (h : Near n x q) : Near n x.abs |q| := by
  refine ⟨by rw [isFinite_abs]; exact h.1, ?_⟩
  rw [exact_abs, abs_abs]
  exact (abs_abs_sub_abs_le _ _).trans h.2

/-- The roundings of both factors and of the product add up. -/
theorem Near.mul {m n : ℕ} {x y : Binary F} {p q : ℚ} (hx : Near m x p) (hy : Near n y q)
    (h : (x * y).Approximates (x.exact * y.exact)) : Near (m + n + 1) (x * y) (p * q) := by
  have hm := F.one_le_growth m
  have hn := F.one_le_growth n
  have hu := F.roundoff_pos
  have hsplit : |x.exact * y.exact - p * q| ≤ (F.growth m * F.growth n - 1) * |p * q| := by
    calc |x.exact * y.exact - p * q|
        = |(x.exact - p) * y.exact + p * (y.exact - q)| := by congr 1; ring
      _ ≤ |x.exact - p| * |y.exact| + |p| * |y.exact - q| := by
        rw [← abs_mul, ← abs_mul]
        exact abs_add_le _ _
      _ ≤ ((F.growth m - 1) * |p|) * (F.growth n * |q|) + |p| * ((F.growth n - 1) * |q|) := by
        refine add_le_add (mul_le_mul hx.2 hy.abs_le (abs_nonneg _) ?_) ?_
        · exact mul_nonneg (by linarith) (abs_nonneg _)
        · exact mul_le_mul_of_nonneg_left hy.2 (abs_nonneg _)
      _ = (F.growth m * F.growth n - 1) * |p * q| := by rw [abs_mul]; ring
  have hsize : |x.exact * y.exact| ≤ F.growth m * F.growth n * |p * q| := by
    have := abs_sub_abs_le_abs_sub (x.exact * y.exact) (p * q)
    linarith
  refine ⟨h.1, ?_⟩
  rw [F.growth_add, F.growth_add, F.growth_one]
  calc |(x * y).exact - p * q|
      ≤ |(x * y).exact - x.exact * y.exact| + |x.exact * y.exact - p * q| := abs_sub_le _ _ _
    _ ≤ F.growth m * F.growth n * |p * q| * F.roundoff +
        (F.growth m * F.growth n - 1) * |p * q| :=
      add_le_add (h.2.trans (mul_le_mul_of_nonneg_right hsize hu.le)) hsplit
    _ = (F.growth m * F.growth n * (1 + F.roundoff) - 1) * |p * q| := by ring

/-- The sizes of the terms of a sum and of the number it starts from. -/
def sumOfSizes (start : Binary F) (terms : List (Binary F)) : ℚ :=
  |start.exact| + (terms.map fun t => |t.exact|).sum

/-- Sizes are not negative. -/
theorem sum_abs_nonneg {ι : Type*} (f : ι → ℚ) (l : List ι) :
    0 ≤ (l.map fun i => |f i|).sum :=
  List.sum_nonneg (by simp)

/-- A sum is at most the sum of the sizes. -/
theorem abs_sum_le_sum_abs {ι : Type*} (f : ι → ℚ) (l : List ι) :
    |(l.map f).sum| ≤ (l.map fun i => |f i|).sum := by
  induction l with
  | nil => simp
  | cons i l ih =>
    simp only [List.map_cons, List.sum_cons]
    exact (abs_add_le _ _).trans (add_le_add_right ih _)

/-- Two sums differ at most by the sum of the differences of their terms. -/
theorem abs_sum_sub_sum_le {ι : Type*} {f g bound : ι → ℚ} {l : List ι}
    (h : ∀ i ∈ l, |f i - g i| ≤ bound i) :
    |(l.map f).sum - (l.map g).sum| ≤ (l.map bound).sum := by
  induction l with
  | nil => simp
  | cons i l ih =>
    obtain ⟨hi, hrest⟩ := List.forall_mem_cons.mp h
    simp only [List.map_cons, List.sum_cons]
    rw [add_sub_add_comm]
    exact (abs_add_le _ _).trans (add_le_add hi (ih hrest))

/-- A running sum on a grid stays on it and keeps the error of its additions. -/
theorem foldl_add_error {e : ℕ} (terms : List (Binary F)) {start : Binary F}
    (hstart : OnGrid e start) (hterms : ∀ t ∈ terms, OnGrid e t)
    (h : F.growth terms.length * sumOfSizes start terms < F.reach) :
    OnGrid e (terms.foldl (· + ·) start) ∧
      |(terms.foldl (· + ·) start).exact - (start.exact + (terms.map exact).sum)| ≤
        (F.growth terms.length - 1) * sumOfSizes start terms := by
  induction terms generalizing start with
  | nil => exact ⟨hstart, by simp [F.growth_zero]⟩
  | cons t terms ih =>
    have ht : OnGrid e t := hterms t List.mem_cons_self
    have hR := sum_abs_nonneg exact terms
    have hg := F.one_le_growth terms.length
    have hu := F.roundoff_pos
    simp only [sumOfSizes, List.map_cons, List.sum_cons, List.length_cons, F.growth_add,
      F.growth_one, List.foldl_cons] at h ⊢
    set R := (terms.map fun t => |t.exact|).sum
    set A := |start.exact + t.exact|
    have hA0 : 0 ≤ A := abs_nonneg _
    have hsize : A ≤ |start.exact| + |t.exact| := abs_add_le _ _
    have hg1 : 1 ≤ F.growth terms.length * (1 + F.roundoff) :=
      one_le_mul_of_one_le_of_one_le hg (by linarith)
    -- the first addition has room, since every later one only needs more
    have hroom : A < F.reach := by
      refine lt_of_le_of_lt ?_ h
      refine le_trans ?_ (le_mul_of_one_le_left (by linarith) hg1)
      linarith
    obtain ⟨hfin, herr⟩ := add_approximates hstart.isFinite ht.isFinite hroom
    have hgrid := hstart.add ht hfin
    have hnext : |(start + t).exact| ≤ A * (1 + F.roundoff) := by
      have := abs_sub_abs_le_abs_sub (start + t).exact (start.exact + t.exact)
      linarith
    have hbound : F.growth terms.length * sumOfSizes (start + t) terms < F.reach := by
      refine lt_of_le_of_lt ?_ h
      rw [mul_assoc]
      refine mul_le_mul_of_nonneg_left ?_ (by linarith)
      unfold sumOfSizes
      nlinarith
    obtain ⟨hgrids, hsum⟩ := ih hgrid (fun x hx => hterms x (List.mem_cons_of_mem _ hx)) hbound
    refine ⟨hgrids, ?_⟩
    calc |(terms.foldl (· + ·) (start + t)).exact -
          (start.exact + (t.exact + (terms.map exact).sum))|
        = |((terms.foldl (· + ·) (start + t)).exact -
            ((start + t).exact + (terms.map exact).sum)) +
            ((start + t).exact - (start.exact + t.exact))| := by congr 1; ring
      _ ≤ (F.growth terms.length - 1) * sumOfSizes (start + t) terms + A * F.roundoff :=
        (abs_add_le _ _).trans (add_le_add hsum herr)
      _ ≤ (F.growth terms.length - 1) * (A * (1 + F.roundoff) + R) + A * F.roundoff := by
        refine add_le_add_left (mul_le_mul_of_nonneg_left ?_ (by linarith)) _
        exact add_le_add_left hnext R
      _ = (F.growth terms.length * (1 + F.roundoff) - 1) * (A + R) -
          F.growth terms.length * F.roundoff * R := by ring
      _ ≤ (F.growth terms.length * (1 + F.roundoff) - 1) * (A + R) :=
        sub_le_self _ (mul_nonneg (mul_nonneg (by linarith) hu.le) hR)
      _ ≤ (F.growth terms.length * (1 + F.roundoff) - 1) *
          (|start.exact| + (|t.exact| + R)) :=
        mul_le_mul_of_nonneg_left (by linarith) (by linarith)

/-- A number other than zero is kept when a zero is added. -/
theorem finite_add_zero (s t : Bool) {m : ℕ} (hm : F.Represents m) (h : m ≠ 0) :
    finite s m hm + zero t = finite s m hm := by
  change add _ _ = _
  have htotal : signed s m + signed t 0 = signed s m := by rw [signed_zero, add_zero]
  have habs : (signed s m).natAbs = m := natAbs_signed s m
  have hne : signed s m ≠ 0 := by rw [← Int.natAbs_ne_zero, habs]; exact h
  simp only [zero, add, htotal, habs, if_neg hne, decide_signed_neg s h]
  exact ofRatio_of_represents s hm

/-- Adding to a zero is exact and stays on every grid. -/
theorem onGrid_zero_add {e : ℕ} {t : Binary F} (ht : OnGrid e t) (s : Bool) :
    OnGrid e (zero s + t) ∧ (zero s + t).exact = t.exact := by
  obtain ⟨u, m, hm, rfl⟩ := exists_of_isFinite ht.isFinite
  by_cases h : m = 0
  · subst h
    have hz : (zero s : Binary F) + finite u 0 hm = zero (s && u) := by
      change add _ _ = _
      have htotal : signed s 0 + signed u 0 = 0 := by cases s <;> cases u <;> rfl
      simp only [zero, add, htotal, Int.natAbs_zero, if_true]
      exact ofRatio_of_represents _ hm
    rw [hz, exact_zero]
    exact ⟨onGrid_zero e _, (exact_zero u).symm⟩
  · rw [Binary.add_comm, finite_add_zero u s hm h]
    exact ⟨ht, rfl⟩

/-- A sum from zero makes one rounding less than it has terms. -/
theorem foldl_add_zero_error {e : ℕ} (s : Bool) {terms : List (Binary F)}
    (hterms : ∀ t ∈ terms, OnGrid e t)
    (h : F.growth (terms.length - 1) * (terms.map fun t => |t.exact|).sum < F.reach) :
    OnGrid e (terms.foldl (· + ·) (zero s)) ∧
      |(terms.foldl (· + ·) (zero s)).exact - (terms.map exact).sum| ≤
        (F.growth (terms.length - 1) - 1) * (terms.map fun t => |t.exact|).sum := by
  cases terms with
  | nil => exact ⟨onGrid_zero e s, by simp [exact_zero]⟩
  | cons t terms =>
    obtain ⟨hgrid, hexact⟩ := onGrid_zero_add (hterms t List.mem_cons_self) s
    have hrest : ∀ x ∈ terms, OnGrid e x := fun x hx => hterms x (List.mem_cons_of_mem t hx)
    have hsizes : sumOfSizes (zero s + t) terms = ((t :: terms).map fun t => |t.exact|).sum := by
      rw [sumOfSizes, hexact, List.map_cons, List.sum_cons]
    have hsum : ((t :: terms).map exact).sum = (zero s + t).exact + (terms.map exact).sum := by
      rw [hexact, List.map_cons, List.sum_cons]
    rw [List.length_cons, Nat.add_sub_cancel, ← hsizes] at h ⊢
    rw [hsum, List.foldl_cons]
    exact foldl_add_error terms hgrid hrest h

/-- Every addition of a running sum rounds safely. -/
def SumsSafely (start : Binary F) (terms : List (Binary F)) : Prop :=
  ∀ front t back, terms = front ++ t :: back →
    (front.foldl (· + ·) start + t).RoundsSafely ((front.foldl (· + ·) start).exact + t.exact)

/-- Sums of numbers on a grid of normal steps clear underflow. -/
theorem clearsUnderflow_add {e : ℕ} {x y : Binary F} (he : F.leastNormal ≤ 2 ^ e / 2 ^ F.quantum)
    (hx : OnGrid e x) (hy : OnGrid e y) : F.ClearsUnderflow (x.exact + y.exact) := by
  obtain ⟨i, hi⟩ := hx.exact_eq
  obtain ⟨j, hj⟩ := hy.exact_eq
  have hstep : (0 : ℚ) < 2 ^ e / 2 ^ F.quantum := by positivity
  have hmul : ∃ k : ℤ, x.exact + y.exact = k * (2 ^ e / 2 ^ F.quantum) :=
    ⟨i + j, by rw [hi, hj]; push_cast; ring⟩
  exact (eq_zero_or_le_abs_of_multiple hstep hmul).imp_right he.trans

/-- A running sum on a grid of normal steps rounds safely all the way. -/
theorem sumsSafely_of_onGrid {e : ℕ} {terms : List (Binary F)} {start : Binary F}
    (he : F.leastNormal ≤ 2 ^ e / 2 ^ F.quantum) (hstart : OnGrid e start)
    (hterms : ∀ t ∈ terms, OnGrid e t)
    (h : F.growth terms.length * sumOfSizes start terms < F.reach) :
    SumsSafely start terms := by
  rintro front t back rfl
  have hR := sum_abs_nonneg exact back
  have hS := sum_abs_nonneg exact front
  have hg := F.one_le_growth front.length
  have hlen : F.growth front.length ≤ F.growth (front ++ t :: back).length := by
    refine F.growth_mono ?_
    rw [List.length_append]
    exact Nat.le_add_right _ _
  have hsize : sumOfSizes start front + |t.exact| ≤ sumOfSizes start (front ++ t :: back) := by
    simp only [sumOfSizes, List.map_append, List.map_cons, List.sum_append, List.sum_cons]
    linarith
  have hs0 : 0 ≤ sumOfSizes start front := add_nonneg (abs_nonneg _) hS
  have ht0 := abs_nonneg t.exact
  have hroom : F.growth front.length * (sumOfSizes start front + |t.exact|) < F.reach :=
    lt_of_le_of_lt (mul_le_mul hlen hsize (by linarith) (by linarith)) h
  have hfront : F.growth front.length * sumOfSizes start front < F.reach := by nlinarith
  obtain ⟨hgrid, herr⟩ := foldl_add_error front hstart
    (fun x hx => hterms x (List.mem_append_left _ hx)) hfront
  have ht : OnGrid e t := hterms t (by simp)
  refine ⟨add_approximates hgrid.isFinite ht.isFinite ?_, clearsUnderflow_add he hgrid ht⟩
  -- the sum so far is at most its sizes stretched by the additions made
  have hsum : |start.exact + (front.map exact).sum| ≤ sumOfSizes start front := by
    exact (abs_add_le _ _).trans (add_le_add_right (abs_sum_le_sum_abs exact front) _)
  have hfold : |(front.foldl (· + ·) start).exact| ≤
      F.growth front.length * sumOfSizes start front := by
    have := abs_sub_abs_le_abs_sub (front.foldl (· + ·) start).exact
      (start.exact + (front.map exact).sum)
    linarith
  calc |(front.foldl (· + ·) start).exact + t.exact|
      ≤ |(front.foldl (· + ·) start).exact| + |t.exact| := abs_add_le _ _
    _ ≤ F.growth front.length * (sumOfSizes start front + |t.exact|) := by nlinarith
    _ < F.reach := hroom

section Terms

variable {ι : Type*} {l : List ι} {term : ι → Binary F} {value : ι → ℚ} {n : ℕ}

/-- The sizes of rounded terms are the exact sizes, at most stretched. -/
theorem sum_abs_le_of_near (h : ∀ i ∈ l, Near n (term i) (value i)) :
    (l.map fun i => |(term i).exact|).sum ≤ F.growth n * (l.map fun i => |value i|).sum := by
  rw [← List.sum_map_mul_left]
  exact List.sum_le_sum fun i hi => (h i hi).abs_le

/-- The errors of rounded terms add up at most. -/
theorem abs_sum_sub_le_of_near (h : ∀ i ∈ l, Near n (term i) (value i)) :
    |(l.map fun i => (term i).exact).sum - (l.map value).sum| ≤
      (F.growth n - 1) * (l.map fun i => |value i|).sum := by
  rw [← List.sum_map_mul_left]
  exact abs_sum_sub_sum_le fun i hi => (h i hi).2

/-- The sum of rounded terms, begun at a zero, has their roundings and one for
each addition, and rounds safely on a grid of normal steps. -/
theorem foldl_add_near {e : ℕ} {start : Binary F} (hstart : OnGrid e start)
    (hzero : start.exact = 0) (he : F.leastNormal ≤ 2 ^ e / 2 ^ F.quantum)
    (hgrid : ∀ i ∈ l, OnGrid e (term i)) (hnear : ∀ i ∈ l, Near n (term i) (value i))
    (h : F.growth (l.length + n) * (l.map fun i => |value i|).sum < F.reach) :
    ((l.map term).foldl (· + ·) start).isFinite = true ∧
      |((l.map term).foldl (· + ·) start).exact - (l.map value).sum| ≤
        (F.growth (l.length + n) - 1) * (l.map fun i => |value i|).sum ∧
      SumsSafely start (l.map term) := by
  have hsizes : sumOfSizes start (l.map term) = (l.map fun i => |(term i).exact|).sum := by
    rw [sumOfSizes, hzero, abs_zero, zero_add, List.map_map]
    rfl
  have hle := sum_abs_le_of_near hnear
  have hg := F.one_le_growth l.length
  have hroom : F.growth (l.map term).length * sumOfSizes start (l.map term) < F.reach := by
    refine lt_of_le_of_lt ?_ h
    rw [hsizes, List.length_map, F.growth_add, mul_assoc]
    exact mul_le_mul_of_nonneg_left hle (by linarith)
  have hterms : ∀ t ∈ l.map term, OnGrid e t := by
    intro t ht
    obtain ⟨i, hi, rfl⟩ := List.mem_map.mp ht
    exact hgrid i hi
  obtain ⟨hfin, herr⟩ := foldl_add_error (l.map term) hstart hterms hroom
  refine ⟨hfin.isFinite, ?_, sumsSafely_of_onGrid he hstart hterms hroom⟩
  rw [hsizes, hzero, zero_add, List.length_map, List.map_map] at herr
  have hvalues := abs_sum_sub_le_of_near hnear
  calc |((l.map term).foldl (· + ·) start).exact - (l.map value).sum|
      ≤ |((l.map term).foldl (· + ·) start).exact - (l.map (exact ∘ term)).sum| +
        |(l.map (exact ∘ term)).sum - (l.map value).sum| := abs_sub_le _ _ _
    _ ≤ (F.growth l.length - 1) * (F.growth n * (l.map fun i => |value i|).sum) +
        (F.growth n - 1) * (l.map fun i => |value i|).sum :=
      add_le_add (herr.trans (mul_le_mul_of_nonneg_left hle (by linarith))) hvalues
    _ = (F.growth (l.length + n) - 1) * (l.map fun i => |value i|).sum := by
      rw [F.growth_add]
      ring

end Terms

end Binary

end VectorDistance
