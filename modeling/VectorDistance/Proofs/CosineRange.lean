import Mathlib
import VectorDistance.HalfVector
import VectorDistance.Proofs.CosineBound

/-!
# The range of computed cosines

A cosine over `dimension` pairs of finite halves stays below
`1 + (dimension - 1) / 8370000`, up to the roundings of the 64-bit format. Up to
84 pairs this is `1 + 10 ^ -5`. From 90 pairs on it is not: the vectors
`1, 41 / 4096, 41 / 4096, …` and `67 / 64, 43 / 4096, 43 / 4096, …` add odd
squares and odd products of half a last bit, all of them ties, and ties to even
take both norms down and the dot product up at every step.
-/

namespace VectorDistance

namespace HalfKernels

open Binary

/-- The growth of a sum weighs at most twice its roundoffs against the norms. -/
theorem growth_mul_le_sub (n : ℕ) :
    Format.single.growth n * (1 - 2 * (n * Format.single.roundoff)) ≤
      2 - Format.single.growth n := by
  linarith [Format.single.growth_mul_le_one n]

/-- Sums over a dimension in range stay small when they grow. -/
theorem growth_mul_le {n : ℕ} {q : ℚ} (hn : n ≤ maxDimension) (h0 : 0 ≤ q)
    (hq : q ≤ maxDimension * 2 ^ 34) : Format.single.growth (n - 1) * q ≤ 2 ^ 60 := by
  have hg := growth_le (by omega : n - 1 ≤ maxDimension + 3)
  calc Format.single.growth (n - 1) * q ≤ 2 * (maxDimension * 2 ^ 34) :=
        mul_le_mul (by linarith) hq h0 (by norm_num)
    _ ≤ 2 ^ 60 := by norm_num [maxDimension]

section Sums

variable {l : List (Half × Half)} (hlen : l.length ≤ maxDimension)
include hlen

/-- A squared norm loses at most the growth of its sum. -/
theorem norm_bounds (side : Half × Half → Half) (hfin : ∀ p ∈ l, (side p).isFinite = true) :
    OnGrid 101 ((l.map fun p => (side p).decode.square).foldl (· + ·) (zero false)) ∧
      (2 - Format.single.growth (l.length - 1)) *
          (l.map fun p => (side p).decode.exact ^ 2).sum ≤
        ((l.map fun p => (side p).decode.square).foldl (· + ·) (zero false)).exact ∧
      ((l.map fun p => (side p).decode.square).foldl (· + ·) (zero false)).exact ≤ 2 ^ 60 := by
  have hexact : ∀ p ∈ l, (side p).decode.square.exact = (side p).decode.exact ^ 2 := by
    intro p hp
    rw [pow_two, ← exact_mul_decode (hfin p hp) (hfin p hp)]
    rfl
  have hgrid : ∀ p ∈ l, OnGrid 101 (side p).decode.square :=
    fun p hp => (product_roundsSafely (p := (side p, side p)) ⟨hfin p hp, hfin p hp⟩).2
  have hsize : ∀ p ∈ l, |(side p).decode.exact ^ 2| ≤ 2 ^ 34 := by
    intro p hp
    rw [abs_pow]
    refine (pow_le_pow_left₀ (abs_nonneg _) (Half.abs_exact_decode_lt (hfin p hp)).le 2).trans ?_
    norm_num
  obtain ⟨hon, herr, hsum⟩ := exactTerms_sum hlen hgrid hexact hsize
  simp only [abs_sq] at herr hsum
  have hX := sum_abs_nonneg (fun p => (side p).decode.exact ^ 2) l
  simp only [abs_sq] at hX
  have hroom := growth_mul_le hlen hX hsum
  obtain ⟨hlo, hhi⟩ := abs_le.mp herr
  exact ⟨hon, by linarith, by linarith⟩

/-- A dot product gains at most the growth of its sum. -/
theorem dot_bounds (h : ∀ p ∈ l, FinitePair p) :
    OnGrid 101 ((l.map productTerm).foldl (· + ·) (zero false)) ∧
      |((l.map productTerm).foldl (· + ·) (zero false)).exact| ≤
        Format.single.growth (l.length - 1) *
          (l.map fun p => |p.1.decode.exact * p.2.decode.exact|).sum ∧
      |((l.map productTerm).foldl (· + ·) (zero false)).exact| ≤ 2 ^ 60 := by
  have hsize : ∀ p ∈ l, |p.1.decode.exact * p.2.decode.exact| ≤ 2 ^ 34 :=
    fun p hp => abs_mul_decode_le (h p hp)
  obtain ⟨hon, herr, hsum⟩ := exactTerms_sum hlen (fun p hp => (product_roundsSafely (h p hp)).2)
    (fun p hp => exact_mul_decode (h p hp).1 (h p hp).2) hsize
  have hZ := sum_abs_nonneg (fun p : Half × Half => p.1.decode.exact * p.2.decode.exact) l
  have habs := abs_sum_le_sum_abs (fun p : Half × Half => p.1.decode.exact * p.2.decode.exact) l
  have hle : |((l.map productTerm).foldl (· + ·) (zero false)).exact| ≤
      Format.single.growth (l.length - 1) *
        (l.map fun p => |p.1.decode.exact * p.2.decode.exact|).sum := by
    have := abs_sub_abs_le_abs_sub ((l.map productTerm).foldl (· + ·) (zero false)).exact
      (l.map fun p => p.1.decode.exact * p.2.decode.exact).sum
    linarith
  exact ⟨hon, hle, hle.trans (growth_mul_le hlen hZ hsum)⟩

end Sums

/-- What a cosine needs: a dimension in range, no shorter buffer, and finite
elements that are not all zero on either side. -/
structure Comparable (dimension : ℕ) (a b : HalfVector) : Prop where
  /-- The dimension is not zero. -/
  dimension_pos : 1 ≤ dimension
  /-- The dimension is in range. -/
  dimension_le : dimension ≤ maxDimension
  /-- The left buffer is long enough. -/
  length_left : dimension ≤ a.length
  /-- The right buffer is long enough. -/
  length_right : dimension ≤ b.length
  /-- The left elements are finite. -/
  isFinite_left : ∀ h ∈ a.take dimension, h.isFinite = true
  /-- The right elements are finite. -/
  isFinite_right : ∀ h ∈ b.take dimension, h.isFinite = true
  /-- The left elements are not all zero. -/
  nonzero_left : ∃ h ∈ a.take dimension, h.decode.isZero = false
  /-- The right elements are not all zero. -/
  nonzero_right : ∃ h ∈ b.take dimension, h.decode.isZero = false

/-- A vector of finite halves that are not all zero has a positive squared norm. -/
theorem sum_sq_decode_pos {l : List (Half × Half)} {side : Half × Half → Half}
    (hfin : ∀ p ∈ l, (side p).isFinite = true)
    (h : ∃ x ∈ l.map side, x.decode.isZero = false) :
    0 < (l.map fun p => (side p).decode.exact ^ 2).sum := by
  obtain ⟨x, hx, hne⟩ := h
  obtain ⟨p, hp, rfl⟩ := List.mem_map.mp hx
  have hvalue : (side p).decode.exact ≠ 0 := by
    intro hz
    rw [exact_eq_zero_iff (Half.onGrid_decode (hfin p hp)).isFinite, hne] at hz
    exact Bool.false_ne_true hz
  have hpos : 0 < (side p).decode.exact ^ 2 := by positivity
  refine hpos.trans_le (List.single_le_sum ?_ _ (List.mem_map_of_mem hp))
  intro y hy
  obtain ⟨q, -, rfl⟩ := List.mem_map.mp hy
  exact sq_nonneg _

section Comparable

variable {dimension : ℕ} {a b : HalfVector}

/-- The three sums of comparable vectors are usable, and their dot product obeys
the Cauchy-Schwarz inequality up to the growth of the sums. -/
theorem Comparable.sums (h : Comparable dimension a b) :
    (CosineSums.ofVectors (a.take dimension) (b.take dimension)).Usable ∧
      (CosineSums.ofVectors (a.take dimension) (b.take dimension)).dot.exact ^ 2 *
          (2 - Format.single.growth (dimension - 1)) ^ 2 ≤
        Format.single.growth (dimension - 1) ^ 2 *
          ((CosineSums.ofVectors (a.take dimension) (b.take dimension)).leftNorm.exact *
            (CosineSums.ofVectors (a.take dimension) (b.take dimension)).rightNorm.exact) := by
  have hla : (a.take dimension).length = dimension := by
    rw [List.length_take, Nat.min_eq_left h.length_left]
  have hlb : (b.take dimension).length = dimension := by
    rw [List.length_take, Nat.min_eq_left h.length_right]
  have hl : ((a.take dimension).zip (b.take dimension)).length = dimension := by
    rw [List.length_zip, hla, hlb, Nat.min_self]
  have hlen := hl.trans_le h.dimension_le
  have hpairs := finitePair_of_mem_zip h.isFinite_left h.isFinite_right
  obtain ⟨hdg, hd, hdle⟩ := dot_bounds hlen hpairs
  obtain ⟨hag, ha, hale⟩ := norm_bounds hlen Prod.fst fun p hp => (hpairs p hp).1
  obtain ⟨hbg, hb, hble⟩ := norm_bounds hlen Prod.snd fun p hp => (hpairs p hp).2
  have hX := sum_sq_decode_pos (fun p hp => (hpairs p hp).1)
    (by rw [List.map_fst_zip (hla.trans hlb.symm).le]; exact h.nonzero_left)
  have hY := sum_sq_decode_pos (fun p hp => (hpairs p hp).2)
    (by rw [List.map_snd_zip (hlb.trans hla.symm).le]; exact h.nonzero_right)
  have hcs := sum_abs_mul_sq_le (fun p : Half × Half => p.1.decode.exact)
    (fun p => p.2.decode.exact) ((a.take dimension).zip (b.take dimension))
  rw [hl] at hd ha hb
  have hg := growth_le (by omega : dimension - 1 ≤ maxDimension + 3)
  have hg1 := Format.single.one_le_growth (dimension - 1)
  rw [ofVectors_eq]
  set l := (a.take dimension).zip (b.take dimension)
  set G := Format.single.growth (dimension - 1)
  set X := (l.map fun p => p.1.decode.exact ^ 2).sum
  set Y := (l.map fun p => p.2.decode.exact ^ 2).sum
  have hG2 : 0 < 2 - G := by linarith
  refine ⟨⟨hdg, hag, hbg, hdle, ?_, hale, ?_, hble⟩, ?_⟩
  · exact (mul_pos hG2 hX).trans_le ha
  · exact (mul_pos hG2 hY).trans_le hb
  · have hdsq := pow_le_pow_left₀ (abs_nonneg _) hd 2
    rw [sq_abs] at hdsq
    have hnorms := mul_le_mul ha hb (mul_nonneg hG2.le hY.le)
      ((mul_nonneg hG2.le hX.le).trans ha)
    set Z := (l.map fun p => |p.1.decode.exact * p.2.decode.exact|).sum
    calc ((l.map productTerm).foldl (· + ·) (zero false)).exact ^ 2 * (2 - G) ^ 2
        ≤ (G * Z) ^ 2 * (2 - G) ^ 2 := mul_le_mul_of_nonneg_right hdsq (sq_nonneg _)
      _ = G ^ 2 * ((2 - G) ^ 2 * Z ^ 2) := by ring
      _ ≤ G ^ 2 * ((2 - G) ^ 2 * (X * Y)) :=
        mul_le_mul_of_nonneg_left (mul_le_mul_of_nonneg_left hcs (sq_nonneg _)) (sq_nonneg _)
      _ = G ^ 2 * ((2 - G) * X * ((2 - G) * Y)) := by ring
      _ ≤ _ := mul_le_mul_of_nonneg_left hnorms (sq_nonneg _)

/-- The bound on a cosine over a number of pairs. -/
def cosineBound (dimension : ℕ) : ℚ := 1 + (dimension - 1) / 8370000 + 1 / 2 ^ 50

/-- Up to 84 pairs the bound is well below `1 + 10 ^ -5`. -/
theorem cosineBound_le (h : dimension ≤ 84) :
    cosineBound dimension ≤ 1 + 1 / 10 ^ 5 - 1 / 10 ^ 8 := by
  have hd : (dimension : ℚ) ≤ 84 := by exact_mod_cast h
  unfold cosineBound
  norm_num
  linarith

/-- The bound leaves room for the growth of the sums and seven roundoffs. -/
theorem cosineBound_room (hmin : (1 : ℚ) ≤ dimension) (hmax : (dimension : ℚ) ≤ 16000) :
    1 + 7 / 2 ^ 53 ≤ cosineBound dimension * (1 - 2 * ((dimension - 1) * (1 / 2 ^ 24))) := by
  have hprod := mul_nonneg (sub_nonneg.mpr hmin) (sub_nonneg.mpr hmax)
  unfold cosineBound
  norm_num
  nlinarith

/-- The cosine of comparable vectors exists and obeys the bound of their dimension. -/
theorem Comparable.similarity (h : Comparable dimension a b) :
    ∃ s, cosineSimilarity (a.take dimension) (b.take dimension) = .ok s ∧
      (CosineSums.ofVectors (a.take dimension) (b.take dimension)).Encloses s ∧
      |s.exact| ≤ cosineBound dimension := by
  obtain ⟨husable, hdot⟩ := h.sums
  obtain ⟨s, hok, henc⟩ := similarity_encloses husable
  refine ⟨s, hok, henc, ?_⟩
  have hAB := mul_pos husable.leftNorm_pos husable.rightNorm_pos
  have hupper := henc.upper
  have hgrowth := growth_mul_le_sub (dimension - 1)
  have hG := Format.single.one_le_growth (dimension - 1)
  have hk : ((dimension - 1 : ℕ) : ℚ) = dimension - 1 := by
    rw [Nat.cast_sub h.dimension_pos, Nat.cast_one]
  have hmax : (dimension : ℚ) ≤ 16000 := by exact_mod_cast h.dimension_le
  have hmin : (1 : ℚ) ≤ dimension := by exact_mod_cast h.dimension_pos
  rw [hk, Format.roundoff_single] at hgrowth
  rw [Format.roundoff_double] at hupper
  set sums := CosineSums.ofVectors (a.take dimension) (b.take dimension)
  set G := Format.single.growth (dimension - 1)
  set P := sums.leftNorm.exact * sums.rightNorm.exact
  -- the sums drop out of the comparison of squares
  have hsq : (|s.exact| * (1 - 1 / 2 ^ 53) ^ 3 * (2 - G)) ^ 2 ≤ (G * (1 + 1 / 2 ^ 53) ^ 3) ^ 2 := by
    refine le_of_mul_le_mul_right ?_ hAB
    calc (|s.exact| * (1 - 1 / 2 ^ 53) ^ 3 * (2 - G)) ^ 2 * P
        = s.exact ^ 2 * P * (1 - 1 / 2 ^ 53) ^ 6 * (2 - G) ^ 2 := by
          rw [← sq_abs s.exact]
          ring
      _ ≤ sums.dot.exact ^ 2 * (1 + 1 / 2 ^ 53) ^ 6 * (2 - G) ^ 2 :=
          mul_le_mul_of_nonneg_right hupper (sq_nonneg _)
      _ = sums.dot.exact ^ 2 * (2 - G) ^ 2 * (1 + 1 / 2 ^ 53) ^ 6 := by ring
      _ ≤ G ^ 2 * P * (1 + 1 / 2 ^ 53) ^ 6 := mul_le_mul_of_nonneg_right hdot (by positivity)
      _ = (G * (1 + 1 / 2 ^ 53) ^ 3) ^ 2 * P := by ring
  have hle := le_of_sq_le_sq hsq (mul_nonneg (by linarith) (by norm_num))
  have hratio : |s.exact| * (1 - 1 / 2 ^ 53) ^ 3 * (1 - 2 * ((dimension - 1) * (1 / 2 ^ 24))) ≤
      (1 + 1 / 2 ^ 53) ^ 3 := by
    refine le_of_mul_le_mul_left ?_ (by linarith : 0 < G)
    calc G * (|s.exact| * (1 - 1 / 2 ^ 53) ^ 3 * (1 - 2 * ((dimension - 1) * (1 / 2 ^ 24))))
        = |s.exact| * (1 - 1 / 2 ^ 53) ^ 3 *
            (G * (1 - 2 * ((dimension - 1) * (1 / 2 ^ 24)))) := by ring
      _ ≤ |s.exact| * (1 - 1 / 2 ^ 53) ^ 3 * (2 - G) :=
          mul_le_mul_of_nonneg_left hgrowth (mul_nonneg (abs_nonneg _) (by norm_num))
      _ ≤ G * (1 + 1 / 2 ^ 53) ^ 3 := hle
  have hroom : 0 < (1 - 1 / 2 ^ 53 : ℚ) ^ 3 * (1 - 2 * ((dimension - 1) * (1 / 2 ^ 24))) := by
    refine mul_pos (by norm_num) ?_
    norm_num
    linarith
  refine le_of_mul_le_mul_right ?_ hroom
  calc |s.exact| * ((1 - 1 / 2 ^ 53) ^ 3 * (1 - 2 * ((dimension - 1) * (1 / 2 ^ 24))))
      = |s.exact| * (1 - 1 / 2 ^ 53) ^ 3 * (1 - 2 * ((dimension - 1) * (1 / 2 ^ 24))) := by ring
    _ ≤ (1 + 1 / 2 ^ 53) ^ 3 := hratio
    _ ≤ (1 + 7 / 2 ^ 53) * (1 - 1 / 2 ^ 53) ^ 3 := by norm_num
    _ ≤ cosineBound dimension * (1 - 2 * ((dimension - 1) * (1 / 2 ^ 24))) *
        (1 - 1 / 2 ^ 53) ^ 3 :=
      mul_le_mul_of_nonneg_right (cosineBound_room hmin hmax) (by norm_num)
    _ = cosineBound dimension *
        ((1 - 1 / 2 ^ 53) ^ 3 * (1 - 2 * ((dimension - 1) * (1 / 2 ^ 24)))) := by ring

end Comparable

/-! ## Vectors of ties -/

/-- One, then 89 times `41 / 4096`, then zeros up to the dimension. -/
def leftTies (dimension : ℕ) : HalfVector :=
  Half.one :: (List.replicate 89 ⟨0x2120⟩ ++ List.replicate (dimension - 90) Half.zero)

/-- `67 / 64`, then 89 times `43 / 4096`, then zeros up to the dimension. -/
def rightTies (dimension : ℕ) : HalfVector :=
  ⟨0x3c30⟩ :: (List.replicate 89 ⟨0x2160⟩ ++ List.replicate (dimension - 90) Half.zero)

/-- An even number of steps of `2 ^ -24` with a significand of the format. -/
theorem represents_even {n : ℕ} (h : n < 2 ^ 24) : Format.single.Represents (n * 2 ^ 126) := by
  refine ⟨⟨n, 126, h, rfl⟩, ?_⟩
  calc n * 2 ^ 126 < 2 ^ 24 * 2 ^ 126 := Nat.mul_lt_mul_of_pos_right h (by positivity)
    _ ≤ 2 ^ Format.single.capacity := by
      rw [← pow_add]
      exact Nat.pow_le_pow_right (by decide) (by decide)

/-- The sums over the 90 ties. Exactly the dot product is 156907 steps above
`67 / 64`, the norms 149609 and 164561 steps above their first terms; computed
they are 156996, 149520 and 164472 steps above. -/
def tiedSums : CosineSums :=
  ⟨.finite false (8860322 * 2 ^ 126) (represents_even (by decide)),
    .finite false (8463368 * 2 ^ 126) (represents_even (by decide)),
    .finite false (9275708 * 2 ^ 126) (represents_even (by decide))⟩

/-- The kernel arrives at these sums. -/
theorem ofVectors_ties :
    CosineSums.ofVectors (leftTies 90) (rightTies 90) = tiedSums := by
  decide +kernel

/-- Pairs of zeros leave the sums as they are. -/
theorem foldl_push_zero (n : ℕ) :
    (List.replicate n (Half.zero, Half.zero)).foldl (fun sums p => sums.push p.1 p.2) tiedSums =
      tiedSums := by
  have hmul : Half.zero.decode * Half.zero.decode = zero false := by decide +kernel
  have hstep : tiedSums.push Half.zero Half.zero = tiedSums := by
    rw [CosineSums.push, square, hmul]
    simp only [tiedSums, finite_add_zero _ _ _ (by decide : 8860322 * 2 ^ 126 ≠ 0),
      finite_add_zero _ _ _ (by decide : 8463368 * 2 ^ 126 ≠ 0),
      finite_add_zero _ _ _ (by decide : 9275708 * 2 ^ 126 ≠ 0)]
  induction n with
  | zero => rfl
  | succ n ih =>
    rw [List.replicate_succ, List.foldl_cons, hstep]
    exact ih

/-- From 90 pairs on the ties have the same sums. -/
theorem ofVectors_leftTies_rightTies {dimension : ℕ} (h : 90 ≤ dimension) :
    CosineSums.ofVectors (leftTies dimension) (rightTies dimension) = tiedSums := by
  obtain ⟨n, rfl⟩ := Nat.exists_eq_add_of_le h
  have hleft : leftTies (90 + n) = leftTies 90 ++ List.replicate n Half.zero := by
    rw [leftTies, leftTies, Nat.add_sub_cancel_left]
    simp
  have hright : rightTies (90 + n) = rightTies 90 ++ List.replicate n Half.zero := by
    rw [rightTies, rightTies, Nat.add_sub_cancel_left]
    simp
  rw [CosineSums.ofVectors, hleft, hright, List.zip_append (by decide), List.foldl_append,
    List.zip_replicate', ← CosineSums.ofVectors, ofVectors_ties, foldl_push_zero]

/-- Both vectors of ties have the dimension asked for. -/
theorem length_ties {dimension : ℕ} (h : 90 ≤ dimension) :
    (leftTies dimension).length = dimension ∧ (rightTies dimension).length = dimension := by
  simp only [leftTies, rightTies, List.length_cons, List.length_append, List.length_replicate]
  omega

/-- The ties are comparable. -/
theorem comparable_ties {dimension : ℕ} (h : 90 ≤ dimension) (hmax : dimension ≤ maxDimension) :
    Comparable dimension (leftTies dimension) (rightTies dimension) := by
  obtain ⟨hla, hlb⟩ := length_ties h
  have hfinite : ∀ x ∈ [Half.one, ⟨0x2120⟩, ⟨0x3c30⟩, ⟨0x2160⟩, Half.zero], x.isFinite = true := by
    decide
  constructor
  case dimension_pos => omega
  case dimension_le => exact hmax
  case length_left => exact hla.ge
  case length_right => exact hlb.ge
  case isFinite_left =>
    intro x hx
    refine hfinite x ?_
    have hmem := List.mem_of_mem_take hx
    simp only [leftTies, List.mem_cons, List.mem_append, List.mem_replicate] at hmem
    rcases hmem with rfl | ⟨-, rfl⟩ | ⟨-, rfl⟩ <;> simp
  case isFinite_right =>
    intro x hx
    refine hfinite x ?_
    have hmem := List.mem_of_mem_take hx
    simp only [rightTies, List.mem_cons, List.mem_append, List.mem_replicate] at hmem
    rcases hmem with rfl | ⟨-, rfl⟩ | ⟨-, rfl⟩ <;> simp
  case nonzero_left =>
    rw [List.take_of_length_le hla.le]
    exact ⟨Half.one, List.mem_cons_self, by decide +kernel⟩
  case nonzero_right =>
    rw [List.take_of_length_le hlb.le]
    exact ⟨⟨0x3c30⟩, List.mem_cons_self, by decide +kernel⟩

/-- A finite number of `n` double steps of `2 ^ -24`. -/
theorem exact_even {n : ℕ} (h : n < 2 ^ 24) :
    (finite false (n * 2 ^ 126) (represents_even h) : Single).exact = n / 2 ^ 23 := by
  rw [exact_finite, Format.quantum_single, div_eq_div_iff (by positivity) (by positivity)]
  simp only [signed, Bool.false_eq_true, if_false]
  push_cast
  ring

/-- The values of the sums over the ties. -/
theorem exact_tiedSums :
    tiedSums.dot.exact = 8860322 / 2 ^ 23 ∧ tiedSums.leftNorm.exact = 8463368 / 2 ^ 23 ∧
      tiedSums.rightNorm.exact = 9275708 / 2 ^ 23 :=
  ⟨exact_even (by decide), exact_even (by decide), exact_even (by decide)⟩

/-- The cosine of the ties is well beyond the range. -/
theorem lt_exact_of_encloses_tiedSums {s : Double} (henc : tiedSums.Encloses s) :
    1 + 1 / 10 ^ 5 + 1 / 10 ^ 8 < s.exact := by
  have hlower := henc.lower
  have hnonneg := henc.nonneg
  obtain ⟨hdot, hleft, hright⟩ := exact_tiedSums
  rw [hdot] at hnonneg
  rw [hdot, hleft, hright, Format.roundoff_double] at hlower
  have hs := hnonneg (by norm_num)
  refine lt_of_pow_lt_pow_left₀ 2 hs ?_
  norm_num at hlower ⊢
  linarith

end HalfKernels

/-! ## The distance -/

namespace Binary

/-- One is a number of the 64-bit format. -/
theorem ofNat_one : (ofNat 1 : Double).isFinite = true ∧ (ofNat 1 : Double).exact = 1 := by
  have hrep : Format.double.Represents (1 * 2 ^ Format.double.quantum) := by
    rw [Nat.one_mul]
    exact ⟨Format.double.fits_two_pow _, Nat.pow_lt_pow_right (by decide) (by decide)⟩
  rw [ofNat, ofRatio_of_represents false hrep]
  refine ⟨rfl, ?_⟩
  rw [exact_finite]
  generalize Format.double.quantum = q
  simp [signed]

/-- A cosine distance is one minus the cosine, rounded once. -/
theorem one_sub_approximates {s : Double} (hs : s.isFinite = true) (h : |s.exact| ≤ 3) :
    (ofNat 1 - s).isFinite = true ∧
      |(ofNat 1 - s).exact - (1 - s.exact)| ≤ |1 - s.exact| * (1 / 2 ^ 53) := by
  obtain ⟨hone, hval⟩ := ofNat_one
  have hreach : |(ofNat 1 : Double).exact + (-s).exact| < Format.double.reach := by
    rw [hval, exact_neg, Format.reach_double]
    have hle : |1 + -s.exact| ≤ 2 ^ 2 := by
      refine (abs_add_le _ _).trans ?_
      rw [abs_neg, abs_one]
      linarith
    exact hle.trans_lt (pow_lt_pow_right₀ one_lt_two (by norm_num))
  have happ := add_approximates hone (by rw [isFinite_neg]; exact hs) hreach
  rwa [hval, exact_neg, ← sub_eq_add_neg] at happ

end Binary

namespace HalfVector

/-- A cosine distance is computed from the cosine of the whole vectors. -/
theorem cosineDistance_of_similarity {r : Registry} {a b : HalfVector} {s : Double}
    (h : a.length = b.length) (hs : r.cosineSimilarity a.length a b = .ok s) :
    cosineDistance r a b = .ok (Binary.ofNat 1 - s) := by
  simp only [cosineDistance, commonDimension, if_pos h, Bind.bind, Except.bind, hs, pure,
    Except.pure]

end HalfVector

namespace Registry

open Binary HalfKernels

/-- The cosine of comparable vectors on a bound registry. -/
theorem cosineSimilarity_of_comparable (host : CapabilitySet) {dimension : ℕ} {a b : HalfVector}
    (h : Comparable dimension a b) :
    ∃ s, (fresh.bind host .portable).cosineSimilarity dimension a b = .ok s ∧
      (CosineSums.ofVectors (a.take dimension) (b.take dimension)).Encloses s ∧
      |s.exact| ≤ cosineBound dimension := by
  obtain ⟨s, hok, henc, hbound⟩ := h.similarity
  refine ⟨s, ?_, henc, hbound⟩
  rw [cosineSimilarity, onHalves_of_portable host _ h.dimension_pos h.dimension_le h.length_left
    h.length_right]
  exact hok

/-- The bound of every dimension in range is below three. -/
theorem cosineBound_le_three {dimension : ℕ} (h : dimension ≤ maxDimension) :
    cosineBound dimension ≤ 3 := by
  have hd : (dimension : ℚ) ≤ 16000 := by exact_mod_cast h
  unfold cosineBound
  norm_num
  linarith

/-- The ties have a cosine and a cosine distance beyond their ranges. -/
theorem cosine_ties (host : CapabilitySet) {dimension : ℕ} (h : 90 ≤ dimension)
    (hmax : dimension ≤ maxDimension) :
    ∃ s d, (fresh.bind host .portable).cosineSimilarity dimension (leftTies dimension)
        (rightTies dimension) = .ok s ∧ 1 + 1 / 10 ^ 5 < s.exact ∧
      HalfVector.cosineDistance (fresh.bind host .portable) (leftTies dimension)
        (rightTies dimension) = .ok d ∧ d.exact < -(1 / 10 ^ 5) := by
  obtain ⟨hla, hlb⟩ := length_ties h
  obtain ⟨s, hok, henc, hbound⟩ := cosineSimilarity_of_comparable host (comparable_ties h hmax)
  rw [List.take_of_length_le hla.le, List.take_of_length_le hlb.le,
    ofVectors_leftTies_rightTies h] at henc
  have hs := lt_exact_of_encloses_tiedSums henc
  obtain ⟨-, herr⟩ := one_sub_approximates henc.isFinite
    (hbound.trans (cosineBound_le_three hmax))
  have hdist := HalfVector.cosineDistance_of_similarity (hla.trans hlb.symm)
    (by rw [hla]; exact hok)
  refine ⟨s, _, hok, by linarith, hdist, ?_⟩
  rw [abs_of_neg (by linarith : 1 - s.exact < 0)] at herr
  have hhi := (abs_le.mp herr).2
  norm_num at hs hhi ⊢
  linarith

/-- The range of computed cosines. Comparable vectors have a finite cosine, at
most `cosineBound dimension` in size, which stays within `1 + 10 ^ -5` exactly
when the rounded dot product stays below `limit` times the rounded product of
the roots of the rounded norms. Up to 84 pairs it always does, and the cosine
distance of whole vectors stays within `10 ^ -5` of its range; from 90 pairs on
there are vectors for which neither does. -/
theorem cosine_range (host : CapabilitySet) :
    (∀ dimension a b, Comparable dimension a b →
      ∃ s, (fresh.bind host .portable).cosineSimilarity dimension a b = .ok s ∧
        s.isFinite = true ∧ |s.exact| ≤ 1 + (dimension - 1) / 8370000 + 1 / 2 ^ 50 ∧
        (|s.exact| ≤ 1 + 1 / 10 ^ 5 ↔
          |(CosineSums.ofVectors (a.take dimension) (b.take dimension)).dot.exact| <
            CosineSums.limit *
              (CosineSums.ofVectors (a.take dimension) (b.take dimension)).roots.exact) ∧
        (dimension ≤ 84 → |s.exact| ≤ 1 + 1 / 10 ^ 5 ∧
          (a.length = dimension → b.length = dimension →
            ∃ d, HalfVector.cosineDistance (fresh.bind host .portable) a b = .ok d ∧
              d.isFinite = true ∧ -(1 / 10 ^ 5) ≤ d.exact ∧ d.exact ≤ 2 + 1 / 10 ^ 5))) ∧
    (∀ dimension, 90 ≤ dimension → dimension ≤ maxDimension →
      ∃ a b s d, Comparable dimension a b ∧ a.length = dimension ∧ b.length = dimension ∧
        (fresh.bind host .portable).cosineSimilarity dimension a b = .ok s ∧
        1 + 1 / 10 ^ 5 < s.exact ∧
        HalfVector.cosineDistance (fresh.bind host .portable) a b = .ok d ∧
        d.exact < -(1 / 10 ^ 5)) := by
  constructor
  · intro dimension a b h
    obtain ⟨s, hok, henc, hbound⟩ := cosineSimilarity_of_comparable host h
    refine ⟨s, hok, henc.isFinite, hbound, henc.within_iff, fun hdim => ?_⟩
    have hs := hbound.trans (cosineBound_le hdim)
    refine ⟨by linarith, fun hla hlb => ?_⟩
    obtain ⟨hfin, herr⟩ := one_sub_approximates henc.isFinite (by linarith)
    refine ⟨_, HalfVector.cosineDistance_of_similarity (hla.trans hlb.symm)
      (by rw [hla]; exact hok), hfin, ?_⟩
    obtain ⟨hlo, hhi⟩ := abs_le.mp hs
    obtain ⟨hdlo, hdhi⟩ := abs_le.mp herr
    rcases le_total 0 (1 - s.exact) with hsign | hsign
    · rw [abs_of_nonneg hsign] at hdlo hdhi
      norm_num at hlo hhi hdlo hdhi ⊢
      exact ⟨by linarith, by linarith⟩
    · rw [abs_of_nonpos hsign] at hdlo hdhi
      norm_num at hlo hhi hdlo hdhi ⊢
      exact ⟨by linarith, by linarith⟩
  · intro dimension h hmax
    obtain ⟨hla, hlb⟩ := length_ties h
    obtain ⟨s, d, hs⟩ := cosine_ties host h hmax
    exact ⟨leftTies dimension, rightTies dimension, s, d, comparable_ties h hmax, hla, hlb, hs⟩

/-- The first 84 pairs of the ties, all but one of them rounded, stay within the ranges that all
90 leave. -/
theorem cosine_range_of_ties :
    ∃ s d, (fresh.bind .none .portable).cosineSimilarity 84 ((leftTies 90).take 84)
        ((rightTies 90).take 84) = .ok s ∧ |s.exact| ≤ 1 + 1 / 10 ^ 5 ∧
      HalfVector.cosineDistance (fresh.bind .none .portable) ((leftTies 90).take 84)
        ((rightTies 90).take 84) = .ok d ∧ -(1 / 10 ^ 5) ≤ d.exact ∧ d.exact ≤ 2 + 1 / 10 ^ 5 := by
  have h : Comparable 84 ((leftTies 90).take 84) ((rightTies 90).take 84) := by
    constructor <;> decide +kernel
  obtain ⟨s, hok, -, -, -, hle⟩ := (cosine_range .none).1 84 _ _ h
  obtain ⟨hs, hdistance⟩ := hle le_rfl
  obtain ⟨d, hd, -, hlo, hhi⟩ := hdistance (by decide) (by decide)
  exact ⟨s, d, hok, hs, hd, hlo, hhi⟩

/-- The range is not `1 + 10 ^ -5` for every dimension: 90 ties leave it. -/
theorem not_cosine_within_range :
    ¬∀ (host : CapabilitySet) (dimension : ℕ) (a b : HalfVector), Comparable dimension a b →
      ∃ s, (fresh.bind host .portable).cosineSimilarity dimension a b = .ok s ∧
        -1 - 1 / 10 ^ 5 ≤ s.exact ∧ s.exact ≤ 1 + 1 / 10 ^ 5 := by
  intro hwithin
  obtain ⟨s, d, hok, hlt, -⟩ := cosine_ties .none le_rfl (by decide : 90 ≤ maxDimension)
  obtain ⟨t, hok', -, hle⟩ := hwithin .none 90 _ _ (comparable_ties le_rfl (by decide))
  rw [hok] at hok'
  cases hok'
  exact absurd (hlt.trans_le hle) (lt_irrefl _)

end Registry

end VectorDistance
