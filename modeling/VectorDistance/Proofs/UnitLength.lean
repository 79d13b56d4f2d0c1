import Mathlib
import VectorDistance.Proofs.ScaledElements

/-!
# Vectors of unit length

The squared norm is close to the exact sum of squares, up to the dimension to which the
kernels are accurate, and the square of a scaled element is close to that of the quotient
by the norm, relative to its size and up to the square of the least number that is not
flushed. Summed over the elements, the squares of the scaled elements end within a part
in `2 ^ 8` of one.
-/

namespace VectorDistance

namespace HalfVector

open Binary

/-! ## Sums of squares -/

/-- The exact sum of the squares of the elements. -/
def squareSum (v : HalfVector) : ℚ :=
  (v.map fun h => h.decode.exact ^ 2).sum

/-- The square of a scaled element is near that of its quotient. -/
theorem abs_sq_sub_sq_le {t y : ℚ}
    (h : (|t| < 1 / 2 ^ 13 ∧ y = 0) ∨ |y - t| ≤ |t| * (3 / 2 ^ 12)) :
    |y ^ 2 - t ^ 2| ≤ t ^ 2 * (1 / 2 ^ 9) + 1 / 2 ^ 26 := by
  have hnonneg := sq_nonneg t
  rcases h with ⟨ht, rfl⟩ | hnear
  · have hsmall : |t| ^ 2 ≤ (1 / 2 ^ 13) ^ 2 := pow_le_pow_left₀ (abs_nonneg t) ht.le 2
    rw [sq_abs] at hsmall
    rw [zero_pow two_ne_zero, zero_sub, abs_neg, abs_of_nonneg hnonneg]
    norm_num at hsmall ⊢
    linarith
  · have hsum : |y + t| ≤ |t| * (2 + 3 / 2 ^ 12) := by
      have hsplit := abs_add_le (y - t) (2 * t)
      have htwice : y - t + 2 * t = y + t := by ring
      rw [htwice, abs_mul, abs_two] at hsplit
      linarith
    calc |y ^ 2 - t ^ 2| = |y - t| * |y + t| := by rw [← abs_mul]; ring_nf
      _ ≤ |t| * (3 / 2 ^ 12) * (|t| * (2 + 3 / 2 ^ 12)) :=
          mul_le_mul hnear hsum (abs_nonneg _) (by positivity)
      _ = t ^ 2 * (3 / 2 ^ 12 * (2 + 3 / 2 ^ 12)) := by rw [← sq_abs t]; ring
      _ ≤ t ^ 2 * (1 / 2 ^ 9) + 1 / 2 ^ 26 := by norm_num; linarith

/-- The exact sum of the products of a vector with itself. -/
theorem exactSum_self (v : HalfVector) :
    HalfKernels.exactSum (fun x y => x * y) v v = squareSum v ∧
      HalfKernels.exactSum (fun x y => |x * y|) v v = squareSum v := by
  simp only [HalfKernels.exactSum, List.zipWith_self, squareSum, abs_mul_abs_self, abs_mul, sq,
    and_self]

variable {v : HalfVector} (hv : ∀ h ∈ v, h.isFinite = true) (hne : ¬v.IsZeros)
  (hlen : v.length ≤ maxDimension)
include hv hne hlen

/-- The exact sum of squares is close to the square of the norm. -/
theorem abs_squareSum_sub_norm_sq_le :
    |squareSum v / (norm v).exact ^ 2 - 1| ≤ 1 / 900 := by
  obtain ⟨m, hm, hsum, hpos, -⟩ := exists_squaredNorm_eq hv hne
  have hval := exact_toDouble (squaredNorm v)
  have hfin : (squaredNorm v).toDouble.isFinite = true :=
    (isFinite_toDouble _).trans (squaredNorm_le hv).1
  have hsquared : 0 < (squaredNorm v).exact := hsum ▸ AtLeast.exact_pos (.finite hm hpos) rfl
  obtain ⟨-, -, hlo, hhi⟩ := sqrt_bounds (by decide) (by decide) hfin (hval ▸ hsquared)
  -- the squared norm is the inner product of the vector with itself
  obtain ⟨-, hacc, -⟩ := HalfKernels.innerProduct_accurate
    (by rw [List.length_zip, Nat.min_self]; exact hlen) (HalfKernels.finitePair_of_mem_zip hv hv)
  obtain ⟨hdot, hsizes⟩ := exactSum_self v
  rw [HalfKernels.innerProduct_self, hdot, hsizes] at hacc
  obtain ⟨-, hnorm, -⟩ := norm_bounds hv hne
  have hsq : 0 < (norm v).exact ^ 2 := pow_pos hnorm 2
  rw [hval, Format.roundoff_double] at hlo hhi
  change _ ≤ (norm v).exact ^ 2 * _ at hlo
  change (norm v).exact ^ 2 * _ ≤ _ at hhi
  rw [div_sub_one hsq.ne', abs_div, abs_of_pos hsq, div_le_iff₀ hsq, abs_le]
  obtain ⟨hacclo, hacchi⟩ := abs_le.mp hacc
  norm_num at hlo hhi hacclo hacchi ⊢
  constructor <;> linarith

/-- The squares of the scaled elements add up to about one. -/
theorem abs_squareSum_map_scaleElement_sub_one_le :
    |squareSum (v.map (scaleElement (norm v))) - 1| ≤ 1 / 256 := by
  have hterms : ∀ h ∈ v, |(scaleElement (norm v) h).decode.exact ^ 2 -
      (h.decode.exact / (norm v).exact) ^ 2| ≤
        (h.decode.exact / (norm v).exact) ^ 2 * (1 / 2 ^ 9) + 1 / 2 ^ 26 :=
    fun h hh => abs_sq_sub_sq_le (scaleElement_near hv hne hh)
  have hsum := abs_sum_sub_sum_le hterms
  have hquotients : (v.map fun h => (h.decode.exact / (norm v).exact) ^ 2).sum =
      squareSum v / (norm v).exact ^ 2 := by
    simp only [squareSum, div_pow]
    simp only [div_eq_mul_inv, List.sum_map_mul_right]
  have hsquares : (v.map fun h => (scaleElement (norm v) h).decode.exact ^ 2).sum =
      squareSum (v.map (scaleElement (norm v))) := by
    rw [squareSum, List.map_map]
    rfl
  rw [List.sum_map_add, List.sum_map_mul_right, List.map_const', List.sum_replicate,
    nsmul_eq_mul, hquotients, hsquares] at hsum
  have hnorm := abs_squareSum_sub_norm_sq_le hv hne hlen
  have hcount : (v.length : ℚ) ≤ 16000 := by exact_mod_cast hlen
  have hsplit := abs_sub_le (squareSum (v.map (scaleElement (norm v))))
    (squareSum v / (norm v).exact ^ 2) 1
  have hhi := (abs_le.mp hnorm).2
  norm_num at hsum hsplit ⊢
  linarith

omit hv hne hlen

/-! ## Scaling to unit length -/

/-- What scaling to unit length makes of a vector: elements of the same signs and in the
same order of size, none above one, whose squares add up to one within a part in `2 ^ 8`. -/
structure IsDirectionOf (u v : HalfVector) : Prop where
  /-- There are as many elements. -/
  length_eq : u.length = v.length
  /-- Every element is finite. -/
  isFinite : ∀ h ∈ u, h.isFinite = true
  /-- No element is larger than one. -/
  abs_le_one : ∀ h ∈ u, |h.decode.exact| ≤ 1
  /-- Every element has the sign of the one it comes from, zeros included. -/
  isNegative_eq : ∀ (i : ℕ) (h x : Half), u[i]? = some h → v[i]? = some x →
    h.isNegative = x.isNegative
  /-- Of two elements, the one from the larger one is no smaller. -/
  abs_mono : ∀ (i j : ℕ) (g h x y : Half), u[i]? = some g → u[j]? = some h →
    v[i]? = some x → v[j]? = some y → |x.decode.exact| ≤ |y.decode.exact| →
    |g.decode.exact| ≤ |h.decode.exact|
  /-- Up to the largest dimension the squares add up to about one. -/
  squareSum_near : v.length ≤ maxDimension → |squareSum u - 1| ≤ 1 / 256

/-- Scaling to unit length keeps signs and the order of sizes, and reaches it. -/
theorem exists_normalize_isDirectionOf {v : HalfVector} (hv : ∀ h ∈ v, h.isFinite = true)
    (hne : ¬v.IsZeros) : ∃ u, normalize v = .ok u ∧ IsDirectionOf u v := by
  obtain ⟨scaled, hmono, helements⟩ := exists_monotone_scaleElement hv hne
  have hsource {i : ℕ} {h x : Half} (hh : (v.map (scaleElement (norm v)))[i]? = some h)
      (hx : v[i]? = some x) : scaleElement (norm v) x = h := by
    rw [List.getElem?_map, hx, Option.map_some] at hh
    exact Option.some.inj hh
  refine ⟨v.map (scaleElement (norm v)), ?_, List.length_map _, ?_, ?_, ?_, ?_, fun hlen => ?_⟩
  · rw [normalize_eq, if_neg (mt isZero_norm_iff.mp hne)]
  · refine List.forall_mem_map.mpr fun h hh => ?_
    obtain ⟨_, -, -, hfin, -⟩ := helements h hh
    exact hfin
  · refine List.forall_mem_map.mpr fun h hh => ?_
    obtain ⟨m, -, hle, -, -, habs⟩ := helements h hh
    rw [habs, div_le_one (by positivity)]
    exact_mod_cast hle
  · intro i h x hh hx
    obtain ⟨_, -, -, -, hsign, -⟩ := helements x (List.mem_of_getElem? hx)
    rwa [hsource hh hx] at hsign
  · intro i j g h x y hg hh hx hy hle
    obtain ⟨m, hm, -, -, -, habsx⟩ := helements x (List.mem_of_getElem? hx)
    obtain ⟨n, hn, -, -, -, habsy⟩ := helements y (List.mem_of_getElem? hy)
    rw [hm, hn, div_le_div_iff_of_pos_right (by positivity)] at hle
    rw [← hsource hg hx, ← hsource hh hy, habsx, habsy,
      div_le_div_iff_of_pos_right (by positivity)]
    exact Nat.cast_le.mpr (hmono (Nat.cast_le.mp hle))
  · exact abs_squareSum_map_scaleElement_sub_one_le hv hne hlen

/-- The smallest and the largest half and a negative zero have a vector of unit length. -/
theorem exists_normalize_isDirectionOf_extremes :
    ∃ u, normalize [Half.leastPositive, Half.largest, Half.negZero] = .ok u ∧
      IsDirectionOf u [Half.leastPositive, Half.largest, Half.negZero] :=
  exists_normalize_isDirectionOf (by decide) (by decide)

end HalfVector

end VectorDistance
