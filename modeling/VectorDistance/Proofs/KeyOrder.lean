import Mathlib
import VectorDistance.HalfVector
import VectorDistance.Proofs.RoundingMonotone
import VectorDistance.Proofs.SpecialValues

/-!
# The order of vectors by their bits

Without its sign bit, a half that is not a NaN is larger the larger its bits are: the
bits run through the subnormal numbers, through every binade in turn and on to the
infinity without a gap. With the sign as the sign of a whole number, the bits are a key
that orders halves as the numbers they stand for, both zeros being one key. The order of
vectors is therefore the lexicographic order of their keys, from which its laws follow.
-/

namespace VectorDistance

/-- A larger exponent field, or a larger fraction under the same one, stands for a larger
magnitude, from the subnormal numbers into the first binade too. -/
theorem Format.magnitudeOfFields_lt (F : Format) {e f e' f' : ℕ} (hf : f < F.exponentWeight)
    (h : e < e' ∨ e = e' ∧ f < f') :
    F.magnitudeOfFields e f < F.magnitudeOfFields e' f' := by
  unfold magnitudeOfFields
  rcases h with hlt | ⟨rfl, hlt⟩
  · -- all of a binade lies below the least magnitude of the next one
    have hbelow : (if e = 0 then f else (F.exponentWeight + f) * 2 ^ (e - 1)) <
        F.exponentWeight * 2 ^ e := by
      split
      · next he =>
        rw [he, pow_zero, Nat.mul_one]
        exact hf
      · calc (F.exponentWeight + f) * 2 ^ (e - 1)
            < (2 * F.exponentWeight) * 2 ^ (e - 1) :=
              Nat.mul_lt_mul_of_pos_right (by omega) (Nat.two_pow_pos _)
          _ = F.exponentWeight * 2 ^ (e - 1 + 1) := by ring
          _ = F.exponentWeight * 2 ^ e := by rw [Nat.sub_add_cancel (by omega)]
    rw [if_neg (by omega : ¬e' = 0)]
    calc _ < F.exponentWeight * 2 ^ e := hbelow
      _ ≤ (F.exponentWeight + f') * 2 ^ (e' - 1) :=
        Nat.mul_le_mul (by omega) (Nat.pow_le_pow_right (by omega) (by omega))
  · split
    · exact hlt
    · exact Nat.mul_lt_mul_of_pos_right (by omega) (Nat.two_pow_pos _)

namespace Binary

/-- What grows strictly with sizes and keeps zero grows strictly under their signs. -/
theorem signed_map_lt {f : ℕ → ℕ} {sizes : Set ℕ} (hf : StrictMonoOn f sizes) (h0 : 0 ∈ sizes)
    (hzero : f 0 = 0) {m n : ℕ} (hm : m ∈ sizes) (hn : n ∈ sizes) {s t : Bool}
    (h : signed s m < signed t n) : signed s (f m) < signed t (f n) := by
  have hpos {k : ℕ} (hk : k ∈ sizes) : 0 < k → 0 < f k := by
    intro hlt
    rw [← hzero]
    exact hf h0 hk hlt
  have hnonneg (i : ℕ) : (0 : ℤ) ≤ i := Int.natCast_nonneg i
  cases s with
  | false =>
    cases t with
    | false => exact Int.ofNat_lt.mpr (hf hm hn (Int.ofNat_lt.mp h))
    | true =>
      change (m : ℤ) < -n at h
      omega
  | true =>
    cases t with
    | false =>
      -- one of the two sizes is not zero
      change -(m : ℤ) < n at h
      change -(f m : ℤ) < f n
      rcases Nat.eq_zero_or_pos m with hm0 | hm0
      · have := hpos hn (by omega)
        omega
      · have := hpos hm hm0
        omega
    | true =>
      change -(m : ℤ) < -n at h
      exact Int.neg_lt_neg (Int.ofNat_lt.mpr (hf hn hm (by omega)))

/-- So it keeps the order of any two signed sizes. -/
theorem compare_signed_map {f : ℕ → ℕ} {sizes : Set ℕ} (hf : StrictMonoOn f sizes)
    (h0 : 0 ∈ sizes) (hzero : f 0 = 0) {m n : ℕ} (hm : m ∈ sizes) (hn : n ∈ sizes) (s t : Bool) :
    Ord.compare (signed s (f m)) (signed t (f n)) = Ord.compare (signed s m) (signed t n) := by
  rcases lt_trichotomy (signed s m) (signed t n) with hlt | heq | hgt
  · rw [compare_lt_iff_lt.mpr hlt,
      compare_lt_iff_lt.mpr (signed_map_lt hf h0 hzero hm hn hlt)]
  · have hsizes : m = n := by rw [← natAbs_signed s m, heq, natAbs_signed]
    subst hsizes
    have hsame : signed s (f m) = signed t (f m) := by
      rcases eq_zero_or_eq_of_signed_eq heq with rfl | rfl
      · rw [hzero, heq]
      · rfl
    rw [compare_eq_iff_eq.mpr heq, compare_eq_iff_eq.mpr hsame]
  · rw [compare_gt_iff_gt.mpr hgt,
      compare_gt_iff_gt.mpr (signed_map_lt hf h0 hzero hn hm hgt)]

end Binary

namespace Half

/-! ## Keys -/

/-- The bits of a half without its sign bit. -/
def unsignedBits (h : Half) : ℕ :=
  (h.bits &&& 0x7fff).toNat

/-- The bits of a half without its sign bit, negated if that is set. -/
def key (h : Half) : ℤ :=
  Binary.signed h.isNegative h.unsignedBits

/-- The bits below the sign are the two other fields. -/
theorem unsignedBits_eq (h : Half) : h.unsignedBits = 1024 * h.exponentField + h.fraction := by
  have hmask : h.unsignedBits = h.bits.toNat % 2 ^ 15 := by
    rw [unsignedBits, UInt16.toNat_and]
    exact Nat.and_two_pow_sub_one_eq_mod _ 15
  rw [hmask, exponentField, fraction]
  omega

/-- What is not a NaN has no bits beyond those of infinity. -/
theorem unsignedBits_le {h : Half} (hn : h.isNaN = false) : h.unsignedBits ≤ 0x7c00 := by
  have he := h.exponentField_lt
  have hf := h.fraction_lt
  have hinf : h.exponentField = 31 → h.fraction = 0 := by
    simpa only [isNaN, Bool.and_eq_false_iff, beq_eq_false_iff_ne, bne_eq_false_iff_eq,
      ← imp_iff_not_or] using hn
  rw [unsignedBits_eq]
  omega

/-- Finite halves are those with fewer bits than infinity. -/
theorem unsignedBits_lt_iff {h : Half} : h.unsignedBits < 0x7c00 ↔ h.isFinite = true := by
  have he := h.exponentField_lt
  have hf := h.fraction_lt
  rw [unsignedBits_eq, isFinite, bne_iff_ne]
  omega

/-- The size of the rank of a decoded half, from its bits without the sign. -/
def decodedSize (bits : ℕ) : ℕ :=
  if bits < 0x7c00 then Format.half.magnitudeOfFields (bits / 1024) (bits % 1024) * 2 ^ 125
  else 2 ^ Format.single.capacity

/-- Zero bits are decoded to zero. -/
theorem decodedSize_zero : decodedSize 0 = 0 := rfl

/-- Up to those of infinity, more bits are decoded to a larger size. -/
theorem decodedSize_strictMonoOn : StrictMonoOn decodedSize (Set.Iic 0x7c00) := by
  intro m _ n hn hlt
  have hn' : n ≤ 0x7c00 := hn
  have hw : Format.half.exponentWeight = 1024 := by decide
  have hfraction : m % 1024 < Format.half.exponentWeight := by omega
  unfold decodedSize
  rw [if_pos (by omega : m < 0x7c00)]
  split
  · refine Nat.mul_lt_mul_of_pos_right ?_ (Nat.two_pow_pos _)
    exact Format.half.magnitudeOfFields_lt hfraction (by omega)
  · have hl : Format.half.exponentLimit = 31 := by decide
    exact (Format.half_embedsIn_single.represents
      (Format.half.represents_magnitudeOfFields (by omega) hfraction)).2

/-- A finite half is decoded to its sign and the size that belongs to its bits. -/
theorem exists_decode_eq_decodedSize {h : Half} (hf : h.isFinite = true) :
    ∃ hr, h.decode = .finite h.isNegative (decodedSize h.unsignedBits) hr := by
  have hfraction := h.fraction_lt
  obtain ⟨hr, hd⟩ := decode_of_isFinite hf
  have hsize : Format.half.magnitudeOfFields h.exponentField h.fraction * 2 ^ 125 =
      decodedSize h.unsignedBits := by
    rw [decodedSize, if_pos (unsignedBits_lt_iff.mpr hf), unsignedBits_eq]
    congr 2
    · omega
    · omega
  rw [hd]
  exact ⟨hsize ▸ hr, Binary.finite_congr hsize⟩

/-- The rank of a decoded half has its sign and the size that belongs to its bits. -/
theorem rank_decode {h : Half} (hn : h.isNaN = false) :
    h.decode.rank = some (Binary.signed h.isNegative (decodedSize h.unsignedBits)) := by
  by_cases hf : h.isFinite = true
  · obtain ⟨hr, hd⟩ := exists_decode_eq_decodedSize hf
    rw [hd]
    rfl
  · have hi := isInfinite_iff.mpr ⟨hn, Bool.eq_false_of_not_eq_true hf⟩
    rw [decode_of_isInfinite hi, decodedSize, if_neg (mt unsignedBits_lt_iff.mp hf)]
    rfl

/-- Halves are ordered as their keys once they are decoded, unless one is a NaN. -/
theorem compare?_decode (x y : Half) :
    x.decode.compare? y.decode =
      if x.isNaN || y.isNaN then none else some (Ord.compare x.key y.key) := by
  split
  · next hnan =>
    rw [Bool.or_eq_true, ← x.isNaN_decode, ← y.isNaN_decode, ← Binary.rank_eq_none_iff,
      ← Binary.rank_eq_none_iff] at hnan
    unfold Binary.compare?
    rcases hnan with hx | hy
    · rw [hx]
    · rw [hy]
      cases x.decode.rank <;> rfl
  · next hnum =>
    rw [Bool.not_eq_true, Bool.or_eq_false_iff] at hnum
    rw [Binary.compare?, rank_decode hnum.1, rank_decode hnum.2]
    exact congrArg some (Binary.compare_signed_map decodedSize_strictMonoOn (Nat.zero_le _)
      decodedSize_zero (unsignedBits_le hnum.1) (unsignedBits_le hnum.2) _ _)

end Half

namespace HalfVector

/-! ## Vectors -/

/-- The pairs of elements of which neither is a NaN. -/
def numberPairs (a b : HalfVector) : List (Half × Half) :=
  (a.zip b).filter fun p => !(p.1.isNaN || p.2.isNaN)

/-- The order of two vectors is that of the keys where both have a number. -/
theorem lexicographic_eq_compareLex (a b : HalfVector) :
    lexicographic a b = List.compareLex Ord.compare ((numberPairs a b).map fun p => p.1.key)
      ((numberPairs a b).map fun p => p.2.key) := by
  induction a generalizing b with
  | nil => rfl
  | cons x a ih =>
    cases b with
    | nil => rfl
    | cons y b =>
      unfold numberPairs at ih ⊢
      rw [lexicographic, Half.compare?_decode, List.zip_cons_cons, List.filter_cons, ih]
      cases hnan : x.isNaN || y.isNaN with
      | true => simp only [if_true, Bool.not_true, Bool.false_eq_true, if_false]
      | false =>
        simp only [Bool.false_eq_true, if_false, Bool.not_false, if_true, List.map_cons,
          List.compareLex_cons_cons]
        cases Ord.compare x.key y.key <;> rfl

/-- Vectors of one dimension are ordered, as their elements are. -/
theorem compare_of_length_eq {a b : HalfVector} (h : a.length = b.length) :
    compare a b = .ok (lexicographic a b) := by
  rw [compare, commonDimension, if_pos h]
  rfl

/-- Vectors of different dimensions are not. -/
theorem length_eq_of_compare {a b : HalfVector} {order : Ordering} (h : compare a b = .ok order) :
    a.length = b.length ∧ lexicographic a b = order := by
  by_cases hlen : a.length = b.length
  · rw [compare_of_length_eq hlen] at h
    exact ⟨hlen, Except.ok.inj h⟩
  · rw [compare, commonDimension, if_neg hlen] at h
    cases h

/-- Turned around, the pairs of numbers are the same. -/
theorem numberPairs_swap (a b : HalfVector) :
    numberPairs b a = (numberPairs a b).map Prod.swap := by
  unfold numberPairs
  rw [← List.zip_swap a b, List.filter_map]
  congr 2
  funext p
  simp only [Function.comp_apply, Prod.fst_swap, Prod.snd_swap, Bool.or_comm]

/-- The order of two vectors turns around with them. -/
theorem lexicographic_swap (a b : HalfVector) :
    lexicographic b a = (lexicographic a b).swap := by
  rw [lexicographic_eq_compareLex, lexicographic_eq_compareLex, numberPairs_swap, List.map_map,
    List.map_map]
  exact Std.OrientedCmp.eq_swap

/-- Vectors after equally long ones decide only what these leave open. -/
theorem lexicographic_append {a b : HalfVector} (h : a.length = b.length) (c d : HalfVector) :
    lexicographic (a ++ c) (b ++ d) = (lexicographic a b).then (lexicographic c d) := by
  induction a generalizing b with
  | nil =>
    obtain rfl : b = [] := List.length_eq_zero_iff.mp h.symm
    rfl
  | cons x a ih =>
    cases b with
    | nil => cases h
    | cons y b =>
      rw [List.cons_append, List.cons_append, lexicographic, lexicographic,
        ih (Nat.succ.inj h)]
      cases x.decode.compare? y.decode with
      | none => rfl
      | some order => cases order <;> rfl

section Numbers

variable {a b : HalfVector} (ha : ∀ h ∈ a, h.isNaN = false) (hb : ∀ h ∈ b, h.isNaN = false)
  (hlen : a.length = b.length)
include ha hb hlen

/-- Vectors without NaNs are ordered as their keys. -/
theorem lexicographic_of_numbers :
    lexicographic a b = List.compareLex Ord.compare (a.map Half.key) (b.map Half.key) := by
  have hall : numberPairs a b = a.zip b := by
    refine List.filter_eq_self.mpr fun p hp => ?_
    obtain ⟨hl, hr⟩ := List.of_mem_zip hp
    rw [ha _ hl, hb _ hr]
    rfl
  rw [lexicographic_eq_compareLex, hall, HalfKernels.map_zip_left hlen,
    HalfKernels.map_zip_right hlen]

/-- They are equal in this order exactly if their elements are equal as numbers. -/
theorem lexicographic_eq_iff : lexicographic a b = .eq ↔
    List.Forall₂ (fun x y => x.decode.compare? y.decode = some .eq) a b := by
  rw [lexicographic_of_numbers ha hb hlen, Std.LawfulEqCmp.compare_eq_iff_eq]
  induction a generalizing b with
  | nil =>
    obtain rfl : b = [] := List.length_eq_zero_iff.mp hlen.symm
    exact iff_of_true rfl .nil
  | cons x a ih =>
    cases b with
    | nil => cases hlen
    | cons y b =>
      obtain ⟨hx, ha⟩ := List.forall_mem_cons.mp ha
      obtain ⟨hy, hb⟩ := List.forall_mem_cons.mp hb
      rw [List.map_cons, List.map_cons, List.cons.injEq, List.forall₂_cons,
        ih ha hb (Nat.succ.inj hlen), Half.compare?_decode, hx, hy]
      simp only [Bool.or_self, Bool.false_eq_true, if_false, Option.some.injEq, compare_eq_iff_eq]

end Numbers

/-- The first vector comes no later than the second one, which is of its dimension. -/
def Precedes (a b : HalfVector) : Prop :=
  ∃ order, compare a b = .ok order ∧ order.isLE = true

/-- What the order of vectors obeys, whatever their dimension and their elements. -/
structure OrderLaws : Prop where
  /-- Vectors of one dimension are ordered by the first keys that differ, at the positions
  where neither has a NaN. -/
  by_keys : ∀ a b : HalfVector, a.length = b.length →
    compare a b = .ok (List.compareLex Ord.compare ((numberPairs a b).map fun p => p.1.key)
      ((numberPairs a b).map fun p => p.2.key))
  /-- The other way round they have the reverse order. -/
  reverse : ∀ a b : HalfVector, a.length = b.length →
    compare b a = (compare a b).map Ordering.swap
  /-- One of them comes no later than the other. -/
  total : ∀ a b : HalfVector, a.length = b.length → Precedes a b ∨ Precedes b a
  /-- Among vectors without NaNs the order is transitive. -/
  trans : ∀ a b c : HalfVector, (∀ h ∈ a, h.isNaN = false) → (∀ h ∈ b, h.isNaN = false) →
    (∀ h ∈ c, h.isNaN = false) → Precedes a b → Precedes b c → Precedes a c
  /-- There, vectors are equal in it exactly if all their elements are equal numbers, as
  zeros of both signs are. -/
  eq_iff : ∀ a b : HalfVector, (∀ h ∈ a, h.isNaN = false) → (∀ h ∈ b, h.isNaN = false) →
    (compare a b = .ok .eq ↔
      List.Forall₂ (fun x y => x.decode.compare? y.decode = some .eq) a b)
  /-- Joined vectors are ordered by their fronts, and by what follows if these are equal. -/
  joined : ∀ a b c d : HalfVector, a.length = b.length → c.length = d.length →
    a.length + c.length ≤ maxDimension → ∃ left right, concat a c = .ok left ∧
      concat b d = .ok right ∧
      (compare a b = .ok .eq → compare left right = compare c d) ∧
      (compare a b ≠ .ok .eq → compare left right = compare a b)

/-- The order of vectors is the lexicographic order of their keys and has its laws. -/
theorem order_laws : OrderLaws where
  by_keys a b hlen := by rw [compare_of_length_eq hlen, lexicographic_eq_compareLex]
  reverse a b hlen := by
    rw [compare_of_length_eq hlen, compare_of_length_eq hlen.symm, lexicographic_swap]
    rfl
  total a b hlen := by
    cases horder : (lexicographic a b).isLE with
    | true => exact .inl ⟨_, compare_of_length_eq hlen, horder⟩
    | false =>
      refine .inr ⟨_, compare_of_length_eq hlen.symm, ?_⟩
      rw [lexicographic_swap]
      revert horder
      cases lexicographic a b <;> decide
  trans a b c ha hb hc hab hbc := by
    obtain ⟨_, hab, hle⟩ := hab
    obtain ⟨_, hbc, hle'⟩ := hbc
    obtain ⟨hlen, rfl⟩ := length_eq_of_compare hab
    obtain ⟨hlen', rfl⟩ := length_eq_of_compare hbc
    refine ⟨_, compare_of_length_eq (hlen.trans hlen'), ?_⟩
    rw [lexicographic_of_numbers ha hb hlen] at hle
    rw [lexicographic_of_numbers hb hc hlen'] at hle'
    rw [lexicographic_of_numbers ha hc (hlen.trans hlen')]
    exact Std.TransCmp.isLE_trans hle hle'
  eq_iff a b ha hb := by
    constructor
    · intro heq
      obtain ⟨hlen, horder⟩ := length_eq_of_compare heq
      exact (lexicographic_eq_iff ha hb hlen).mp horder
    · intro hall
      rw [compare_of_length_eq hall.length_eq,
        (lexicographic_eq_iff ha hb hall.length_eq).mpr hall]
  joined a b c d hab hcd hmax := by
    refine ⟨a ++ c, b ++ d, concat_eq_ok_iff.mpr ⟨hmax, rfl⟩,
      concat_eq_ok_iff.mpr ⟨by omega, rfl⟩, ?_⟩
    have hlen : (a ++ c).length = (b ++ d).length := by
      rw [List.length_append, List.length_append, hab, hcd]
    rw [compare_of_length_eq hlen, compare_of_length_eq hab, compare_of_length_eq hcd,
      lexicographic_append hab, Ne, Except.ok.injEq]
    cases lexicographic a b <;> simp [Ordering.then]

/-- A NaN across from an infinity and zeros of both signs leave the last elements to decide,
the least positive half against minus infinity; zeros alone are equal, and from minus
infinity the order leads over them to the least positive half. -/
theorem order_laws_zeros :
    compare [Half.canonicalNaN, Half.negZero, Half.leastPositive]
        [Half.infinity, Half.zero, Half.negInfinity] = .ok .gt ∧
      compare [Half.negZero] [Half.zero] = .ok .eq ∧
      Precedes [Half.negInfinity] [Half.leastPositive] ∧
      ∃ left right, concat [Half.negZero] [Half.one] = .ok left ∧
        concat [Half.zero] [Half.largest] = .ok right ∧ compare left right = .ok .lt := by
  have hzeros : compare [Half.negZero] [Half.zero] = .ok .eq :=
    (order_laws.eq_iff _ _ (by decide) (by decide)).mpr (.cons (by decide +kernel) .nil)
  refine ⟨?_, hzeros, ?_, ?_⟩
  · exact (order_laws.by_keys _ _ (by decide)).trans (by decide +kernel)
  · exact order_laws.trans _ [Half.zero] _ (by decide) (by decide) (by decide)
      ⟨.lt, by decide +kernel, rfl⟩ ⟨.lt, by decide +kernel, rfl⟩
  · obtain ⟨left, right, hleft, hright, heq, -⟩ :=
      order_laws.joined [Half.negZero] [Half.zero] [Half.one] [Half.largest] rfl rfl (by decide)
    refine ⟨left, right, hleft, hright, (heq hzeros).trans ?_⟩
    decide +kernel

end HalfVector

end VectorDistance
