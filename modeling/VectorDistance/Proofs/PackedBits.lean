import Mathlib
import VectorDistance.BitVector
import VectorDistance.Proofs.BitAccumulation

/-!
# Packed flags

The kernels count the positions of a buffer from the least significant bit of every
byte on, while flags are packed from the most significant one on. The two orders
mirror each other within every byte, so that positions can be counted in either.
Packed flags come back at their own indices, and whatever lies past the last one is
clear: buffers of packed flags are counted as the flags themselves.
-/

namespace VectorDistance

namespace BitVector

open BitKernels

/-! ## Indices and positions -/

/-- The flag at an index of a buffer, the most significant bit of each byte first. -/
def flagAt (bytes : List UInt8) (index : ℕ) : Bool :=
  bitOfByte (bytes.getD (index / 8) 0) (index % 8)

/-- The position of the flag at an index, and the index of the flag at a position. -/
def mirror (index : ℕ) : ℕ :=
  8 * (index / 8) + (7 - index % 8)

/-- A flag is the bit at the mirrored position. -/
theorem flagAt_eq_bitAt (bytes : List UInt8) (index : ℕ) :
    flagAt bytes index = bitAt bytes (mirror index) := by
  have hdiv : mirror index / 8 = index / 8 := by
    unfold mirror
    omega
  have hmod : mirror index % 8 = 7 - index % 8 := by
    unfold mirror
    omega
  rw [flagAt, bitOfByte, bitAt, hdiv, hmod]

/-- Mirroring twice changes nothing. -/
theorem mirror_mirror (index : ℕ) : mirror (mirror index) = index := by
  unfold mirror
  omega

/-- No index is mirrored out of the bytes it lies in. -/
theorem mirror_lt {index bytes : ℕ} (h : index < 8 * bytes) : mirror index < 8 * bytes := by
  unfold mirror
  omega

/-- The indices of a buffer are its positions in another order. -/
theorem map_mirror_range (bytes : ℕ) :
    ((List.range (8 * bytes)).map mirror).Perm (List.range (8 * bytes)) := by
  have hinj : Function.Injective mirror := Function.LeftInverse.injective mirror_mirror
  rw [List.perm_ext_iff_of_nodup (List.nodup_range.map hinj) List.nodup_range]
  intro i
  rw [List.mem_map, List.mem_range]
  constructor
  · rintro ⟨j, hj, rfl⟩
    exact mirror_lt (List.mem_range.mp hj)
  · intro hi
    exact ⟨mirror i, List.mem_range.mpr (mirror_lt hi), mirror_mirror i⟩

/-- Pairs of bits are counted over indices as well as over positions. -/
theorem countBits_eq_countP_flagAt (combine : Bool → Bool → Bool) (a b : List UInt8) :
    countBits combine a b =
      (List.range (8 * a.length)).countP fun i => combine (flagAt a i) (flagAt b i) := by
  rw [countBits, ← (map_mirror_range a.length).countP_eq, List.countP_map]
  exact List.countP_congr fun i _ => by
    rw [flagAt_eq_bitAt, flagAt_eq_bitAt, Function.comp_apply]

/-! ## Packing -/

/-- Without weight nothing is weighed. -/
theorem weighBits_zero (flags : List Bool) : weighBits 0 flags = 0 := by
  induction flags with
  | nil => rfl
  | cons flag flags ih => rw [weighBits, Nat.zero_div, ih, ite_self]

/-- The last weight is left to one flag. -/
theorem weighBits_one_cons (flag : Bool) (flags : List Bool) :
    weighBits 1 (flag :: flags) = flag.toNat := by
  have hhalf : 1 / 2 = 0 := rfl
  rw [weighBits, hhalf, weighBits_zero]
  cases flag <;> rfl

/-- The first flag weighs the bit above those of all others. -/
theorem weighBits_cons_succ (top : ℕ) (flag : Bool) (flags : List Bool) :
    weighBits (2 ^ (top + 1)) (flag :: flags) =
      2 ^ (top + 1) * flag.toNat + weighBits (2 ^ top) flags := by
  have hhalf : 2 ^ (top + 1) / 2 = 2 ^ top := by rw [pow_succ, Nat.mul_div_cancel _ (by omega)]
  rw [weighBits, hhalf]
  cases flag <;> simp

/-- Flags weighed from `2 ^ top` on stay below twice that weight. -/
theorem weighBits_lt (top : ℕ) (flags : List Bool) : weighBits (2 ^ top) flags < 2 ^ (top + 1) := by
  induction top generalizing flags with
  | zero =>
    cases flags with
    | nil => decide
    | cons flag flags =>
      rw [pow_zero, weighBits_one_cons]
      exact flag.toNat_lt
  | succ top ih =>
    cases flags with
    | nil => exact Nat.two_pow_pos _
    | cons flag flags =>
      have hrest := ih flags
      rw [weighBits_cons_succ, pow_succ 2 (top + 1)]
      have hhead := Nat.mul_le_mul_left (2 ^ (top + 1)) flag.toNat_le
      omega

/-- Weighing sets the bit of each flag, from bit `top` on downwards. -/
theorem testBit_weighBits {top i : ℕ} (flags : List Bool) (hi : i ≤ top) :
    (weighBits (2 ^ top) flags).testBit i = flags.getD (top - i) false := by
  induction top generalizing flags with
  | zero =>
    obtain rfl : i = 0 := Nat.le_zero.mp hi
    cases flags with
    | nil => rfl
    | cons flag flags =>
      rw [pow_zero, weighBits_one_cons]
      cases flag <;> rfl
  | succ top ih =>
    cases flags with
    | nil => rw [weighBits, Nat.zero_testBit, List.getD_nil]
    | cons flag flags =>
      rw [weighBits_cons_succ, Nat.testBit_two_pow_mul_add _ (weighBits_lt top flags)]
      rcases Nat.lt_or_ge i (top + 1) with h | h
      · have hindex : top + 1 - i = top - i + 1 := by omega
        rw [if_pos h, ih flags (by omega), hindex, List.getD_cons_succ]
      · obtain rfl : i = top + 1 := by omega
        rw [if_neg (Nat.lt_irrefl _), Nat.sub_self, List.getD_cons_zero]
        cases flag <;> rfl

/-- The flag at an index of a packed byte. -/
theorem bitOfByte_weighBits (flags : List Bool) {i : ℕ} (hi : i < 8) :
    bitOfByte (weighBits 0x80 flags).toUInt8 i = flags.getD i false := by
  have hbyte : (weighBits 0x80 flags).toUInt8.toNat = weighBits (2 ^ 7) flags :=
    Nat.mod_eq_of_lt (weighBits_lt 7 flags)
  have hindex : 7 - (7 - i) = i := by omega
  rw [bitOfByte, hbyte, testBit_weighBits flags (Nat.sub_le _ _), hindex]

/-- The vector of packed flags. -/
def ofFlags (flags : List Bool) : BitVector :=
  ⟨packBits flags, flags.length, length_packBits flags⟩

/-- Packed flags are accepted as a vector of their number. -/
theorem ofBytes_packBits (flags : List Bool) :
    ofBytes (packBits flags) flags.length = .ok (ofFlags flags) :=
  dif_pos (length_packBits flags)

/-- Packed flags come back at their indices, and no flag beyond them is set. -/
theorem flagAt_packBits (flags : List Bool) (index : ℕ) :
    flagAt (packBits flags) index = flags.getD index false := by
  have hmod : index % 8 < 8 := Nat.mod_lt _ (by omega)
  rw [flagAt, packBits]
  rcases Nat.lt_or_ge (index / 8) (bytesFor flags.length) with h | h
  · have hindex : 8 * (index / 8) + index % 8 = index := by omega
    rw [List.getD_eq_getElem _ _ (by simpa using h), List.getElem_map, List.getElem_range,
      bitOfByte_weighBits _ hmod]
    simp only [List.getD_eq_getElem?_getD, List.getElem?_take_of_lt hmod, List.getElem?_drop,
      hindex]
  · have hpast : flags.length ≤ index := by
      rw [bytesFor] at h
      omega
    rw [List.getD_eq_default _ _ (by simpa using h), List.getD_eq_default _ _ hpast]
    exact Nat.zero_testBit _

/-! ## Counting packed flags -/

/-- Counting over the indices of two lists of one length, and beyond, counts their
pairs, if nothing is counted beyond. -/
theorem countP_range_getD {combine : Bool → Bool → Bool} (hclear : combine false false = false)
    {p q : List Bool} (h : p.length = q.length) {indices : ℕ} (hle : p.length ≤ indices) :
    ((List.range indices).countP fun i => combine (p.getD i false) (q.getD i false)) =
      (p.zip q).countP fun pair => combine pair.1 pair.2 := by
  induction p generalizing q indices with
  | nil =>
    obtain rfl : q = [] := List.length_eq_zero_iff.mp h.symm
    rw [List.zip_nil_left, List.countP_nil, List.countP_eq_zero]
    intro i _
    rw [List.getD_nil, hclear]
    exact Bool.false_ne_true
  | cons x p ih =>
    obtain ⟨y, q, rfl⟩ := List.exists_cons_of_length_eq_add_one h.symm
    obtain ⟨n, rfl⟩ : ∃ n, indices = n + 1 := Nat.exists_eq_add_one.mpr (by
      rw [List.length_cons] at hle
      omega)
    have hrest := ih (Nat.succ.inj h) (Nat.le_of_succ_le_succ hle)
    rw [List.range_succ_eq_map, List.countP_cons, List.countP_map, List.zip_cons_cons,
      List.countP_cons, ← hrest]
    rfl

/-- Two buffers of packed flags are counted as the flags are, under a rule that does
not count clear bits. -/
theorem countBits_packBits {combine : Bool → Bool → Bool} (hclear : combine false false = false)
    {p q : List Bool} (h : p.length = q.length) :
    countBits combine (packBits p) (packBits q) =
      (p.zip q).countP fun pair => combine pair.1 pair.2 := by
  have hle : p.length ≤ 8 * (packBits p).length := by
    rw [length_packBits, bytesFor]
    omega
  rw [countBits_eq_countP_flagAt, ← countP_range_getD hclear h hle]
  simp only [flagAt_packBits]

end BitVector

end VectorDistance
