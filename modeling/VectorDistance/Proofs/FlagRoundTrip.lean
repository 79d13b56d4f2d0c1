import Mathlib
import VectorDistance.Proofs.HammingMetric
import VectorDistance.Proofs.PackedBits

/-!
# Flags packed and read back

The view of a vector shows the flags of its buffer below the dimension; the flags
between the dimension and the end of the last byte are its padding. A buffer is
determined by its flags, so that packing is the only way to the buffer of a vector
with clear padding. Packing sets the flags one by one in a buffer of zeros: setting
a flag leaves all others alone, and the flags of a run are those that were set on
the way.
-/

namespace VectorDistance

namespace BitVector

open BitKernels

/-! ## The view -/

/-- Bytes are taken as a vector exactly if they are its bytes. -/
theorem ofBytes_eq_ok_iff {bytes : List UInt8} {dimension : ℕ} {v : BitVector} :
    ofBytes bytes dimension = .ok v ↔ v.bytes = bytes ∧ v.dimension = dimension := by
  unfold ofBytes
  constructor
  · intro h
    split at h
    · cases h
      exact ⟨rfl, rfl⟩
    · cases h
  · rintro ⟨rfl, rfl⟩
    exact dif_pos v.length_bytes

/-- The indices of a vector lie in its bytes. -/
theorem dimension_le (v : BitVector) : v.dimension ≤ 8 * v.bytes.length := by
  rw [v.length_bytes, bytesFor]
  omega

/-- Below the dimension the view shows the flags of the buffer. -/
theorem get?_eq_flagAt {v : BitVector} {index : ℕ} (h : index < v.dimension) :
    v.get? index = some (flagAt v.bytes index) := by
  have hbyte : index / 8 < v.bytes.length := by
    have hle := v.dimension_le
    omega
  rw [get?, if_pos h, List.getElem?_eq_getElem hbyte, Option.map_some, flagAt,
    List.getD_eq_getElem _ _ hbyte]

/-- The flags that a vector shows. -/
def flags (v : BitVector) : List Bool :=
  (List.range v.dimension).map (flagAt v.bytes)

/-- There are as many flags as the dimension says. -/
theorem length_flags (v : BitVector) : v.flags.length = v.dimension := by
  rw [flags, List.length_map, List.length_range]

/-- The flags are what the view answers at the indices in turn. -/
theorem map_some_flags (v : BitVector) :
    v.flags.map some = (List.range v.dimension).map v.get? := by
  rw [flags, List.map_map]
  exact List.map_congr_left fun i hi => (get?_eq_flagAt (List.mem_range.mp hi)).symm

/-- The indices of a vector's last byte beyond its dimension. -/
def paddingIndices (dimension : ℕ) : List ℕ :=
  List.range' dimension (8 * bytesFor dimension - dimension)

/-- They reach from the dimension to the end of the bytes. -/
theorem mem_paddingIndices {dimension index : ℕ} :
    index ∈ paddingIndices dimension ↔ dimension ≤ index ∧ index < 8 * bytesFor dimension := by
  have hle : dimension ≤ 8 * bytesFor dimension := by
    rw [bytesFor]
    omega
  rw [paddingIndices, List.mem_range'_1, Nat.add_sub_cancel' hle]

/-- No flag beyond the dimension is set. -/
def IsPaddingClear (v : BitVector) : Prop :=
  ∀ i ∈ paddingIndices v.dimension, flagAt v.bytes i = false

/-- Whether it is so can be tried index by index. -/
instance (v : BitVector) : Decidable v.IsPaddingClear :=
  inferInstanceAs (Decidable (∀ i ∈ paddingIndices v.dimension, flagAt v.bytes i = false))

/-! ## Buffers and their flags -/

/-- Buffers of one length with the same flags are equal. -/
theorem eq_of_flagAt {a b : List UInt8} (h : a.length = b.length)
    (hflags : ∀ i < 8 * a.length, flagAt a i = flagAt b i) : a = b := by
  refine eq_of_bitAt h fun i hi => ?_
  have hflag := hflags (mirror i) (mirror_lt hi)
  rwa [flagAt_eq_bitAt, flagAt_eq_bitAt, mirror_mirror] at hflag

/-- The set bits of a buffer's bytes are its set flags. -/
theorem sum_bitCount (bytes : List UInt8) :
    (bytes.map fun byte => bitCount 8 byte.toNat).sum =
      (List.range (8 * bytes.length)).countP (flagAt bytes) := by
  have hcount := countBits_eq_countP_flagAt (fun x _ => x) bytes bytes
  rw [← hcount]
  clear hcount
  induction bytes with
  | nil => rfl
  | cons byte bytes ih =>
    have hsplit := countBits_append (fun x _ => x) (rfl : [byte].length = [byte].length) bytes bytes
    rw [List.singleton_append] at hsplit
    rw [List.map_cons, List.sum_cons, ih, hsplit]
    congr 1

/-- The indices of a vector's bytes: those it shows, and those of its padding. -/
theorem countP_range_bytes (v : BitVector) (p : ℕ → Bool) :
    (List.range (8 * v.bytes.length)).countP p =
      (List.range v.dimension).countP p + (paddingIndices v.dimension).countP p := by
  have hle := v.dimension_le
  have hlist : List.range (8 * v.bytes.length) =
      List.range v.dimension ++ paddingIndices v.dimension := by
    have happend := List.range'_append_1 (s := 0) (m := v.dimension)
      (n := 8 * v.bytes.length - v.dimension)
    rw [Nat.zero_add, Nat.add_sub_cancel' hle] at happend
    rw [List.range_eq_range', List.range_eq_range', paddingIndices, ← v.length_bytes, happend]
  rw [hlist, List.countP_append]

/-- Counting the set bits counts the flags a vector shows, and its padding. -/
theorem countOnes_eq (v : BitVector) :
    v.countOnes = v.flags.count true + (paddingIndices v.dimension).countP (flagAt v.bytes) := by
  rw [countOnes, sum_bitCount, countP_range_bytes, flags, List.count, List.countP_map]
  congr 2
  funext i
  rw [Function.comp_apply, beq_true]

/-! ## Setting flags one by one -/

/-- Sets the flag at an index of a buffer. -/
def setFlag (bytes : List UInt8) (index : ℕ) : List UInt8 :=
  bytes.modify (index / 8) (· ||| 0x80 >>> (index % 8).toUInt8)

/-- The mask of a flag has no other bit. -/
theorem bitOfByte_mask {i j : ℕ} (hi : i < 8) (hj : j < 8) :
    bitOfByte (0x80 >>> i.toUInt8) j = decide (i = j) := by
  have hall : ∀ i j : Fin 8,
      bitOfByte (0x80 >>> (i : ℕ).toUInt8) j = decide ((i : ℕ) = j) := by decide
  exact hall ⟨i, hi⟩ ⟨j, hj⟩

/-- Setting a flag keeps the length. -/
theorem length_setFlag (bytes : List UInt8) (index : ℕ) :
    (setFlag bytes index).length = bytes.length :=
  List.length_modify _ _ _

/-- Setting a flag sets this flag and leaves all others alone. -/
theorem flagAt_setFlag {bytes : List UInt8} {index : ℕ} (h : index < 8 * bytes.length) (i : ℕ) :
    flagAt (setFlag bytes index) i = (decide (index = i) || flagAt bytes i) := by
  simp only [flagAt, setFlag, List.getD_eq_getElem?_getD, List.getElem?_modify, Option.map_eq_map]
  by_cases hbyte : index / 8 = i / 8
  · have hlt : i / 8 < bytes.length := by omega
    have hindex : index = i ↔ index % 8 = i % 8 := by omega
    rw [List.getElem?_eq_getElem hlt, Option.map_some, if_pos hbyte, Option.getD_some,
      Option.getD_some, bitOfByte, UInt8.toNat_or, Nat.testBit_or, ← bitOfByte, ← bitOfByte,
      bitOfByte_mask (Nat.mod_lt _ (by omega)) (Nat.mod_lt _ (by omega)), Bool.or_comm]
    simp only [hindex]
  · have hne : index ≠ i := fun h => hbyte (congrArg (· / 8) h)
    simp only [if_neg hbyte, Option.map_id_fun', id_eq, decide_eq_false hne, Bool.false_or]

/-- The flags of a run are those set on the way and those that were set before. -/
theorem flagAt_foldl_setFlag {indices : List ℕ} {bytes : List UInt8}
    (h : ∀ index ∈ indices, index < 8 * bytes.length) (i : ℕ) :
    flagAt (indices.foldl setFlag bytes) i = (decide (i ∈ indices) || flagAt bytes i) := by
  induction indices generalizing bytes with
  | nil => rw [List.foldl_nil, decide_eq_false List.not_mem_nil, Bool.false_or]
  | cons index indices ih =>
    obtain ⟨hindex, hrest⟩ := List.forall_mem_cons.mp h
    rw [← length_setFlag bytes index] at hrest
    rw [List.foldl_cons, ih hrest, flagAt_setFlag hindex]
    simp only [List.mem_cons, Bool.decide_or, eq_comm (a := index), Bool.or_left_comm,
      Bool.or_assoc]

/-- A run keeps the length. -/
theorem length_foldl_setFlag (indices : List ℕ) (bytes : List UInt8) :
    (indices.foldl setFlag bytes).length = bytes.length := by
  induction indices generalizing bytes with
  | nil => rfl
  | cons index indices ih => rw [List.foldl_cons, ih, length_setFlag]

/-- Packing is setting the flags one by one, from their bytes cleared. -/
theorem packBits_eq_foldl_setFlag (p : List Bool) :
    packBits p = ((List.range p.length).filter (p.getD · false)).foldl setFlag
      (List.replicate (bytesFor p.length) 0) := by
  have hroom : ∀ i ∈ (List.range p.length).filter (p.getD · false),
      i < 8 * (List.replicate (bytesFor p.length) (0 : UInt8)).length := by
    intro i hi
    have hlt := List.mem_range.mp (List.mem_filter.mp hi).1
    rw [List.length_replicate, bytesFor]
    omega
  refine eq_of_flagAt ?_ fun i _ => ?_
  · rw [length_packBits, length_foldl_setFlag, List.length_replicate]
  · have hclear : flagAt (List.replicate (bytesFor p.length) 0) i = false := by
      have hzero : (List.replicate (bytesFor p.length) (0 : UInt8)).getD (i / 8) 0 = 0 := by
        rw [List.getD_eq_getElem?_getD, List.getElem?_replicate]
        split <;> rfl
      rw [flagAt, hzero]
      exact Nat.zero_testBit _
    rw [flagAt_packBits, flagAt_foldl_setFlag hroom, hclear, Bool.or_false]
    rcases Nat.lt_or_ge i p.length with hi | hi
    · simp [hi]
    · rw [List.getD_eq_default _ _ hi, eq_comm, decide_eq_false_iff_not, List.mem_filter]
      exact fun h => absurd (List.mem_range.mp h.1) (Nat.not_lt.mpr hi)

/-! ## The round trip -/

/-- Packed flags come back as the flags of their vector. -/
theorem get?_ofFlags (p : List Bool) (i : ℕ) : (ofFlags p).get? i = p[i]? := by
  rcases Nat.lt_or_ge i p.length with hi | hi
  · rw [get?_eq_flagAt hi, ofFlags, flagAt_packBits, List.getElem?_eq_getElem hi,
      List.getD_eq_getElem _ _ hi]
  · rw [List.getElem?_eq_none hi, get?_eq_none_iff]
    exact hi

/-- The vector of packed flags shows these flags. -/
theorem flags_ofFlags (p : List Bool) : (ofFlags p).flags = p := by
  refine List.map_injective_iff.mpr (Option.some_injective _) ?_
  rw [map_some_flags]
  refine List.ext_getElem (by rw [List.length_map, List.length_map, List.length_range]; rfl)
    fun i hi hp => ?_
  rw [List.length_map] at hp
  rw [List.getElem_map, List.getElem_range, get?_ofFlags, List.getElem_map,
    List.getElem?_eq_getElem hp]

/-- Packing clears the padding. -/
theorem isPaddingClear_ofFlags (p : List Bool) : (ofFlags p).IsPaddingClear := by
  intro i hi
  rw [ofFlags, flagAt_packBits, List.getD_eq_default _ _ (mem_paddingIndices.mp hi).1]

/-- With clear padding, packing the flags of a vector gives its bytes. -/
theorem packBits_flags {v : BitVector} (h : v.IsPaddingClear) : packBits v.flags = v.bytes := by
  refine eq_of_flagAt (by rw [length_packBits, length_flags, v.length_bytes]) fun i hi => ?_
  rw [length_packBits, length_flags] at hi
  rw [flagAt_packBits]
  rcases Nat.lt_or_ge i v.dimension with hlt | hge
  · rw [List.getD_eq_getElem _ _ (by rwa [length_flags])]
    simp only [flags, List.getElem_map, List.getElem_range]
  · rw [List.getD_eq_default _ _ (by rwa [length_flags]), h i (mem_paddingIndices.mpr ⟨hge, hi⟩)]

/-- Packed flags are counted as they are. -/
theorem countOnes_ofFlags (p : List Bool) : (ofFlags p).countOnes = p.count true := by
  have hpadding : (paddingIndices (ofFlags p).dimension).countP (flagAt (ofFlags p).bytes) = 0 :=
    List.countP_eq_zero.mpr fun i hi => by simp [isPaddingClear_ofFlags p i hi]
  rw [countOnes_eq, flags_ofFlags, hpadding, Nat.add_zero]

/-- What a vector of packed flags shows. -/
structure ShowsFlags (v : BitVector) (p : List Bool) : Prop where
  /-- The flags come back at their indices, and there is none at any other index. -/
  get?_eq : ∀ i, v.get? i = p[i]?
  /-- The set bits are the set flags. -/
  countOnes_eq : v.countOnes = p.count true
  /-- No bit beyond the flags is set. -/
  isPaddingClear : v.IsPaddingClear

/-- Packing and viewing are inverse: flags of any number are accepted when packed and
shown as they were; the bytes of a vector with clear padding are the packing of what
its view answers; and vectors of packed flags are equal exactly if the flags are. -/
theorem packBits_view_inverse :
    (∀ p : List Bool, ∃ v, ofBytes (packBits p) p.length = .ok v ∧ v.ShowsFlags p) ∧
    (∀ v : BitVector, v.IsPaddingClear → ∃ p : List Bool,
      p.map some = (List.range v.dimension).map v.get? ∧ packBits p = v.bytes) ∧
    ∀ p q : List Bool, ∀ u v, ofBytes (packBits p) p.length = .ok u →
      ofBytes (packBits q) q.length = .ok v → (u = v ↔ p = q) := by
  refine ⟨fun p => ⟨ofFlags p, ofBytes_packBits p, ?_⟩, fun v h => ?_, fun p q u v hu hv => ?_⟩
  · exact ⟨get?_ofFlags p, countOnes_ofFlags p, isPaddingClear_ofFlags p⟩
  · exact ⟨v.flags, map_some_flags v, packBits_flags h⟩
  · obtain rfl : ofFlags p = u := Except.ok.inj ((ofBytes_packBits p).symm.trans hu)
    obtain rfl : ofFlags q = v := Except.ok.inj ((ofBytes_packBits q).symm.trans hv)
    constructor
    · intro h
      rw [← flags_ofFlags p, h, flags_ofFlags]
    · rintro rfl
      rfl

/-- Nine flags in two bytes, two bytes whose seven bits of padding are clear, and two
vectors of one flag. -/
theorem packBits_view_inverse_nine :
    (∃ v, ofBytes (packBits [true, false, true, false, false, false, false, false, true]) 9 =
        .ok v ∧
      v.ShowsFlags [true, false, true, false, false, false, false, false, true]) ∧
    (∃ p : List Bool, p.map some = (List.range 9).map (get? ⟨[0x21, 0x80], 9, rfl⟩) ∧
      packBits p = [0x21, 0x80]) ∧
    (ofFlags [true] = ofFlags [false] ↔ [true] = [false]) :=
  ⟨packBits_view_inverse.1 _, packBits_view_inverse.2.1 ⟨[0x21, 0x80], 9, rfl⟩ (by decide),
    packBits_view_inverse.2.2 _ _ _ _ (ofBytes_packBits _) (ofBytes_packBits _)⟩

end BitVector

end VectorDistance
