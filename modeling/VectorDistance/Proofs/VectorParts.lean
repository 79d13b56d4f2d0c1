import VectorDistance.HalfVector

/-!
# Parts of vectors

Positions are counted from one and both ends belong to a part. A part is cut out exactly if
its ends are positions of the vector in order, and what lies outside is never looked at.
Cutting and joining undo each other: the two operands come back out of a joined vector, the
two parts around any inner position join to the vector again, and a part of a part is the part
of the vector whose ends are moved by the first start.
-/

namespace VectorDistance.HalfVector

/-! ## One part -/

/-- The elements from one offset up to another, both counted in words of 64 bits from zero.
There are none for an offset after the other one or beyond the vector. -/
def wordSlice? (values : HalfVector) (offset stop : UInt64) : Option HalfVector :=
  if offset ≤ stop ∧ stop.toNat ≤ values.length then
    some ((values.drop offset.toNat).take (stop - offset).toNat)
  else none

/-- What cutting out the elements from one position to another comes to. -/
structure CutsOut (values : HalfVector) (start stop : Nat) (outcome : Except Fault HalfVector) :
    Prop where
  /-- There is a part exactly if both ends are positions of the vector, in order. -/
  exists_ok_iff : (∃ part, outcome = .ok part) ↔ 1 ≤ start ∧ start ≤ stop ∧ stop ≤ values.length
  /-- It has an element for each position from the first to the last. -/
  length_eq : ∀ part, outcome = .ok part → part.length = stop - start + 1
  /-- They are the elements of the vector from the first position on, all of which exist. -/
  element : ∀ part, outcome = .ok part → ∀ i < stop - start + 1,
    ∃ h, part[i]? = some h ∧ values[start - 1 + i]? = some h
  /-- In words of 64 bits neither the offset of the part nor its length wraps around, and the
  part is the slice between the offset and the end. -/
  words : ∀ part, outcome = .ok part → ∀ first last : UInt64,
    first.toNat = start → last.toNat = stop →
    (first - 1).toNat + 1 = start ∧ (last - (first - 1)).toNat = part.length ∧
      wordSlice? values (first - 1) last = some part
  /-- Otherwise the first unsuitable end is named, the start before the end. -/
  refusal : (¬∃ part, outcome = .ok part) →
    (start < 1 ∨ values.length < start) ∧
        outcome = .error (.startOutOfRange start values.length) ∨
      (1 ≤ start ∧ start ≤ values.length) ∧ (stop < start ∨ values.length < stop) ∧
        outcome = .error (.stopOutOfRange stop start values.length)
  /-- Both count as unsuitable arguments. -/
  kind_eq : ∀ fault, outcome = .error fault → fault.kind = .invalidArgument

/-- Nothing is cut out from a start outside the vector. -/
theorem subvector_of_start {values : HalfVector} {start : Nat}
    (h : start < 1 ∨ values.length < start) (stop : Nat) :
    subvector values start stop = .error (.startOutOfRange start values.length) :=
  if_pos h

/-- Nor, from one inside, up to an end that lies before it or outside. -/
theorem subvector_of_stop {values : HalfVector} {start stop : Nat}
    (hstart : 1 ≤ start ∧ start ≤ values.length) (h : stop < start ∨ values.length < stop) :
    subvector values start stop = .error (.stopOutOfRange stop start values.length) := by
  rw [subvector, if_neg (by omega), if_pos h]

/-- The offset and the length of a part are computed without wrapping around. -/
theorem toNat_offset_and_length {first last : UInt64} (hfirst : 1 ≤ first.toNat)
    (hlast : first.toNat ≤ last.toNat) :
    (first - 1).toNat + 1 = first.toNat ∧
      (last - (first - 1)).toNat = last.toNat + 1 - first.toNat := by
  have hoffset : (first - 1).toNat = first.toNat - 1 :=
    UInt64.toNat_sub_of_le first 1 (UInt64.le_iff_toNat_le.mpr hfirst)
  have hle : first - 1 ≤ last := by
    rw [UInt64.le_iff_toNat_le, hoffset]
    omega
  constructor
  · rw [hoffset]
    omega
  · rw [UInt64.toNat_sub_of_le last (first - 1) hle, hoffset]
    omega

/-- The part between two ends is the slice of words from the offset of the first one on. -/
theorem wordSlice?_of_subvector {values part : HalfVector} {first last : UInt64}
    (h : subvector values first.toNat last.toNat = .ok part) :
    wordSlice? values (first - 1) last = some part := by
  obtain ⟨⟨hfirst, hlast, hwithin⟩, rfl⟩ := subvector_eq_ok_iff.mp h
  obtain ⟨hoffset, hlength⟩ := toNat_offset_and_length hfirst hlast
  have hle : first - 1 ≤ last := UInt64.le_iff_toNat_le.mpr (by omega)
  rw [wordSlice?, if_pos ⟨hle, hwithin⟩, hlength, ← hoffset, Nat.add_sub_cancel]

/-- Every vector and every two ends are treated so. -/
theorem cutsOut_subvector (values : HalfVector) (start stop : Nat) :
    CutsOut values start stop (subvector values start stop) := by
  have hok : (∃ part, subvector values start stop = .ok part) ↔
      1 ≤ start ∧ start ≤ stop ∧ stop ≤ values.length := by
    simp only [subvector_eq_ok_iff, exists_and_left, exists_eq, and_true]
  have hrefusal : (¬∃ part, subvector values start stop = .ok part) →
      (start < 1 ∨ values.length < start) ∧
          subvector values start stop = .error (.startOutOfRange start values.length) ∨
        (1 ≤ start ∧ start ≤ values.length) ∧ (stop < start ∨ values.length < stop) ∧
          subvector values start stop = .error (.stopOutOfRange stop start values.length) := by
    intro hnone
    rw [hok] at hnone
    by_cases hstart : start < 1 ∨ values.length < start
    · exact Or.inl ⟨hstart, subvector_of_start hstart stop⟩
    · have hin : 1 ≤ start ∧ start ≤ values.length := by omega
      have hstop : stop < start ∨ values.length < stop := by omega
      exact Or.inr ⟨hin, hstop, subvector_of_stop hin hstop⟩
  refine ⟨hok, ?length, ?element, ?words, hrefusal, ?kind⟩
  case length =>
    intro part hpart
    have hbounds := (subvector_eq_ok_iff.mp hpart).1
    rw [length_subvector hpart]
    omega
  case element =>
    intro part hpart i hi
    obtain ⟨hbounds, rfl⟩ := subvector_eq_ok_iff.mp hpart
    have hin : start - 1 + i < values.length := by omega
    refine ⟨values[start - 1 + i], ?_, List.getElem?_eq_getElem hin⟩
    rw [List.getElem?_take_of_lt (by omega), List.getElem?_drop, List.getElem?_eq_getElem hin]
  case words =>
    rintro part hpart first last rfl rfl
    have hbounds := (subvector_eq_ok_iff.mp hpart).1
    obtain ⟨hoffset, hlength⟩ := toNat_offset_and_length hbounds.1 hbounds.2.1
    exact ⟨hoffset, hlength.trans (length_subvector hpart).symm, wordSlice?_of_subvector hpart⟩
  case kind =>
    intro fault hfault
    have hnone : ¬∃ part, subvector values start stop = .ok part := by
      rintro ⟨part, hpart⟩
      rw [hfault] at hpart
      cases hpart
    rcases hrefusal hnone with ⟨-, hcause⟩ | ⟨-, -, hcause⟩ <;>
    · rw [hfault] at hcause
      cases hcause
      rfl

/-! ## Parts and joined vectors -/

/-- The first operand is the part of a joined vector that ends with its last position. -/
theorem subvector_append_left {a : HalfVector} (b : HalfVector) (ha : a ≠ []) :
    subvector (a ++ b) 1 a.length = .ok a := by
  have hpos : 1 ≤ a.length := List.length_pos_iff.mpr ha
  refine subvector_eq_ok_iff.mpr ⟨⟨Nat.le_refl 1, hpos, ?_⟩, ?_⟩
  · rw [List.length_append]
    omega
  · rw [Nat.sub_self, List.drop_zero, Nat.add_sub_cancel, List.take_left]

/-- The second one is the part from the position after that on. -/
theorem subvector_append_right (a : HalfVector) {b : HalfVector} (hb : b ≠ []) :
    subvector (a ++ b) (a.length + 1) (a ++ b).length = .ok b := by
  have hpos : 1 ≤ b.length := List.length_pos_iff.mpr hb
  rw [List.length_append]
  refine subvector_eq_ok_iff.mpr ⟨⟨by omega, by omega, ?_⟩, ?_⟩
  · exact Nat.le_of_eq List.length_append.symm
  · rw [Nat.add_sub_cancel, List.drop_left, List.take_of_length_le (by omega)]

/-- Both parts around an inner position exist. -/
theorem subvector_around {v : HalfVector} {k : Nat} (hk : 1 ≤ k) (hlt : k < v.length) :
    subvector v 1 k = .ok (v.take k) ∧ subvector v (k + 1) v.length = .ok (v.drop k) := by
  have hback : v.drop k ≠ [] := List.ne_nil_of_length_pos (by rw [List.length_drop]; omega)
  have hfront : v.take k ≠ [] := List.ne_nil_of_length_pos (by rw [List.length_take]; omega)
  have hlength : (v.take k).length = k := List.length_take_of_le (Nat.le_of_lt hlt)
  have hleft := subvector_append_left (v.drop k) hfront
  have hright := subvector_append_right (v.take k) hback
  rw [List.take_append_drop, hlength] at hleft hright
  exact ⟨hleft, hright⟩

/-- A part of a part is a part, with its ends moved by the start of the first. -/
theorem subvector_subvector {v part inner : HalfVector} {start stop start' stop' : Nat}
    (hpart : subvector v start stop = .ok part) (hinner : subvector part start' stop' = .ok inner) :
    subvector v (start + start' - 1) (start + stop' - 1) = .ok inner := by
  have hlength := length_subvector hpart
  obtain ⟨hbounds, rfl⟩ := subvector_eq_ok_iff.mp hpart
  obtain ⟨hbounds', rfl⟩ := subvector_eq_ok_iff.mp hinner
  rw [hlength] at hbounds'
  refine subvector_eq_ok_iff.mpr ⟨by omega, ?_⟩
  have hwithin : stop' + 1 - start' ≤ stop + 1 - start - (start' - 1) := by omega
  have hoffset : start + start' - 1 - 1 = start - 1 + (start' - 1) := by omega
  have hcount : start + stop' - 1 + 1 - (start + start' - 1) = stop' + 1 - start' := by omega
  rw [List.drop_take, List.take_take, Nat.min_eq_left hwithin, List.drop_drop, hoffset, hcount]

/-- How cutting and joining fit together. -/
structure PartLaws : Prop where
  /-- Vectors are joined exactly if they fit one vector. -/
  exists_concat_iff : ∀ a b,
    (∃ joined, concat a b = .ok joined) ↔ a.length + b.length ≤ maxDimension
  /-- One is then put after the other. -/
  eq_append : ∀ a b joined, concat a b = .ok joined → joined = a ++ b
  /-- Any two ends cut out the elements between them, or nothing. -/
  cutsOut : ∀ values start stop, CutsOut values start stop (subvector values start stop)
  /-- What was joined is cut out again. -/
  operands : ∀ a b joined, a ≠ [] → b ≠ [] → concat a b = .ok joined →
    subvector joined 1 a.length = .ok a ∧
      subvector joined (a.length + 1) joined.length = .ok b
  /-- What was cut in two is joined again. -/
  rejoined : ∀ (v : HalfVector) (k : Nat), v.length ≤ maxDimension → 1 ≤ k → k < v.length →
    ∃ front back, subvector v 1 k = .ok front ∧ subvector v (k + 1) v.length = .ok back ∧
      concat front back = .ok v
  /-- What is cut out twice can be cut out at once. -/
  nested : ∀ v part inner start stop start' stop', subvector v start stop = .ok part →
    subvector part start' stop' = .ok inner →
    subvector v (start + start' - 1) (start + stop' - 1) = .ok inner

/-- Cutting and joining undo each other, for vectors of every length and ends of every size. -/
theorem partLaws : PartLaws where
  exists_concat_iff a b := by
    simp only [concat_eq_ok_iff, exists_and_left, exists_eq, and_true]
  eq_append _ _ _ hjoined := (concat_eq_ok_iff.mp hjoined).2
  cutsOut := cutsOut_subvector
  operands := by
    intro a b joined ha hb hjoined
    obtain ⟨-, rfl⟩ := concat_eq_ok_iff.mp hjoined
    exact ⟨subvector_append_left b ha, subvector_append_right a hb⟩
  rejoined := by
    intro v k hmax hk hlt
    obtain ⟨hfront, hback⟩ := subvector_around hk hlt
    refine ⟨_, _, hfront, hback, concat_eq_ok_iff.mpr ⟨?_, (List.take_append_drop k v).symm⟩⟩
    rw [← List.length_append, List.take_append_drop]
    exact hmax
  nested _ _ _ _ _ _ _ hpart hinner := subvector_subvector hpart hinner

/-- The start before the first position and the largest end are refused, at different ends. A
vector of the largest dimension falls into its last element and the rest, which join again. -/
theorem partLaws_edges :
    subvector [Half.one] 0 (UInt64.size - 1) = .error (.startOutOfRange 0 1) ∧
      subvector [Half.one] 1 (UInt64.size - 1) = .error (.stopOutOfRange (UInt64.size - 1) 1 1) ∧
      ∃ front back, subvector (List.replicate 16000 Half.one) 1 15999 = .ok front ∧
        back.length = 1 ∧ concat front back = .ok (List.replicate 16000 Half.one) := by
  have hlength : (List.replicate 16000 Half.one).length = 16000 := List.length_replicate
  obtain ⟨front, back, hfront, hback, hjoined⟩ := partLaws.rejoined (List.replicate 16000 Half.one)
    15999 (Nat.le_of_eq hlength) (by decide) (by rw [hlength]; decide)
  have hsingle := (partLaws.cutsOut _ _ _).length_eq back hback
  rw [hlength] at hsingle
  have hbefore : ¬∃ part, subvector [Half.one] 0 (UInt64.size - 1) = .ok part := by
    rw [(partLaws.cutsOut _ _ _).exists_ok_iff]
    decide
  have hbeyond : ¬∃ part, subvector [Half.one] 1 (UInt64.size - 1) = .ok part := by
    rw [(partLaws.cutsOut _ _ _).exists_ok_iff]
    decide
  refine ⟨?start, ?stop, front, back, hfront, hsingle, hjoined⟩
  case start =>
    rcases (partLaws.cutsOut _ _ _).refusal hbefore with ⟨-, hcause⟩ | ⟨⟨hpos, -⟩, -⟩
    · exact hcause
    · exact absurd hpos (by decide)
  case stop =>
    rcases (partLaws.cutsOut _ _ _).refusal hbeyond with ⟨hout, -⟩ | ⟨-, -, hcause⟩
    · exact absurd hout (by decide)
    · exact hcause

end VectorDistance.HalfVector
