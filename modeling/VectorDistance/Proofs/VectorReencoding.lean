import Mathlib
import VectorDistance.Proofs.CodecOrder
import VectorDistance.Proofs.FiniteResults
import VectorDistance.Proofs.KeyOrder

/-!
# Vectors that are decoded and encoded again

Decoding keeps subnormal numbers and encoding does not: a finite half comes back as it
was, or as the zero of its sign if it is subnormal, and it is always in range. Whole
vectors come back element by element, unless they hold an infinity or a NaN, for which
they are refused. What encoding makes holds no subnormal number in the first place, so
that there the two directions are inverse to each other.
-/

namespace VectorDistance

namespace Half

/-- A half with a subnormal number taken to the zero of its sign. -/
def flushed (h : Half) : Half :=
  if h.isSubnormal then zero.withSign h.isNegative else h

/-- Zeros and normal numbers are kept. -/
theorem flushed_of_isRegular {h : Half} (hr : h.IsRegular) : h.flushed = h := by
  rw [flushed, hr.2, if_neg Bool.false_ne_true]

/-- No finite half is larger than the largest one. -/
theorem inRange_decode (h : Half) : inRange h.decode = h.isFinite := by
  rw [Bool.eq_iff_iff, inRange_iff, isFinite_decode]
  refine ⟨And.left, fun hf => ⟨hf, ?_⟩⟩
  obtain ⟨hr, hd⟩ := exists_decode_eq_decodedSize hf
  have hbits : h.unsignedBits ≤ 0x7bff := Nat.le_of_lt_succ (unsignedBits_lt_iff.mpr hf)
  have hsize : decodedSize h.unsignedBits ≤ 65504 * 2 ^ 149 := by
    calc decodedSize h.unsignedBits ≤ decodedSize 0x7bff :=
          decodedSize_strictMonoOn.monotoneOn (hbits.trans (by decide)) (by decide) hbits
      _ = 65504 * 2 ^ 149 := by decide +kernel
  rw [hd, Binary.abs_exact_finite, Format.quantum_single, div_le_iff₀ (by positivity)]
  exact_mod_cast hsize

/-- A half with the least exponent field is encoded as the zero of its sign. -/
theorem encode_decode_of_exponentField_eq_zero {h : Half} (he : h.exponentField = 0) :
    encode h.decode = zero.withSign h.isNegative := by
  have hf : h.isFinite = true := by rw [isFinite, he]; rfl
  have hfraction := h.fraction_lt
  obtain ⟨hr, hd⟩ := decode_of_isFinite hf
  rw [hd]
  refine encode_of_lt ?_
  rw [he, Format.magnitudeOfFields, if_pos rfl]
  calc h.fraction * 2 ^ 125 < 2 ^ 10 * 2 ^ 125 :=
        Nat.mul_lt_mul_of_pos_right hfraction (Nat.two_pow_pos _)
    _ = 2 ^ 135 := (pow_add _ _ _).symm

/-- A finite half comes back as it was, or as a zero if it is subnormal. -/
theorem encode_decode_of_isFinite {h : Half} (hf : h.isFinite = true) :
    encode h.decode = h.flushed := by
  by_cases he : h.exponentField = 0
  · rw [encode_decode_of_exponentField_eq_zero he, flushed]
    split
    · rfl
    · next hsub =>
      have hfraction : h.fraction = 0 := by
        simpa [isSubnormal, he] using hsub
      exact (eq_withSign rfl he hfraction).symm
  · have hn : h.isNormal = true := by
      rw [isNormal, hf, Bool.true_and, bne_iff_ne]
      exact he
    rw [encode_decode_of_isNormal hn, flushed_of_isRegular (isRegular_of_isNormal hn)]

end Half

namespace HalfVector

/-- A vector comes back exactly if it is finite, and then element by element. -/
theorem ofSingles_toSingles_eq_ok_iff {v u : HalfVector} :
    ofSingles (toSingles v) = .ok u ↔ (∀ h ∈ v, h.isFinite = true) ∧ u = v.map Half.flushed := by
  rw [ofSingles_eq_ok_iff, toSingles, List.forall_mem_map, List.map_map]
  simp only [Half.inRange_decode]
  refine and_congr_right fun hf => ?_
  have hback : v.map (Half.encode ∘ Half.decode) = v.map Half.flushed :=
    List.map_congr_left fun h hh => Half.encode_decode_of_isFinite (hf h hh)
  rw [hback]

/-- A vector of zeros and normal numbers comes back as it was. -/
theorem ofSingles_toSingles_of_isRegular {v : HalfVector} (hv : IsRegular v) :
    ofSingles (toSingles v) = .ok v := by
  refine ofSingles_toSingles_eq_ok_iff.mpr ⟨fun h hh => (hv h hh).1, ?_⟩
  symm
  calc v.map Half.flushed = v.map id :=
        List.map_congr_left fun h hh => Half.flushed_of_isRegular (hv h hh)
    _ = v := List.map_id v

/-- What becomes of a vector that is decoded and encoded again. -/
structure ComesBack (v : HalfVector) (outcome : Except Fault HalfVector) : Prop where
  /-- It is refused, as out of range, exactly if it holds an infinity or a NaN. -/
  refused_iff : (∃ fault, outcome = .error fault ∧ fault.kind = .numericRange) ↔
    ∃ h ∈ v, h.isInfinite = true ∨ h.isNaN = true
  /-- The first such element is the one that is named. -/
  names_first : ∀ fault, outcome = .error fault → ∃ front h back, v = front ++ h :: back ∧
    (∀ x ∈ front, x.isFinite = true) ∧ (h.isInfinite = true ∨ h.isNaN = true) ∧
    fault = .outOfHalfRange h.decode
  /-- Otherwise only its subnormal elements are lost, to the zeros of their signs. -/
  flushes : (¬∃ h ∈ v, h.isInfinite = true ∨ h.isNaN = true) →
    outcome = .ok (v.map Half.flushed)

/-- Every vector comes back so. -/
theorem comesBack (v : HalfVector) : ComesBack v (ofSingles (toSingles v)) := by
  have hnames : ∀ fault, ofSingles (toSingles v) = .error fault → ∃ front h back,
      v = front ++ h :: back ∧ (∀ x ∈ front, x.isFinite = true) ∧
      (h.isInfinite = true ∨ h.isNaN = true) ∧ fault = .outOfHalfRange h.decode := by
    intro fault hfault
    obtain ⟨left, x, right, hsplit, hleft, hx, rfl⟩ := ofSingles_eq_error_iff.mp hfault
    obtain ⟨front, rest, rfl, rfl, hrest⟩ := List.map_eq_append_iff.mp hsplit
    obtain ⟨h, back, rfl, rfl, rfl⟩ := List.map_eq_cons_iff.mp hrest
    refine ⟨front, h, back, rfl, fun y hy => ?_, ?_, rfl⟩
    · rw [← Half.inRange_decode]
      exact hleft _ (List.mem_map_of_mem hy)
    · rw [← Half.isFinite_eq_false_iff, ← Half.inRange_decode]
      exact hx
  have hflushes : (¬∃ h ∈ v, h.isInfinite = true ∨ h.isNaN = true) →
      ofSingles (toSingles v) = .ok (v.map Half.flushed) := by
    intro hnone
    refine ofSingles_toSingles_eq_ok_iff.mpr ⟨fun h hh => ?_, rfl⟩
    by_contra hf
    exact hnone ⟨h, hh, Half.isFinite_eq_false_iff.mp (Bool.eq_false_of_not_eq_true hf)⟩
  refine ⟨⟨?_, ?_⟩, hnames, hflushes⟩
  · rintro ⟨fault, hfault, -⟩
    obtain ⟨front, h, back, rfl, -, hh, -⟩ := hnames fault hfault
    exact ⟨h, by simp, hh⟩
  · rintro ⟨h, hh, hclass⟩
    cases houtcome : ofSingles (toSingles v) with
    | ok u =>
      have hf := (ofSingles_toSingles_eq_ok_iff.mp houtcome).1 h hh
      rw [← Half.isFinite_eq_false_iff, hf] at hclass
      cases hclass
    | error fault =>
      obtain ⟨-, g, -, -, -, -, rfl⟩ := hnames fault houtcome
      exact ⟨_, rfl, rfl⟩

/-- Decoding and encoding again loses subnormal elements only and refuses infinities and
NaNs only; and it is the identity on whatever encoding values has made. -/
theorem reencoding_laws :
    (∀ v : HalfVector, ComesBack v (ofSingles (toSingles v))) ∧
    ∀ (values : List Single) (v : HalfVector), ofSingles values = .ok v →
      ofSingles (toSingles v) = .ok v :=
  ⟨comesBack, fun _ _ h => ofSingles_toSingles_of_isRegular (isRegular_of_ofSingles h)⟩

/-- The largest subnormal half is lost under both signs; beside an infinity the vector is
refused for that; and a value just below the least normal half, once encoded, stays the
zero of its sign. -/
theorem reencoding_laws_subnormal :
    ofSingles (toSingles [⟨0x03ff⟩, ⟨0x83ff⟩, Half.largest]) =
        .ok [Half.zero, Half.negZero, Half.largest] ∧
      (∃ fault, ofSingles (toSingles [⟨0x03ff⟩, Half.negInfinity, Half.canonicalNaN]) =
        .error fault ∧ fault.kind = .numericRange) ∧
      ofSingles (toSingles [Half.negZero, Half.one]) = .ok [Half.negZero, Half.one] :=
  ⟨(reencoding_laws.1 _).flushes (by decide), (reencoding_laws.1 _).refused_iff.mpr (by decide),
    reencoding_laws.2 [.ofBits32 0xb87fffff, .ofBits32 0x3f800000] _ (by decide +kernel)⟩

end HalfVector

end VectorDistance
