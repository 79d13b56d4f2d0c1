import Mathlib
import VectorDistance.Program
import VectorDistance.Proofs.CosineOutcome
import VectorDistance.Proofs.JaccardRange
import VectorDistance.Proofs.RegularVectors

/-!
# When a self-check can run

A self-check of the portable kernels compares every answer with itself. All answers
are finite numbers, whatever was drawn, so that every relative difference is zero and
every comparison passes, as soon as there is a cosine. Drawn values below `2 ^ -14`
are encoded as zeros, and a side of the drawn halves that consists of such values has
none: the self-check then ends with the fault of the cosine, although no two kernels
disagree. Of the `2 ^ 23` values that can be drawn 511 are of this kind, so that it
takes a small dimension.
-/

namespace VectorDistance

namespace Binary

variable {F : Format}

/-- Division by one or more makes no number larger. -/
theorem exists_div_of_one_le (s : Bool) {m : ℕ} (hm : F.Represents m) {y : Binary F}
    (hy : AtLeast (2 ^ F.quantum) y) :
    ∃ r hr, finite s m hm / y = finite s r hr ∧ r ≤ m := by
  change ∃ r hr, Binary.div _ _ = _ ∧ _
  cases hy with
  | infinite => exact ⟨0, F.represents_zero, by simp [Binary.div, zero], Nat.zero_le _⟩
  | @finite n hn hone =>
    have hn0 : 0 < n := (Nat.two_pow_pos _).trans_le hone
    simp only [Binary.div, if_neg hn0.ne', Bool.bne_false]
    exact exists_ofRatio_of_le s hm hn0 (Nat.mul_le_mul_left m hone)

/-- A finite number less itself is positive zero. -/
theorem sub_self_of_isFinite {x : Binary F} (hx : x.isFinite = true) : x - x = zero false := by
  obtain ⟨s, m, hm, rfl⟩ := exists_of_isFinite hx
  change Binary.add (finite s m hm) (finite (!s) m hm) = _
  have htotal : signed s m + signed (!s) m = 0 := by rw [signed_not, add_neg_cancel]
  simp only [Binary.add, htotal, if_true, Bool.and_not_self, Int.natAbs_zero]
  exact ofRatio_of_represents false F.represents_zero

/-- The larger of the size of a finite number and one is one or more. -/
theorem atLeast_max_one (hcap : F.precision + F.quantum < F.capacity) {x : Binary F}
    (hx : x.isFinite = true) : AtLeast (2 ^ F.quantum) (x.abs.max (ofNat 1)) := by
  obtain ⟨s, m, hm, rfl⟩ := exists_of_isFinite hx
  obtain ⟨h1, hone⟩ := ofNat_of_le (F := F) hcap Nat.one_le_two_pow
  rw [hone]
  change AtLeast _ (Binary.max (finite false m hm) _)
  rw [Binary.max, if_neg (by rw [isNaN_finite]; exact Bool.false_ne_true)]
  split
  · exact .finite _ (Nat.le_mul_of_pos_left _ Nat.one_pos)
  · next hlt =>
    refine .finite hm ?_
    have hle : ¬((m : ℤ) < (1 * 2 ^ F.quantum : ℕ)) := by
      simpa [lt, compare?, rank, signed, compare_lt_iff_lt] using hlt
    omega

/-! ## Counts -/

/-- A count below a power of two is a number up to it. -/
theorem exists_ofNat_of_le {n k : ℕ} (hcap : k + F.quantum < F.capacity) (hn : n ≤ 2 ^ k) :
    ∃ m hm, (ofNat n : Binary F) = finite false m hm ∧ m ≤ 2 ^ (k + F.quantum) := by
  have hrep : F.Represents (2 ^ (k + F.quantum)) :=
    ⟨F.fits_two_pow _, Nat.pow_lt_pow_right (by omega) hcap⟩
  refine exists_ofRatio_of_le false hrep Nat.one_pos ?_
  rw [Nat.mul_one, pow_add]
  exact Nat.mul_le_mul_right _ hn

/-- A count other than zero is one or more. -/
theorem atLeast_ofNat {n : ℕ} (hn : 0 < n) : AtLeast (2 ^ F.quantum) (ofNat n : Binary F) := by
  refine atLeast_ofRatio (F.fits_two_pow _) Nat.one_pos ?_
  rw [Nat.mul_one]
  exact Nat.le_mul_of_pos_left _ hn

/-- The value of a number up to a power of two. -/
theorem abs_exact_le_two_pow {s : Bool} {m k : ℕ} {hm : F.Represents m}
    (h : m ≤ 2 ^ (k + F.quantum)) : |(finite s m hm).exact| ≤ 2 ^ k := by
  rw [abs_exact_finite, div_le_iff₀ (by positivity), ← pow_add]
  exact_mod_cast h

end Binary

/-- The distance behind two counts is finite, even if they have wrapped. -/
theorem BitKernels.OverlapCounts.isFinite_distance (counts : OverlapCounts) :
    counts.distance.isFinite = true := by
  have hcap : 64 + Format.double.quantum < Format.double.capacity := by decide
  unfold distance
  split
  · rfl
  · next hne =>
    have hpos : 0 < counts.either.toNat :=
      Nat.pos_of_ne_zero fun h => hne (UInt64.toNat_inj.mp h)
    obtain ⟨m, hm, hboth, hle⟩ := Binary.exists_ofNat_of_le hcap counts.both.toNat_lt.le
    obtain ⟨n, hn, hone, hle1⟩ := Binary.exists_ofNat_of_le hcap (n := 1) Nat.one_le_two_pow
    obtain ⟨q, hq, hdiv, hqle⟩ := Binary.exists_div_of_one_le false hm
      (Binary.atLeast_ofNat hpos)
    rw [hboth, hdiv, hone]
    refine (Binary.add_approximates (x := .finite false n hn) (y := .finite true q hq)
      rfl rfl ?_).1
    calc |(Binary.finite false n hn).exact + (Binary.finite true q hq).exact|
        ≤ |(Binary.finite false n hn).exact| + |(Binary.finite true q hq).exact| := abs_add_le _ _
      _ ≤ 2 ^ 64 + 2 ^ 64 := add_le_add (Binary.abs_exact_le_two_pow hle1)
          (Binary.abs_exact_le_two_pow (hqle.trans hle))
      _ = 2 ^ 65 := by norm_num
      _ < Format.double.reach := by
          rw [Format.reach_double]
          exact pow_lt_pow_right₀ one_lt_two (by norm_num)

/-! ## Drawn halves -/

/-- Is the value drawn from a word smaller than `2 ^ -14`, so that its half is a zero? -/
def DrawsZero (word : UInt32) : Prop := |((word >>> 9).toNat : ℤ) - 2 ^ 22| < 2 ^ 8

instance (word : UInt32) : Decidable (DrawsZero word) := inferInstanceAs (Decidable (_ < _))

/-- The value drawn from a word is a whole number of steps of `2 ^ -22`, up to one. -/
theorem exists_singleOfWord (word : UInt32) :
    ∃ s m hm, singleOfWord word = .finite s (m * 2 ^ 127) hm ∧ m ≤ 2 ^ 22 ∧
      (m < 2 ^ 8 ↔ DrawsZero word) := by
  have hword : (word >>> 9).toNat < 2 ^ 23 := by
    have hlt := word.toNat_lt
    rw [UInt32.toNat_shiftRight, show (9 : UInt32).toNat % 32 = 9 from rfl,
      Nat.shiftRight_eq_div_pow]
    omega
  have hsize : (((word >>> 9).toNat : ℤ) - 2 ^ 22).natAbs ≤ 2 ^ 22 := by omega
  have hrep (m : ℕ) (hm : m ≤ 2 ^ 22) : Format.single.Represents (m * 2 ^ 127) := by
    have hroom : m * 2 ^ 127 ≤ 2 ^ (Format.single.precision + 127) := by
      rw [pow_add]
      exact Nat.mul_le_mul_right _ (hm.trans (by decide))
    exact Format.represents_of_dvd (by decide) (Nat.dvd_mul_left _ _) hroom
  refine ⟨_, _, hrep _ hsize, Binary.ofRatio_of_represents _ (hrep _ hsize), hsize, ?_⟩
  rw [DrawsZero, Int.abs_eq_natAbs]
  omega

/-- A normal half is not a zero. -/
theorem Half.not_isZero_of_isNormal {h : Half} (hn : h.isNormal = true) : ¬h.IsZero := by
  rintro (rfl | rfl)
  · exact Bool.noConfusion hn
  · exact Bool.noConfusion hn

/-- A drawn half is finite, and a zero exactly for a small value. -/
theorem halfOfWord_spec (word : UInt32) :
    (halfOfWord word).isFinite = true ∧ ((halfOfWord word).IsZero ↔ DrawsZero word) := by
  obtain ⟨s, m, hm, hword, hsize, hzero⟩ := exists_singleOfWord word
  rw [halfOfWord, hword, ← hzero]
  rcases Nat.lt_or_ge m (2 ^ 8) with hlt | hge
  · have hflush : m * 2 ^ 127 < 2 ^ 135 :=
      (Nat.mul_lt_mul_of_pos_right hlt (Nat.two_pow_pos 127)).trans_eq (pow_add 2 8 127).symm
    rw [Half.encode_of_lt hflush]
    refine ⟨(Half.isRegular_zero s).1, iff_of_true ?_ hlt⟩
    cases s with
    | false => exact Or.inl rfl
    | true => exact Or.inr rfl
  · have hlow : 2 ^ 135 ≤ m * 2 ^ 127 :=
      (pow_add 2 8 127).trans_le (Nat.mul_le_mul_right _ hge)
    have hhigh : m * 2 ^ 127 < 65520 * 2 ^ 149 := by omega
    have hnormal : (Half.encode (.finite s (m * 2 ^ 127) hm)).isNormal = true :=
      (Half.nearestNormal_encode hlow hhigh).normal
    exact ⟨(Half.isRegular_of_isNormal hnormal).1,
      iff_of_false (Half.not_isZero_of_isNormal hnormal) (Nat.not_lt.mpr hge)⟩

namespace SelfCheck

/-- The words from which the left halves are drawn. -/
def leftWords (o : Options) : List UInt32 :=
  (Keystream.words o.seed (2 * o.dimension + 2 * o.bytes)).take o.dimension

/-- The words from which the right halves are drawn. -/
def rightWords (o : Options) : List UInt32 :=
  ((Keystream.words o.seed (2 * o.dimension + 2 * o.bytes)).drop o.dimension).take o.dimension

/-- Are all halves of one side drawn as zeros? -/
def DrawsZeros (o : Options) : Prop :=
  (∀ w ∈ leftWords o, DrawsZero w) ∨ (∀ w ∈ rightWords o, DrawsZero w)

instance (o : Options) : Decidable (DrawsZeros o) :=
  -- the lists are searched, and not all words there are
  @instDecidableOr _ _ (List.decidableBAll _ _) (List.decidableBAll _ _)

/-- Operands that all kernels accept: as long as the options say, and finite. -/
structure Operands.Sound (o : Options) (x : Operands) : Prop where
  /-- The left halves are as many as asked for. -/
  length_leftHalves : x.leftHalves.length = o.dimension
  /-- So are the right ones. -/
  length_rightHalves : x.rightHalves.length = o.dimension
  /-- The left bytes are as many as asked for. -/
  length_leftBytes : x.leftBytes.length = o.bytes
  /-- So are the right ones. -/
  length_rightBytes : x.rightBytes.length = o.bytes
  /-- All halves are finite. -/
  isFinite : ∀ h ∈ x.leftHalves ++ x.rightHalves, h.isFinite = true

/-- The left halves are drawn from their words. -/
theorem leftHalves_draw (o : Options) :
    (Operands.draw o).leftHalves = (leftWords o).map halfOfWord := by
  rw [Operands.draw, leftWords, List.take_take, Nat.min_eq_left (by omega)]

/-- So are the right ones. -/
theorem rightHalves_draw (o : Options) :
    (Operands.draw o).rightHalves = (rightWords o).map halfOfWord := by
  rw [Operands.draw, rightWords, List.drop_take, show 2 * o.dimension - o.dimension = o.dimension
    by omega]

/-- Whatever is drawn is accepted. -/
theorem sound_draw (o : Options) : (Operands.draw o).Sound o := by
  have hlen := Keystream.length_words o.seed (2 * o.dimension + 2 * o.bytes)
  refine ⟨?_, ?_, ?_, ?_, ?_⟩
  · simp only [Operands.draw, List.length_map, List.length_take, hlen]
    omega
  · simp only [Operands.draw, List.length_map, List.length_take, List.length_drop, hlen]
    omega
  · simp only [Operands.draw, List.length_map, List.length_take, List.length_drop, hlen]
    omega
  · simp only [Operands.draw, List.length_map, List.length_drop, hlen]
    omega
  · rw [leftHalves_draw, rightHalves_draw, ← List.map_append]
    exact List.forall_mem_map.mpr fun w _ => (halfOfWord_spec w).1

/-- One side of the drawn halves holds nothing but zeros exactly when its values are
small. -/
theorem isZeros_draw_iff (o : Options) :
    (Operands.draw o).leftHalves.IsZeros ∨ (Operands.draw o).rightHalves.IsZeros ↔
      DrawsZeros o := by
  have hside (words : List UInt32) :
      HalfVector.IsZeros (words.map halfOfWord) ↔ ∀ w ∈ words, DrawsZero w :=
    List.forall_mem_map.trans (forall₂_congr fun w _ => (halfOfWord_spec w).2)
  rw [leftHalves_draw, rightHalves_draw, hside, hside, DrawsZeros]

/-! ## Answers that are compared with themselves -/

/-- Two equal finite answers have the relative difference zero. -/
theorem relativeDifference_self (k : Kernel) (tolerance : Double) {v : Double}
    (hv : v.isFinite = true) :
    (Comparison.mk k v v tolerance).relativeDifference = .zero false := by
  obtain ⟨r, hr, hdiv, hle⟩ := Binary.exists_div_of_one_le false
    Format.double.represents_zero (Binary.atLeast_max_one (by decide) hv)
  rw [Comparison.relativeDifference, Binary.sub_self_of_isFinite hv]
  exact hdiv.trans (Binary.finite_congr (Nat.le_zero.mp hle))

/-- Every tolerance allows a difference of zero. -/
theorem zero_le_tolerance (k : Kernel) : (Binary.zero false : Double).le k.tolerance = true := by
  cases k <;> decide +kernel

section Evaluation

variable (host : CapabilitySet) {o : Options} (hpos : 1 ≤ o.dimension)
  (hmax : o.dimension ≤ maxDimension) {x : Operands} (hx : x.Sound o)
include hpos hmax hx

/-- Apart from the cosine, all answers on sound operands are finite numbers. -/
theorem exists_evaluate_of_ne {k : Kernel} (hk : k ≠ .cosineSimilarity) :
    ∃ v, k.evaluate (Registry.fresh.bind host .portable) o.dimension o.bytes x = .ok v ∧
      v.isFinite = true := by
  have hlen : (x.leftHalves.zip x.rightHalves).length ≤ maxDimension := by
    rw [List.length_zip, hx.length_leftHalves, hx.length_rightHalves, Nat.min_self]
    exact hmax
  obtain ⟨hleft, hright⟩ := List.forall_mem_append.mp hx.isFinite
  have hpairs := HalfKernels.finitePair_of_mem_zip hleft hright
  have hr := Registry.isBound_bind host .portable Registry.fresh
  have hsum {kernel : HalfStrategy → HalfVector → HalfVector → Single}
      (hfinite : (kernel .portable x.leftHalves x.rightHalves).isFinite = true) :
      ∃ v, ((Registry.fresh.bind host .portable).onHalves
        (fun strategy a b => .ok (kernel strategy a b)) o.dimension x.leftHalves
        x.rightHalves).map Binary.toDouble = .ok v ∧ v.isFinite = true := by
    rw [Registry.onHalves_of_length host _ hpos hmax hx.length_leftHalves hx.length_rightHalves]
    exact ⟨_, rfl, (Binary.isFinite_widen _ _).trans hfinite⟩
  cases k with
  | squaredDistance => exact hsum (HalfKernels.squaredDistance_accurate hlen hpairs).1
  | innerProduct => exact hsum (HalfKernels.innerProduct_accurate hlen hpairs).1
  | taxicabDistance => exact hsum (HalfKernels.taxicabDistance_accurate hlen hpairs).1
  | cosineSimilarity => exact absurd rfl hk
  | hammingDistance =>
    obtain ⟨m, hm, hcount, -⟩ := Binary.exists_ofNat_of_le
      (by decide : 64 + Format.double.quantum < Format.double.capacity)
      (BitKernels.hamming (x.leftBytes.take o.bytes) (x.rightBytes.take o.bytes) 0).toNat_lt.le
    refine ⟨_, ?_, (congrArg Binary.isFinite hcount).trans rfl⟩
    rw [Kernel.evaluate, Registry.hammingDistance_of_isBound hr hx.length_leftBytes.ge
      hx.length_rightBytes.ge]
    rfl
  | jaccardDistance =>
    exact ⟨_, Registry.jaccardDistance_of_isBound hr hx.length_leftBytes.ge
      hx.length_rightBytes.ge 0 0 0, BitKernels.OverlapCounts.isFinite_distance _⟩

/-- The cosine runs over all halves of sound operands. -/
theorem evaluate_cosineSimilarity :
    Kernel.cosineSimilarity.evaluate (Registry.fresh.bind host .portable) o.dimension o.bytes x =
      HalfKernels.cosineSimilarity x.leftHalves x.rightHalves :=
  Registry.onHalves_of_length host _ hpos hmax hx.length_leftHalves hx.length_rightHalves

/-- What it comes to. -/
theorem cosineOutcome_evaluate :
    HalfKernels.CosineOutcome x.leftHalves x.rightHalves
      (Kernel.cosineSimilarity.evaluate (Registry.fresh.bind host .portable) o.dimension o.bytes
        x) := by
  have hlen : x.leftHalves.length = x.rightHalves.length :=
    hx.length_leftHalves.trans hx.length_rightHalves.symm
  have hne : x.leftHalves ≠ [] := by
    rw [← List.length_pos_iff, hx.length_leftHalves]
    exact hpos
  rw [evaluate_cosineSimilarity host hpos hmax hx]
  exact HalfKernels.cosineOutcome hlen hne (hx.length_leftHalves.trans_le hmax)

/-- All answers on sound operands are finite numbers, unless one side of the halves
holds nothing but zeros. -/
theorem exists_evaluate (hzeros : ¬(x.leftHalves.IsZeros ∨ x.rightHalves.IsZeros)) (k : Kernel) :
    ∃ v, k.evaluate (Registry.fresh.bind host .portable) o.dimension o.bytes x = .ok v ∧
      v.isFinite = true := by
  by_cases hk : k = .cosineSimilarity
  · subst hk
    obtain ⟨v, hv, hnan, hfinite⟩ := (cosineOutcome_evaluate host hpos hmax hx).value hzeros
    refine ⟨v, hv, hfinite (Bool.eq_false_iff.mpr fun h => ?_)⟩
    obtain ⟨y, hy, hspecial⟩ := hnan.mp h
    exact Bool.noConfusion
      ((hx.isFinite y hy).symm.trans (Half.isFinite_eq_false_iff.mpr hspecial))
  · exact exists_evaluate_of_ne host hpos hmax hx hk

/-- Otherwise the cosine is refused. -/
theorem evaluate_cosine_of_isZeros (hzeros : x.leftHalves.IsZeros ∨ x.rightHalves.IsZeros) :
    Kernel.cosineSimilarity.evaluate (Registry.fresh.bind host .portable) o.dimension o.bytes x =
      .error .cosineOfZero := by
  obtain ⟨fault, hfault, -⟩ := (cosineOutcome_evaluate host hpos hmax hx).degenerate_iff.mpr hzeros
  rw [evaluate_cosineSimilarity host hpos hmax hx] at hfault ⊢
  rw [hfault, (Registry.similarity_eq_error_iff.mp hfault).1]

end Evaluation

/-! ## Runs -/

/-- A report on these options in which all six kernels agree with themselves. -/
structure Report.Exact (o : Options) (report : Report) : Prop where
  /-- The report is about these options. -/
  options : (⟨report.dimension, report.bytes, report.seed⟩ : Options) = o
  /-- It compares every kernel once, in order. -/
  kernels : report.comparisons.map Comparison.kernel = Kernel.all
  /-- There is no difference, and every comparison passes. -/
  exact : ∀ c ∈ report.comparisons, c.relativeDifference = .zero false ∧ c.passed = true

/-- A report without a difference has no failures. -/
theorem Report.Exact.passed {o : Options} {report : Report} (h : report.Exact o) :
    report.passed = true :=
  List.all_eq_true.mpr fun c hc => (h.exact c hc).2

/-- A kernel that answers is compared with itself. -/
theorem compare_of_ok {r : Registry} {o : Options} {x : Operands} {k : Kernel} {v : Double}
    (hv : k.evaluate r o.dimension o.bytes x = .ok v) :
    compare r r o x k = .ok ⟨k, v, v, k.tolerance⟩ := by
  simp only [compare, hv, Bind.bind, Except.bind, Pure.pure, Except.pure]

/-- A kernel that fails is not compared. -/
theorem compare_of_error {r s : Registry} {o : Options} {x : Operands} {k : Kernel} {fault : Fault}
    (hfault : k.evaluate r o.dimension o.bytes x = .error fault) :
    compare r s o x k = .error fault := by
  simp only [compare, hfault, Bind.bind, Except.bind]

section Runs

variable (host : CapabilitySet) {o : Options} (hpos : 1 ≤ o.dimension)
  (hmax : o.dimension ≤ maxDimension)
include hpos hmax

/-- In portable mode both registries are the same, and draw nothing that they refuse. -/
theorem run_portable_eq :
    run host .portable o =
      (Kernel.all.mapM (compare (Registry.fresh.bind host .portable)
        (Registry.fresh.bind host .portable) o (Operands.draw o))).map fun comparisons =>
          ⟨o.dimension, o.bytes, o.seed, CapabilitySet.none.strategies, comparisons⟩ := by
  have hrange : ¬(o.dimension = 0 ∨ maxDimension < o.dimension) := by omega
  rw [run, if_neg hrange]
  dsimp only
  generalize Kernel.all.mapM (compare (Registry.fresh.bind host .portable)
    (Registry.fresh.bind host .portable) o (Operands.draw o)) = comparisons
  cases comparisons with
  | error => rfl
  | ok => rfl

/-- Unless one side is drawn as zeros, the portable kernels agree with themselves. -/
theorem run_of_not_drawsZeros (h : ¬DrawsZeros o) :
    ∃ report, run host .portable o = .ok report ∧ report.Exact o := by
  choose v hv hfinite using
    exists_evaluate host hpos hmax (sound_draw o) (mt (isZeros_draw_iff o).mp h)
  have hcompare : compare (Registry.fresh.bind host .portable)
      (Registry.fresh.bind host .portable) o (Operands.draw o) =
        fun k => pure ⟨k, v k, v k, k.tolerance⟩ :=
    funext fun k => compare_of_ok (hv k)
  rw [run_portable_eq host hpos hmax, hcompare, List.mapM_pure]
  refine ⟨_, rfl, rfl, ?_, List.forall_mem_map.mpr fun k _ => ?_⟩
  · rw [List.map_map]
    exact List.map_id _
  · have hzero := relativeDifference_self k k.tolerance (hfinite k)
    refine ⟨hzero, ?_⟩
    rw [Comparison.passed, hzero]
    exact zero_le_tolerance k

/-- If one side is drawn as zeros, the fault of the cosine ends the run. -/
theorem run_of_drawsZeros (h : DrawsZeros o) : run host .portable o = .error .cosineOfZero := by
  have hx := sound_draw o
  -- the two kernels before the cosine answer, so that its fault is the first one
  obtain ⟨d, hd, -⟩ := exists_evaluate_of_ne host hpos hmax hx (k := .squaredDistance) (by decide)
  obtain ⟨p, hp, -⟩ := exists_evaluate_of_ne host hpos hmax hx (k := .innerProduct) (by decide)
  have hcosine := evaluate_cosine_of_isZeros host hpos hmax hx ((isZeros_draw_iff o).mpr h)
  rw [run_portable_eq host hpos hmax, Kernel.all]
  simp only [List.mapM_cons, compare_of_ok hd, compare_of_ok hp, compare_of_error hcosine,
    Bind.bind, Except.bind, Except.map]

end Runs

/-- What a self-check in portable mode comes to, by itself and as a run of the program. -/
structure PortableOutcome (host : CapabilitySet) (o : Options) : Prop where
  /-- Unless one side of the halves is drawn as zeros, the report finds no difference. -/
  report : ¬DrawsZeros o → ∃ report, run host .portable o = .ok report ∧ report.Exact o
  /-- If one side is, the fault of the cosine ends the run, and there is no report. -/
  fault : DrawsZeros o → run host .portable o = .error .cosineOfZero
  /-- The program exits with zero in the first case and with one in the second. -/
  code : ∀ L parse arguments file environment dispatch json settings,
    parse arguments = .ok ⟨dispatch, .selfcheck o json⟩ →
    Settings.load L file environment = .ok settings →
    dispatch.getD settings.dispatch = .portable →
    (Program.run L parse host arguments file environment).code = if DrawsZeros o then 1 else 0

/-- A self-check of the portable kernels, for every dimension in range, every number of
bytes and every seed: all six kernels agree with themselves exactly, unless the stream
gives only values below `2 ^ -14` for one side of the halves. -/
theorem portable_outcome (host : CapabilitySet) {o : Options} (hpos : 1 ≤ o.dimension)
    (hmax : o.dimension ≤ maxDimension) : PortableOutcome host o where
  report h := run_of_not_drawsZeros host hpos hmax h
  fault h := run_of_drawsZeros host hpos hmax h
  code := by
    intro L parse arguments file environment dispatch json settings hparse hload hdispatch
    have hrun : Program.run L parse host arguments file environment =
        Program.reportSelfCheck host .portable o json := by
      simp only [Program.run, hparse, hload, hdispatch, Program.runCommand]
    rw [hrun, Program.reportSelfCheck]
    by_cases h : DrawsZeros o
    · rw [run_of_drawsZeros host hpos hmax h, if_pos h]
      rfl
    · obtain ⟨report, hreport, hexact⟩ := run_of_not_drawsZeros host hpos hmax h
      rw [hreport, if_neg h]
      dsimp only
      rw [if_pos hexact.passed]
      rfl

/-- The seed 42 draws no zeros in three dimensions, and 8739 one in the first. -/
theorem portable_outcome_seeds :
    (∃ report, run .none .portable ⟨3, 8, 42⟩ = .ok report ∧ report.Exact ⟨3, 8, 42⟩) ∧
      run .none .portable ⟨1, 0, 8739⟩ = .error .cosineOfZero :=
  ⟨(portable_outcome .none (by decide) (by decide)).report (by decide +kernel),
    (portable_outcome .none (by decide) (by decide)).fault (by decide +kernel)⟩

/-- Not every self-check of the portable kernels can run: in one dimension the seed 8739
draws a value below `2 ^ -14` for the right side, which is encoded as a zero. -/
theorem not_portable_passes :
    ¬∀ o : Options, 1 ≤ o.dimension → o.dimension ≤ maxDimension →
      ∃ report, run .none .portable o = .ok report ∧ report.Exact o := by
  intro h
  obtain ⟨report, hok, -⟩ := h ⟨1, 0, 8739⟩ (by decide) (by decide)
  have hdraws : DrawsZeros ⟨1, 0, 8739⟩ := by decide +kernel
  rw [run_of_drawsZeros .none (by decide) (by decide) hdraws] at hok
  cases hok

end SelfCheck

end VectorDistance
