import VectorDistance.BitVector
import VectorDistance.HalfVector
import VectorDistance.Proofs.BlockCounts

/-!
# What every call comes to

Checks come in a fixed order. A distance of whole vectors compares dimensions
before it asks the registry, a kernel asks whether the registry is bound before it
looks at a length, and elements come last, the first ones of each buffer alone.
`EntryPoint` says so of a kernel, with its faults, and `FinishedFrom` of a distance
that is finished from the value of a kernel. Both hold on every registry and for
all arguments, so that every fault has one condition, and no two compete.
-/

namespace VectorDistance

/-- A kernel as callers of a registry see it, on two buffers of which it reads the
first `size` elements. -/
structure EntryPoint {ε α : Type} (r : Registry) (size : Nat) (inRange : Prop)
    (kernel call : List ε → List ε → Except Fault α) : Prop where
  /-- An unbound registry refuses, whatever the arguments are. -/
  unbound : r.isBound = false → ∀ a b, call a b = .error .unbound
  /-- A bound one finds the arguments invalid exactly for a size out of range and for
  a buffer that is shorter. -/
  invalid_iff : r.isBound = true → ∀ a b,
    ((∃ fault, call a b = .error fault ∧ fault.kind = .invalidArgument) ↔
      ¬inRange ∨ min a.length b.length < size)
  /-- Otherwise the first elements decide, whatever follows them. -/
  answer : r.isBound = true → inRange → ∀ a b, size ≤ min a.length b.length →
    call a b = kernel (a.take size) (b.take size)

/-- A distance of vectors of two dimensions, finished from the value of a kernel. -/
structure FinishedFrom {α β : Type} (left right : Nat) (kernel : Except Fault α)
    (finish : α → β) (distance : Except Fault β) : Prop where
  /-- Dimensions that differ are refused, and nothing else is refused in this way. -/
  mismatch_iff : ∀ m n,
    (distance = .error (.dimensionMismatch m n) ↔ left ≠ right ∧ m = left ∧ n = right)
  /-- Otherwise the distance fails when the kernel does, with its fault. -/
  fault_iff : left = right → ∀ fault, (distance = .error fault ↔ kernel = .error fault)
  /-- A value of the kernel is finished. -/
  value_iff : left = right → ∀ value,
    (distance = .ok value ↔ ∃ x, kernel = .ok x ∧ finish x = value)

/-! ## Kernels -/

/-- What the checks of a dimension find: the range comes before the lengths. -/
theorem checkDimension_eq_error_iff {dimension : Nat} {a b : HalfVector} {fault : Fault} :
    checkDimension dimension a b = .error fault ↔
      (¬(1 ≤ dimension ∧ dimension ≤ maxDimension) ∧ fault = .dimensionOutOfRange dimension) ∨
      ((1 ≤ dimension ∧ dimension ≤ maxDimension) ∧ min a.length b.length < dimension ∧
        fault = .tooFewValues (min a.length b.length) dimension) := by
  have hrange : (dimension = 0 ∨ maxDimension < dimension) ↔
      ¬(1 ≤ dimension ∧ dimension ≤ maxDimension) := by omega
  unfold checkDimension
  dsimp only
  by_cases hin : 1 ≤ dimension ∧ dimension ≤ maxDimension
  · rw [if_neg (mt hrange.mp (not_not_intro hin))]
    by_cases hshort : min a.length b.length < dimension
    · simp [hin, hshort, eq_comm]
    · simp [hin, hshort]
  · rw [if_pos (hrange.mpr hin)]
    simp [hin, eq_comm]

/-- What the check of a number of bytes finds. -/
theorem checkBytes_eq_error_iff {bytes : Nat} {a b : List UInt8} {fault : Fault} :
    checkBytes bytes a b = .error fault ↔
      min a.length b.length < bytes ∧ fault = .tooFewBytes (min a.length b.length) bytes := by
  unfold checkBytes
  by_cases hshort : min a.length b.length < bytes
  · simp [hshort, eq_comm]
  · simp [hshort]

namespace Registry

variable {α β : Type} {r : Registry}

/-- A registry that is not bound holds nothing. -/
theorem bound_eq_none_of_isBound (hr : r.isBound = false) : r.bound = none :=
  Option.isSome_eq_false_iff.mp hr |> Option.isNone_iff_eq_none.mp

/-- A bound registry refuses what the check of the dimension refuses. -/
theorem onHalves_of_checkDimension (hr : r.isBound = true)
    (kernel : HalfStrategy → HalfVector → HalfVector → Except Fault α) {dimension : Nat}
    {a b : HalfVector} {fault : Fault} (h : checkDimension dimension a b = .error fault) :
    r.onHalves kernel dimension a b = .error fault := by
  obtain ⟨c, hc⟩ := Option.isSome_iff_exists.mp hr
  simp only [onHalves, capabilities, hc, h, Bind.bind, Except.bind]

/-- A bound registry refuses what the check of the bytes refuses. -/
theorem onBytes_of_checkBytes (hr : r.isBound = true)
    (kernel : BitStrategy → List UInt8 → List UInt8 → α) {bytes : Nat} {a b : List UInt8}
    {fault : Fault} (h : checkBytes bytes a b = .error fault) :
    r.onBytes kernel bytes a b = .error fault := by
  obtain ⟨c, hc⟩ := Option.isSome_iff_exists.mp hr
  simp only [onBytes, capabilities, hc, h, Bind.bind, Except.bind]

/-- A kernel of halves whose own faults are not about its arguments answers in the form of
the bound strategy. -/
theorem entryPoint_onHalves (r : Registry) (dimension : Nat)
    (kernel : HalfStrategy → HalfVector → HalfVector → Except Fault α)
    (hkernel : ∀ strategy x y fault, kernel strategy x y = .error fault →
      fault.kind ≠ .invalidArgument) :
    EntryPoint r dimension (1 ≤ dimension ∧ dimension ≤ maxDimension) (kernel r.halfStrategy)
      (r.onHalves kernel dimension) where
  unbound hr := onHalves_of_unbound (bound_eq_none_of_isBound hr) kernel dimension
  answer hr hrange a b hsize :=
    onHalves_of_isBound hr kernel hrange.1 hrange.2 (by omega) (by omega)
  invalid_iff hr a b := by
    constructor
    · refine fun ⟨fault, hcall, hkind⟩ => Decidable.byContradiction fun hsound => ?_
      rw [onHalves_of_isBound hr kernel (by omega) (by omega) (by omega) (by omega)] at hcall
      exact hkernel _ _ _ fault hcall hkind
    · intro hunsound
      by_cases hrange : 1 ≤ dimension ∧ dimension ≤ maxDimension
      · have hshort := hunsound.resolve_left (not_not_intro hrange)
        exact ⟨_, onHalves_of_checkDimension hr kernel
          (checkDimension_eq_error_iff.mpr (.inr ⟨hrange, hshort, rfl⟩)), rfl⟩
      · exact ⟨_, onHalves_of_checkDimension hr kernel
          (checkDimension_eq_error_iff.mpr (.inl ⟨hrange, rfl⟩)), rfl⟩

/-- A kernel of halves without faults of its own. -/
theorem entryPoint_onHalves_ok (r : Registry) (dimension : Nat)
    (kernel : HalfStrategy → HalfVector → HalfVector → α) :
    EntryPoint r dimension (1 ≤ dimension ∧ dimension ≤ maxDimension)
      (fun x y => .ok (kernel r.halfStrategy x y))
      (r.onHalves (fun strategy x y => .ok (kernel strategy x y)) dimension) := by
  refine entryPoint_onHalves r dimension (fun strategy x y => .ok (kernel strategy x y))
    fun _ _ _ _ h => ?_
  cases h

/-- A kernel of bytes has no faults of its own, and answers alike under every strategy. -/
theorem entryPoint_onBytes (r : Registry) (bytes : Nat)
    {kernel : BitStrategy → List UInt8 → List UInt8 → α} {plain : List UInt8 → List UInt8 → α}
    (hplain : ∀ strategy x y, x.length = y.length → kernel strategy x y = plain x y) :
    EntryPoint r bytes True (fun x y => .ok (plain x y)) (r.onBytes kernel bytes) where
  unbound hr := onBytes_of_unbound (bound_eq_none_of_isBound hr) kernel bytes
  answer hr _ a b hsize := onBytes_of_isBound hr hplain (by omega) (by omega)
  invalid_iff hr a b := by
    rw [not_true, false_or]
    constructor
    · refine fun ⟨fault, hcall, _⟩ => Decidable.byContradiction fun hsize => ?_
      rw [onBytes_of_isBound hr hplain (by omega) (by omega)] at hcall
      cases hcall
    · intro hshort
      exact ⟨_, onBytes_of_checkBytes hr kernel (checkBytes_eq_error_iff.mpr ⟨hshort, rfl⟩), rfl⟩

end Registry

/-- Calls of a kernel never find dimensions that differ, unless the kernel does. -/
theorem EntryPoint.ne_mismatch {ε α : Type} {r : Registry} {size : Nat} {inRange : Prop}
    {kernel call : List ε → List ε → Except Fault α} (h : EntryPoint r size inRange kernel call)
    (hkernel : ∀ x y m n, kernel x y ≠ .error (.dimensionMismatch m n)) (a b : List ε) (m n : Nat) :
    call a b ≠ .error (.dimensionMismatch m n) := by
  intro hcall
  cases hr : r.isBound with
  | false =>
    rw [h.unbound hr] at hcall
    cases hcall
  | true =>
    by_cases hsound : ¬inRange ∨ min a.length b.length < size
    · obtain ⟨fault, hfault, hkind⟩ := (h.invalid_iff hr a b).mpr hsound
      rw [hcall] at hfault
      cases hfault
      cases hkind
    · obtain ⟨hrange, hsize⟩ := not_or.mp hsound
      rw [h.answer hr (Classical.not_not.mp hrange) a b (Nat.not_lt.mp hsize)] at hcall
      exact hkernel _ _ m n hcall

/-! ## Distances -/

section Distances

variable {α β : Type}

/-- Finishing the value of a kernel keeps its faults. -/
theorem map_eq_error_iff {kernel : Except Fault α} {finish : α → β} {fault : Fault} :
    kernel.map finish = .error fault ↔ kernel = .error fault := by
  cases kernel <;> simp [Except.map]

/-- Finishing gives a value exactly when the kernel does. -/
theorem map_eq_ok_iff {kernel : Except Fault α} {finish : α → β} {value : β} :
    kernel.map finish = .ok value ↔ ∃ x, kernel = .ok x ∧ finish x = value := by
  cases kernel <;> simp [Except.map]

/-- A distance that refuses dimensions that differ and else finishes a kernel. -/
theorem finishedFrom_of_eq {left right : Nat} {kernel : Except Fault α} {finish : α → β}
    {distance : Except Fault β}
    (hkernel : ∀ m n, kernel ≠ .error (.dimensionMismatch m n))
    (h : distance =
      if left = right then kernel.map finish else .error (.dimensionMismatch left right)) :
    FinishedFrom left right kernel finish distance := by
  by_cases heq : left = right
  · rw [if_pos heq] at h
    subst h
    exact ⟨fun m n => iff_of_false (mt map_eq_error_iff.mp (hkernel m n)) fun hne => hne.1 heq,
      fun _ _ => map_eq_error_iff, fun _ _ => map_eq_ok_iff⟩
  · rw [if_neg heq] at h
    subst h
    refine ⟨fun m n => ?_, fun h => absurd h heq, fun h => absurd h heq⟩
    simp [heq, eq_comm]

end Distances

namespace Registry

/-- What the kernels of a registry come to, bound or not. -/
structure KernelOutcomes (r : Registry) : Prop where
  /-- Kernels of halves run under the strategy that the registry reports. -/
  halfStrategy : ∀ s, r.strategies = .ok s → r.halfStrategy = s.half
  /-- Squared distances. -/
  squaredDistance : ∀ dimension, EntryPoint r dimension (1 ≤ dimension ∧ dimension ≤ maxDimension)
    (fun x y => .ok (r.halfStrategy.squaredDistance x y)) (r.squaredDistance dimension)
  /-- Inner products. -/
  innerProduct : ∀ dimension, EntryPoint r dimension (1 ≤ dimension ∧ dimension ≤ maxDimension)
    (fun x y => .ok (r.halfStrategy.innerProduct x y)) (r.innerProduct dimension)
  /-- Taxicab distances. -/
  taxicabDistance : ∀ dimension, EntryPoint r dimension (1 ≤ dimension ∧ dimension ≤ maxDimension)
    (fun x y => .ok (r.halfStrategy.taxicabDistance x y)) (r.taxicabDistance dimension)
  /-- Cosines, from a kernel that has a fault of its own. -/
  cosineSimilarity : ∀ dimension, EntryPoint r dimension
    (1 ≤ dimension ∧ dimension ≤ maxDimension) r.halfStrategy.cosineSimilarity
    (r.cosineSimilarity dimension)
  /-- That fault is a degenerate input, for a vector whose squared norm is zero. -/
  cosine_fault_iff : ∀ (strategy : HalfStrategy) x y fault,
    (strategy.cosineSimilarity x y = .error fault ↔
      fault = .cosineOfZero ∧ ((strategy.cosineSums x y).leftNorm.isZero = true ∨
        (strategy.cosineSums x y).rightNorm.isZero = true))
  /-- Hamming distances, from any seed and under every strategy. -/
  hammingDistance : ∀ bytes seed, EntryPoint r bytes True
    (fun x y => .ok (BitKernels.hamming x y seed)) fun a b => r.hammingDistance bytes a b seed
  /-- Jaccard distances, from any seeds and under every strategy. -/
  jaccardDistance : ∀ bytes seedBoth seedLeft seedRight, EntryPoint r bytes True
    (fun x y => .ok (BitKernels.jaccard x y seedBoth))
    fun a b => r.jaccardDistance bytes a b seedBoth seedLeft seedRight

/-- What the distances of whole vectors come to on a registry, bound or not. -/
structure DistanceOutcomes (r : Registry) : Prop where
  /-- Euclidean distances are roots. -/
  euclidean : ∀ a b, FinishedFrom a.length b.length (r.squaredDistance a.length a b)
    (fun squared => squared.toDouble.sqrt) (HalfVector.euclideanDistance r a b)
  /-- Negative inner products change the sign. -/
  negativeInner : ∀ a b, FinishedFrom a.length b.length (r.innerProduct a.length a b)
    (fun product => -product) (HalfVector.negativeInnerProduct r a b)
  /-- Cosine distances are taken from one. -/
  cosine : ∀ a b, FinishedFrom a.length b.length (r.cosineSimilarity a.length a b)
    (fun similarity => Binary.ofNat 1 - similarity) (HalfVector.cosineDistance r a b)
  /-- Spherical distances are angles, whatever takes the arc cosine. -/
  spherical : ∀ arcCosine a b, FinishedFrom a.length b.length (r.cosineSimilarity a.length a b)
    (fun similarity => arcCosine (similarity.clamp (-Binary.ofNat 1) (Binary.ofNat 1)))
    (HalfVector.sphericalDistance arcCosine r a b)
  /-- Taxicab distances are those of the kernel. -/
  taxicab : ∀ a b, FinishedFrom a.length b.length (r.taxicabDistance a.length a b)
    id (HalfVector.taxicabDistance r a b)
  /-- Hamming distances of bit vectors are counts over all their bytes. -/
  hamming : ∀ a b : BitVector, FinishedFrom a.dimension b.dimension
    (r.hammingDistance a.bytes.length a.bytes b.bytes 0)
    (fun count => Binary.ofNat count.toNat) (BitVector.hammingDistance r a b)
  /-- Jaccard distances of bit vectors are those of all their bytes. -/
  jaccard : ∀ a b : BitVector, FinishedFrom a.dimension b.dimension
    (r.jaccardDistance a.bytes.length a.bytes b.bytes 0 0 0) id (BitVector.jaccardDistance r a b)

/-- When the sums behind a cosine give none. -/
theorem similarity_eq_error_iff {sums : HalfKernels.CosineSums} {fault : Fault} :
    sums.similarity = .error fault ↔
      fault = .cosineOfZero ∧ (sums.leftNorm.isZero = true ∨ sums.rightNorm.isZero = true) := by
  rw [← Bool.or_eq_true, HalfKernels.CosineSums.similarity]
  split
  · next hzero => simp [hzero, eq_comm]
  · next hzero => simp [hzero]

/-- The kernels of every registry check their arguments alike. -/
theorem kernelOutcomes (r : Registry) : KernelOutcomes r where
  halfStrategy _ := halfStrategy_eq
  squaredDistance dimension := entryPoint_onHalves_ok r dimension HalfStrategy.squaredDistance
  innerProduct dimension := entryPoint_onHalves_ok r dimension HalfStrategy.innerProduct
  taxicabDistance dimension := entryPoint_onHalves_ok r dimension HalfStrategy.taxicabDistance
  cosineSimilarity dimension := by
    refine entryPoint_onHalves r dimension HalfStrategy.cosineSimilarity
      fun strategy x y fault h => ?_
    rw [(similarity_eq_error_iff.mp h).1]
    exact nofun
  cosine_fault_iff _ _ _ _ := similarity_eq_error_iff
  hammingDistance bytes seed :=
    entryPoint_onBytes r bytes fun strategy _ _ h => strategy.hamming_eq h seed
  jaccardDistance bytes seedBoth _ _ :=
    entryPoint_onBytes r bytes fun strategy _ _ h => strategy.jaccard_eq h seedBoth

/-- A cosine never finds dimensions that differ. -/
theorem cosineSimilarity_ne_mismatch {r : Registry} (a b : HalfVector) (m n : Nat) :
    r.cosineSimilarity a.length a b ≠ .error (.dimensionMismatch m n) := by
  refine (r.kernelOutcomes.cosineSimilarity _).ne_mismatch (fun x y m n h => ?_) a b m n
  cases (similarity_eq_error_iff.mp h).1

/-- A distance of half vectors, written as its equation. -/
theorem bind_commonDimension {β : Type} (a b : HalfVector) (rest : Nat → Except Fault β) :
    HalfVector.commonDimension a b >>= rest =
      if a.length = b.length then rest a.length
      else .error (.dimensionMismatch a.length b.length) := by
  unfold HalfVector.commonDimension
  split
  · rfl
  · rfl

/-- A distance of bit vectors, written as its equation. -/
theorem throw_unless_eq {β : Type} {left right : Nat} (fault : Fault) (rest : Except Fault β) :
    (do if left ≠ right then throw fault
        rest : Except Fault β) = if left = right then rest else .error fault := by
  by_cases h : left = right
  · simp [h]
  · simp [h]
    rfl

/-- A value that is finished already stays as it is. -/
theorem map_id_eq {α : Type} (kernel : Except Fault α) : kernel.map id = kernel := by
  cases kernel with
  | error => rfl
  | ok => rfl

/-- The last step of a distance finishes the value of its kernel. -/
theorem bind_pure_eq_map {α β : Type} (kernel : Except Fault α) (finish : α → β) :
    (kernel >>= fun x => pure (finish x)) = kernel.map finish := by
  cases kernel with
  | error => rfl
  | ok => rfl

/-- The distances of whole vectors compare dimensions first, on every registry. -/
theorem distanceOutcomes (r : Registry) : DistanceOutcomes r where
  euclidean a b := by
    refine finishedFrom_of_eq ((r.kernelOutcomes.squaredDistance _).ne_mismatch nofun a b) ?_
    simp only [HalfVector.euclideanDistance, bind_commonDimension, bind_pure_eq_map]
  negativeInner a b := by
    refine finishedFrom_of_eq ((r.kernelOutcomes.innerProduct _).ne_mismatch nofun a b) ?_
    simp only [HalfVector.negativeInnerProduct, bind_commonDimension, bind_pure_eq_map]
  cosine a b := by
    refine finishedFrom_of_eq (cosineSimilarity_ne_mismatch a b) ?_
    simp only [HalfVector.cosineDistance, bind_commonDimension, bind_pure_eq_map]
  spherical _ a b := by
    refine finishedFrom_of_eq (cosineSimilarity_ne_mismatch a b) ?_
    simp only [HalfVector.sphericalDistance, bind_commonDimension, bind_pure_eq_map]
  taxicab a b := by
    refine finishedFrom_of_eq ((r.kernelOutcomes.taxicabDistance _).ne_mismatch nofun a b) ?_
    simp only [HalfVector.taxicabDistance, bind_commonDimension, map_id_eq]
  hamming a b := by
    refine finishedFrom_of_eq
      ((r.kernelOutcomes.hammingDistance _ _).ne_mismatch nofun a.bytes b.bytes) ?_
    rw [← bind_pure_eq_map, BitVector.hammingDistance]
    exact throw_unless_eq _ _
  jaccard a b := by
    refine finishedFrom_of_eq
      ((r.kernelOutcomes.jaccardDistance _ _ _ _).ne_mismatch nofun a.bytes b.bytes) ?_
    rw [map_id_eq, BitVector.jaccardDistance]
    exact throw_unless_eq _ _

/-- The outcome of every call, for every registry and all arguments: an unbound
registry, unsuitable arguments, dimensions that differ and a vector without
direction have one fault each, in that order of precedence and with dimensions
before all; whatever is not refused depends on the first elements alone. -/
theorem call_outcomes (r : Registry) : KernelOutcomes r ∧ DistanceOutcomes r :=
  ⟨kernelOutcomes r, distanceOutcomes r⟩

/-- Each fault where another one is near: three bits and five in one byte each, on a
registry that is not bound; a dimension of zero on the same registry; and a vector
of zeros on a bound one. On a processor that decodes eight halves at a time the
mode of the binding shows: beside `2 ^ 24` two ones are lost one after the other, and
count where they are added to each other first. -/
theorem call_outcomes_of_faults :
    BitVector.hammingDistance fresh ⟨[0xe0], 3, rfl⟩ ⟨[0xe0], 5, rfl⟩ =
        .error (.dimensionMismatch 3 5) ∧
      fresh.squaredDistance 0 [] [] = .error .unbound ∧
      HalfVector.cosineDistance (fresh.bind .none .portable) [.one] [.negZero] =
        .error .cosineOfZero ∧
      (let a : HalfVector := [⟨0x6c00⟩, .zero, .one, .one, .zero, .zero, .zero, .zero]
       (fresh.bind ⟨true, false⟩ .auto).innerProduct 8 a a = .ok (Binary.ofNat 16777218) ∧
        (fresh.bind ⟨true, false⟩ .portable).innerProduct 8 a a =
          .ok (Binary.ofNat 16777216)) := by
  obtain ⟨hkernels, hdistances⟩ := call_outcomes fresh
  refine ⟨((hdistances.hamming _ _).mismatch_iff 3 5).mpr (by decide),
    (hkernels.squaredDistance 0).unbound rfl [] [], ?_, ?_, ?_⟩
  · obtain ⟨hkernels, hdistances⟩ := call_outcomes (fresh.bind .none .portable)
    refine ((hdistances.cosine [.one] [.negZero]).fault_iff rfl .cosineOfZero).mpr ?_
    refine ((hkernels.cosineSimilarity 1).answer rfl (by decide) _ _ (by decide)).trans ?_
    exact (hkernels.cosine_fault_iff _ _ _ _).mpr ⟨rfl, .inr (by decide +kernel)⟩
  · have hauto := (call_outcomes (fresh.bind ⟨true, false⟩ .auto)).1
    refine ((hauto.innerProduct 8).answer rfl (by decide) _ _ (by decide)).trans ?_
    decide +kernel
  · have hportable := (call_outcomes (fresh.bind ⟨true, false⟩ .portable)).1
    refine ((hportable.innerProduct 8).answer rfl (by decide) _ _ (by decide)).trans ?_
    decide +kernel

end Registry

end VectorDistance
