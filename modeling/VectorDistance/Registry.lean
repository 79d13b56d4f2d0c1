import VectorDistance.BlockKernels
import VectorDistance.LaneKernels

/-!
# The kernel registry

A registry is bound once, against the capabilities that the mode of the first
binding allows, and stays as it is from then on. Kernels answer only when it is
bound; they check their arguments before they read any element and then look at
the first elements of each buffer alone. Of every kernel it is the form of the bound
strategy that runs.
-/

namespace VectorDistance

/-- A registry of distance kernels. -/
structure Registry where
  /-- The capabilities it is bound against, none before the first binding. -/
  bound : Option CapabilitySet
  deriving DecidableEq

/-- Refuses a dimension that is out of range or beyond the shorter buffer. -/
def checkDimension (dimension : Nat) (a b : HalfVector) : Except Fault Unit :=
  let shortest := min a.length b.length
  if dimension = 0 ∨ maxDimension < dimension then .error (.dimensionOutOfRange dimension)
  else if shortest < dimension then .error (.tooFewValues shortest dimension)
  else .ok ()

/-- Refuses a number of bytes beyond the shorter buffer. -/
def checkBytes (bytes : Nat) (a b : List UInt8) : Except Fault Unit :=
  let shortest := min a.length b.length
  if shortest < bytes then .error (.tooFewBytes shortest bytes) else .ok ()

namespace Registry

/-- A registry that is not bound yet. -/
def fresh : Registry := ⟨none⟩

/-- Binds a registry in a mode, on a processor with the capabilities `host`. A
registry that is bound already stays as it is. -/
def bind (host : CapabilitySet) (mode : DispatchMode) (r : Registry) : Registry :=
  match r.bound with
  | some _ => r
  | none => ⟨some (mode.capabilities host)⟩

/-- Has the registry been bound? -/
def isBound (r : Registry) : Bool :=
  r.bound.isSome

/-- The capabilities that the registry is bound against. -/
def capabilities (r : Registry) : Except Fault CapabilitySet :=
  match r.bound with
  | some c => .ok c
  | none => .error .unbound

/-- The strategies that the binding chose. -/
def strategies (r : Registry) : Except Fault Strategies :=
  r.capabilities.map CapabilitySet.strategies

/-- The strategy for halves of a bound registry; an unbound one has none and counts as
portable. -/
def halfStrategy (r : Registry) : HalfStrategy :=
  (r.bound.getD .none).strategies.half

/-- Runs the kernel of the bound strategy on the first `dimension` elements of two half
buffers. -/
def onHalves {α : Type} (r : Registry)
    (kernel : HalfStrategy → HalfVector → HalfVector → Except Fault α) (dimension : Nat)
    (a b : HalfVector) : Except Fault α := do
  let c ← r.capabilities
  checkDimension dimension a b
  kernel c.strategies.half (a.take dimension) (b.take dimension)

/-- Runs the kernel of the bound strategy on the first `bytes` bytes of two buffers. -/
def onBytes {α : Type} (r : Registry) (kernel : BitStrategy → List UInt8 → List UInt8 → α)
    (bytes : Nat) (a b : List UInt8) : Except Fault α := do
  let c ← r.capabilities
  checkBytes bytes a b
  return kernel c.strategies.bit (a.take bytes) (b.take bytes)

/-- Sum of squared differences of the first `dimension` elements. -/
def squaredDistance (r : Registry) (dimension : Nat) (a b : HalfVector) : Except Fault Single :=
  r.onHalves (fun strategy x y => .ok (strategy.squaredDistance x y)) dimension a b

/-- Sum of products of the first `dimension` elements. -/
def innerProduct (r : Registry) (dimension : Nat) (a b : HalfVector) : Except Fault Single :=
  r.onHalves (fun strategy x y => .ok (strategy.innerProduct x y)) dimension a b

/-- Sum of absolute differences of the first `dimension` elements. -/
def taxicabDistance (r : Registry) (dimension : Nat) (a b : HalfVector) : Except Fault Single :=
  r.onHalves (fun strategy x y => .ok (strategy.taxicabDistance x y)) dimension a b

/-- Cosine of the angle between the first `dimension` elements. -/
def cosineSimilarity (r : Registry) (dimension : Nat) (a b : HalfVector) : Except Fault Double :=
  r.onHalves HalfStrategy.cosineSimilarity dimension a b

/-- The seed plus the number of differing bits in the first `bytes` bytes. -/
def hammingDistance (r : Registry) (bytes : Nat) (a b : List UInt8) (seed : UInt64) :
    Except Fault UInt64 :=
  r.onBytes (fun strategy x y => strategy.hamming x y seed) bytes a b

/-- Jaccard distance of the first `bytes` bytes. The intersection is counted
from `seedBoth`; the seeds for the two sides are accepted and have no effect. -/
def jaccardDistance (r : Registry) (bytes : Nat) (a b : List UInt8)
    (seedBoth _seedLeft _seedRight : UInt64) : Except Fault Double :=
  r.onBytes (fun strategy x y => strategy.jaccard x y seedBoth) bytes a b

/-- A description of the registry and its binding. -/
def description (r : Registry) : String :=
  match r.bound with
  | none => "DistanceKernels \x7b initialized: false \x7d"
  | some c =>
    "DistanceKernels \x7b capabilities: " ++ c.description ++
      ", strategies: " ++ c.strategies.description ++ " \x7d"

/-- Binding binds. -/
theorem isBound_bind (host : CapabilitySet) (mode : DispatchMode) (r : Registry) :
    (r.bind host mode).isBound = true := by
  cases r with
  | mk bound => cases bound <;> rfl

/-- A second binding changes nothing. -/
theorem bind_bind (host : CapabilitySet) (first second : DispatchMode) (r : Registry) :
    (r.bind host first).bind host second = r.bind host first := by
  cases r with
  | mk bound => cases bound <;> rfl

/-- Without a binding no kernel of halves runs. -/
theorem onHalves_of_unbound {α : Type} {r : Registry} (h : r.bound = none)
    (kernel : HalfStrategy → HalfVector → HalfVector → Except Fault α) (dimension : Nat)
    (a b : HalfVector) : r.onHalves kernel dimension a b = .error .unbound := by
  simp [onHalves, capabilities, h, Bind.bind, Except.bind]

/-- A bound registry runs the kernel of its strategy on the first elements as soon as the
dimension is in range and no buffer is shorter. -/
theorem onHalves_of_isBound {α : Type} {r : Registry} (hr : r.isBound = true)
    (kernel : HalfStrategy → HalfVector → HalfVector → Except Fault α) {dimension : Nat}
    {a b : HalfVector} (hpos : 1 ≤ dimension) (hmax : dimension ≤ maxDimension)
    (ha : dimension ≤ a.length) (hb : dimension ≤ b.length) :
    r.onHalves kernel dimension a b =
      kernel r.halfStrategy (a.take dimension) (b.take dimension) := by
  obtain ⟨c, hc⟩ := Option.isSome_iff_exists.mp hr
  have hrange : ¬(dimension = 0 ∨ maxDimension < dimension) := by omega
  have hshort : ¬min a.length b.length < dimension := by omega
  simp only [onHalves, halfStrategy, capabilities, hc, checkDimension, if_neg hrange,
    if_neg hshort, Bind.bind, Except.bind, Option.getD_some]

/-- The strategy for halves is one of those that the registry reports. -/
theorem halfStrategy_eq {r : Registry} {s : Strategies} (hr : r.strategies = .ok s) :
    r.halfStrategy = s.half := by
  unfold strategies capabilities at hr
  unfold halfStrategy
  cases hc : r.bound with
  | none =>
    rw [hc] at hr
    cases hr
  | some c =>
    rw [hc] at hr
    cases hr
    rfl

/-- Bound in the portable mode, a registry runs portable kernels of halves. -/
theorem onHalves_of_portable {α : Type} (host : CapabilitySet)
    (kernel : HalfStrategy → HalfVector → HalfVector → Except Fault α) {dimension : Nat}
    {a b : HalfVector} (hpos : 1 ≤ dimension) (hmax : dimension ≤ maxDimension)
    (ha : dimension ≤ a.length) (hb : dimension ≤ b.length) :
    (fresh.bind host .portable).onHalves kernel dimension a b =
      kernel .portable (a.take dimension) (b.take dimension) :=
  onHalves_of_isBound rfl kernel hpos hmax ha hb

/-- It runs them on whole buffers of that dimension. -/
theorem onHalves_of_length {α : Type} (host : CapabilitySet)
    (kernel : HalfStrategy → HalfVector → HalfVector → Except Fault α) {dimension : Nat}
    {a b : HalfVector} (hpos : 1 ≤ dimension) (hmax : dimension ≤ maxDimension)
    (ha : a.length = dimension) (hb : b.length = dimension) :
    (fresh.bind host .portable).onHalves kernel dimension a b = kernel .portable a b := by
  rw [onHalves_of_portable host kernel hpos hmax (Nat.le_of_eq ha.symm) (Nat.le_of_eq hb.symm),
    List.take_of_length_le (Nat.le_of_eq ha), List.take_of_length_le (Nat.le_of_eq hb)]

/-- Without a binding no kernel of bytes runs. -/
theorem onBytes_of_unbound {α : Type} {r : Registry} (h : r.bound = none)
    (kernel : BitStrategy → List UInt8 → List UInt8 → α) (bytes : Nat) (a b : List UInt8) :
    r.onBytes kernel bytes a b = .error .unbound := by
  simp [onBytes, capabilities, h, Bind.bind, Except.bind]

/-- A bound registry runs the kernel of its strategy on the first bytes as soon as no
buffer is shorter. -/
theorem onBytes_of_bound {α : Type} {r : Registry} {c : CapabilitySet} (hr : r.bound = some c)
    (kernel : BitStrategy → List UInt8 → List UInt8 → α) {bytes : Nat} {a b : List UInt8}
    (ha : bytes ≤ a.length) (hb : bytes ≤ b.length) :
    r.onBytes kernel bytes a b = .ok (kernel c.strategies.bit (a.take bytes) (b.take bytes)) := by
  have hshort : ¬min a.length b.length < bytes := by omega
  simp only [onBytes, capabilities, hr, checkBytes, if_neg hshort, Bind.bind, Except.bind,
    Pure.pure, Except.pure]

end Registry

end VectorDistance
