/-!
# Processor capabilities and the choice of kernels

Kernels exist in a portable form and in forms that need optional groups of
processor instructions. A dispatch mode says whether those groups may be used
at all; what is then available fixes one strategy for each family of kernels.
The strategies of a family read the same elements and mean the same answer; only
sums of rounded values may come out differently.
-/

namespace VectorDistance

/-- Optional groups of instructions that a processor may have. -/
structure CapabilitySet where
  /-- Eight-lane conversion of halves with fused multiplication and addition. -/
  halfConversion : Bool
  /-- Population counts of 512-bit blocks. -/
  blockPopulation : Bool
  deriving DecidableEq, Repr

namespace CapabilitySet

/-- No optional group. -/
def none : CapabilitySet := ⟨false, false⟩

/-- Is every group missing? -/
def isEmpty (c : CapabilitySet) : Bool :=
  !c.halfConversion && !c.blockPopulation

/-- A description of the set, group by group. -/
def description (c : CapabilitySet) : String :=
  "CapabilitySet \x7b f16c: " ++ toString c.halfConversion ++
    ", avx512_popcnt: " ++ toString c.blockPopulation ++ " \x7d"

/-- Only the empty set misses every group. -/
theorem isEmpty_iff (c : CapabilitySet) : c.isEmpty = true ↔ c = none := by
  cases c with
  | mk half block => cases half <;> cases block <;> decide

end CapabilitySet

/-- How kernels are chosen when a registry is bound. -/
inductive DispatchMode where
  /-- Use whatever the processor has. -/
  | auto
  /-- Use portable kernels on every processor. -/
  | portable
  deriving DecidableEq, Repr

namespace DispatchMode

/-- The name of a mode in settings and reports. -/
def name : DispatchMode → String
  | auto => "auto"
  | portable => "portable"

/-- The name of a mode in tables and log events. -/
def title : DispatchMode → String
  | auto => "Auto"
  | portable => "Portable"

/-- The mode of that exact name. -/
def ofName? (name : String) : Option DispatchMode :=
  if name = "auto" then some auto
  else if name = "portable" then some portable
  else none

/-- What a registry may be bound against in a mode, on a processor with the
capabilities `host`. -/
def capabilities (host : CapabilitySet) : DispatchMode → CapabilitySet
  | auto => host
  | portable => .none

/-- Only its own name reads as a mode. -/
theorem ofName?_eq_some_iff {name : String} {mode : DispatchMode} :
    ofName? name = some mode ↔ name = mode.name := by
  unfold ofName?
  cases mode with
  | auto => by_cases h : name = "auto" <;> simp [h, DispatchMode.name]
  | portable =>
    by_cases h : name = "auto"
    · simp [h, DispatchMode.name]
    · simp [h, DispatchMode.name]

end DispatchMode

/-- How the half-precision kernels compute. -/
inductive HalfStrategy where
  /-- Element by element. -/
  | portable
  /-- Eight elements at a time. -/
  | eightLane
  deriving DecidableEq, Repr

/-- How the bit kernels compute. -/
inductive BitStrategy where
  /-- Words of 64 bits. -/
  | portable
  /-- Blocks of 512 bits. -/
  | wideBlock
  deriving DecidableEq, Repr

namespace HalfStrategy

/-- The name of a strategy in reports. -/
def name : HalfStrategy → String
  | portable => "portable"
  | eightLane => "f16c"

/-- The name of a strategy in descriptions. -/
def title : HalfStrategy → String
  | portable => "Portable"
  | eightLane => "F16c"

end HalfStrategy

namespace BitStrategy

/-- The name of a strategy in reports. -/
def name : BitStrategy → String
  | portable => "portable"
  | wideBlock => "avx512"

/-- The name of a strategy in descriptions. -/
def title : BitStrategy → String
  | portable => "Portable"
  | wideBlock => "Avx512"

end BitStrategy

/-- One strategy for each family of kernels. -/
structure Strategies where
  /-- Distances of half vectors. -/
  half : HalfStrategy
  /-- Distances of packed bits. -/
  bit : BitStrategy
  deriving DecidableEq, Repr

/-- A description of the two strategies. -/
def Strategies.description (s : Strategies) : String :=
  "KernelStrategies \x7b half: " ++ s.half.title ++ ", bit: " ++ s.bit.title ++ " \x7d"

/-- The strategies that the given capabilities allow. -/
def CapabilitySet.strategies (c : CapabilitySet) : Strategies where
  half := if c.halfConversion then .eightLane else .portable
  bit := if c.blockPopulation then .wideBlock else .portable

/-- Without capabilities both families are portable. -/
theorem CapabilitySet.strategies_none :
    CapabilitySet.none.strategies = ⟨.portable, .portable⟩ := rfl

end VectorDistance
