import VectorDistance.Registry

/-!
# Whole runs of a registry

The calls that a registry answers, as data: each gives a reply and the log
events that it emits, and leaves a registry behind. Only a binding changes the
registry or is logged. A run answers a list of calls one after the other.
-/

namespace VectorDistance.Registry

/-- One call of a registry. -/
inductive Call where
  /-- Binds in a mode. -/
  | bind (mode : DispatchMode)
  /-- Asks whether the registry is bound. -/
  | isBound
  /-- Asks for the strategies. -/
  | strategies
  /-- Asks for the capabilities. -/
  | capabilities
  /-- Sum of squared differences. -/
  | squaredDistance (dimension : Nat) (a b : HalfVector)
  /-- Sum of products. -/
  | innerProduct (dimension : Nat) (a b : HalfVector)
  /-- Sum of absolute differences. -/
  | taxicabDistance (dimension : Nat) (a b : HalfVector)
  /-- Cosine of an angle. -/
  | cosineSimilarity (dimension : Nat) (a b : HalfVector)
  /-- Number of differing bits. -/
  | hammingDistance (bytes : Nat) (a b : List UInt8) (seed : UInt64)
  /-- Jaccard distance. -/
  | jaccardDistance (bytes : Nat) (a b : List UInt8) (seedBoth seedLeft seedRight : UInt64)

/-- The reply to a call. -/
inductive Reply where
  /-- A binding has nothing to say. -/
  | done
  /-- A yes or no. -/
  | flag (answer : Bool)
  /-- The strategies, or why there are none. -/
  | strategies (answer : Except Fault Strategies)
  /-- The capabilities, or why there are none. -/
  | capabilities (answer : Except Fault CapabilitySet)
  /-- A 32-bit value, or why there is none. -/
  | single (answer : Except Fault Single)
  /-- A 64-bit value, or why there is none. -/
  | double (answer : Except Fault Double)
  /-- A count, or why there is none. -/
  | count (answer : Except Fault UInt64)

/-- What the log records of a call. -/
inductive Event where
  /-- The registry was bound in this mode, against these capabilities. -/
  | bound (mode : DispatchMode) (capabilities : CapabilitySet)
  /-- A binding found the registry bound. -/
  | alreadyBound
  deriving DecidableEq

/-- How much an event matters. -/
inductive Severity where
  /-- Of interest in normal operation. -/
  | info
  /-- Of interest only when following every step. -/
  | trace
  deriving DecidableEq, Repr

namespace Severity

/-- The label of a severity in the log. -/
def label : Severity → String
  | info => "INFO"
  | trace => "TRACE"

end Severity

namespace Event

/-- A first binding is of interest, a later one is not. -/
def severity : Event → Severity
  | bound .. => .info
  | alreadyBound => .trace

/-- The text of an event. -/
def message : Event → String
  | bound .. => "Distance kernels initialized"
  | alreadyBound => "Distance kernels already initialized"

/-- The named values of an event. -/
def fields : Event → List (String × String)
  | bound mode c =>
    [("dispatch", mode.title), ("f16c", toString c.halfConversion),
      ("avx512_popcnt", toString c.blockPopulation), ("half", c.strategies.half.name),
      ("bit", c.strategies.bit.name)]
  | alreadyBound => []

end Event

/-- What a call comes to. -/
structure Outcome where
  /-- The registry afterwards. -/
  registry : Registry
  /-- The answer to the caller. -/
  reply : Reply
  /-- The log events, first to last. -/
  events : List Event

/-- The event of a binding. -/
def bindEvent (host : CapabilitySet) (mode : DispatchMode) (r : Registry) : Event :=
  if r.isBound then .alreadyBound else .bound mode (mode.capabilities host)

/-- The reply to a call that leaves the registry alone. -/
def answer (r : Registry) : Call → Reply
  | .bind _ => .done
  | .isBound => .flag r.isBound
  | .strategies => .strategies r.strategies
  | .capabilities => .capabilities r.capabilities
  | .squaredDistance dimension a b => .single (r.squaredDistance dimension a b)
  | .innerProduct dimension a b => .single (r.innerProduct dimension a b)
  | .taxicabDistance dimension a b => .single (r.taxicabDistance dimension a b)
  | .cosineSimilarity dimension a b => .double (r.cosineSimilarity dimension a b)
  | .hammingDistance bytes a b seed => .count (r.hammingDistance bytes a b seed)
  | .jaccardDistance bytes a b seedBoth seedLeft seedRight =>
    .double (r.jaccardDistance bytes a b seedBoth seedLeft seedRight)

/-- Answers one call on a processor with the capabilities `host`. -/
def step (host : CapabilitySet) (r : Registry) (call : Call) : Outcome :=
  match call with
  | .bind mode => ⟨r.bind host mode, .done, [r.bindEvent host mode]⟩
  | query => ⟨r, r.answer query, []⟩

/-- Answers calls one after the other: each reply with its events. -/
def run (host : CapabilitySet) (r : Registry) : List Call → List (Reply × List Event)
  | [] => []
  | call :: rest =>
    let outcome := r.step host call
    (outcome.reply, outcome.events) :: run host outcome.registry rest

/-- The registry that calls leave behind. -/
def after (host : CapabilitySet) (r : Registry) (calls : List Call) : Registry :=
  calls.foldl (fun r call => (r.step host call).registry) r

/-- Every call is answered. -/
theorem length_run (host : CapabilitySet) (r : Registry) (calls : List Call) :
    (run host r calls).length = calls.length := by
  induction calls generalizing r with
  | nil => rfl
  | cons call rest ih => simp [run, ih]

end VectorDistance.Registry
