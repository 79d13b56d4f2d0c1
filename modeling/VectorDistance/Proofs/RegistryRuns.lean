import VectorDistance.RegistryCall

/-!
# A registry is bound once

The state of a registry after any calls is the mode of the first binding among
them, and nothing else: later bindings, queries and kernels leave it as it is,
whether they succeed or not. Every answer, every log event and the whole rest of
a run follow from that. Calls stand for those of all callers of one registry, in
the order in which they take effect.
-/

namespace VectorDistance.Registry

/-- The mode in which a call binds, none if it does not bind. -/
def Call.mode? : Call → Option DispatchMode
  | .bind mode => some mode
  | _ => none

/-- Does the call ask for what only a binding provides? -/
def Call.needsBinding : Call → Bool
  | .bind _ => false
  | .isBound => false
  | _ => true

/-- The mode of the first binding among calls, none without a binding. -/
def firstMode (calls : List Call) : Option DispatchMode :=
  calls.findSome? Call.mode?

/-- The fault with which a call was refused. -/
def Reply.fault? : Reply → Option Fault
  | .strategies (.error fault) => some fault
  | .capabilities (.error fault) => some fault
  | .single (.error fault) => some fault
  | .double (.error fault) => some fault
  | .count (.error fault) => some fault
  | _ => none

/-- What a call answers and logs, by the mode of the first binding before it. -/
structure Answered (host : CapabilitySet) (first : Option DispatchMode) (call : Call)
    (reply : Reply) (events : List Event) : Prop where
  /-- Without a binding only the question for one is answered. -/
  refused : first = none → call.needsBinding = true → reply.fault? = some .unbound
  /-- The registry is bound as soon as some call has bound it. -/
  flag : call = .isBound → reply = .flag first.isSome
  /-- Bound for portable kernels, there are no capabilities to use. -/
  portable : first = some .portable →
    (call = .capabilities → reply = .capabilities (.ok .none)) ∧
      (call = .strategies → reply = .strategies (.ok ⟨.portable, .portable⟩))
  /-- Bound for the processor, its capabilities decide. -/
  auto : first = some .auto →
    (call = .capabilities → reply = .capabilities (.ok host)) ∧
      (call = .strategies → reply = .strategies (.ok host.strategies))
  /-- The first binding is logged as information, with what it bound. -/
  firstBinding : ∀ mode, call = .bind mode → first = none →
    events = [.bound mode (mode.capabilities host)] ∧ events.map Event.severity = [.info]
  /-- Later bindings are only traced. -/
  laterBinding : ∀ mode, call = .bind mode → first ≠ none →
    events = [.alreadyBound] ∧ events.map Event.severity = [.trace]
  /-- Nothing else is logged. -/
  silent : call.mode? = none → events = []

/-! ## One call -/

/-- A call binds an unbound registry if it binds at all, and never changes a bound one. -/
theorem bound_step (host : CapabilitySet) (r : Registry) (call : Call) :
    (r.step host call).registry.bound =
      r.bound.or (call.mode?.map (DispatchMode.capabilities host)) := by
  cases r with
  | mk bound => cases call <;> cases bound <;> rfl

/-- A call leaves the registry as it is, unless it is the first binding. -/
theorem registry_step_of_idle (host : CapabilitySet) {r : Registry} {call : Call}
    (h : call.mode? = none ∨ r.bound ≠ none) : (r.step host call).registry = r := by
  have hb := bound_step host r call
  cases r with
  | mk bound =>
    cases hr : (Registry.mk bound).step host call with
    | mk registry reply events =>
      cases registry with
      | mk after =>
        rw [hr] at hb
        dsimp only at hb ⊢
        rw [hb]
        rcases h with hm | hne
        · rw [hm, Option.map_none, Option.or_none]
        · obtain ⟨c, rfl⟩ := Option.ne_none_iff_exists'.mp hne
          rfl

/-- An unbound registry refuses everything but the question whether it is bound. -/
theorem fault_answer_of_unbound {r : Registry} (hr : r.bound = none) {call : Call}
    (h : call.needsBinding = true) : (r.answer call).fault? = some .unbound := by
  have hcap : r.capabilities = .error .unbound := by rw [capabilities, hr]
  cases call with
  | bind mode => cases h
  | isBound => cases h
  | strategies => rw [answer, strategies, hcap]; rfl
  | capabilities => rw [answer, hcap]; rfl
  | squaredDistance dimension a b => rw [answer, squaredDistance, onHalves_of_unbound hr]; rfl
  | innerProduct dimension a b => rw [answer, innerProduct, onHalves_of_unbound hr]; rfl
  | taxicabDistance dimension a b => rw [answer, taxicabDistance, onHalves_of_unbound hr]; rfl
  | cosineSimilarity dimension a b => rw [answer, cosineSimilarity, onHalves_of_unbound hr]; rfl
  | hammingDistance bytes a b seed => rw [answer, hammingDistance, onBytes_of_unbound hr]; rfl
  | jaccardDistance bytes a b both left right =>
    rw [answer, jaccardDistance, onBytes_of_unbound hr]
    rfl

/-- A call that does not bind gives the answer of the registry and logs nothing. -/
theorem step_of_mode?_eq_none (host : CapabilitySet) (r : Registry) {call : Call}
    (h : call.mode? = none) : r.step host call = ⟨r, r.answer call, []⟩ := by
  cases call with
  | bind mode => cases h
  | _ => rfl

/-- A bound registry tells its capabilities and the strategies that they allow. -/
theorem replies_of_bound (host : CapabilitySet) {r : Registry} {c : CapabilitySet}
    (hr : r.bound = some c) (call : Call) :
    (call = .capabilities → (r.step host call).reply = .capabilities (.ok c)) ∧
      (call = .strategies → (r.step host call).reply = .strategies (.ok c.strategies)) := by
  have hcap : r.capabilities = .ok c := by rw [capabilities, hr]
  constructor
  · rintro rfl
    exact congrArg Reply.capabilities hcap
  · rintro rfl
    refine congrArg Reply.strategies ?_
    rw [strategies, hcap]
    rfl

/-- One call answers and logs by the mode of the first binding. -/
theorem answered_step (host : CapabilitySet) {r : Registry} {first : Option DispatchMode}
    (hr : r.bound = first.map (DispatchMode.capabilities host)) (call : Call) :
    Answered host first call (r.step host call).reply (r.step host call).events where
  refused hfirst hcall := by
    rw [hfirst, Option.map_none] at hr
    have hmode : call.mode? = none := by
      cases call with
      | bind mode => cases hcall
      | _ => rfl
    rw [step_of_mode?_eq_none host r hmode]
    exact fault_answer_of_unbound hr hcall
  flag hcall := by
    subst hcall
    have hflag : r.isBound = first.isSome := by rw [isBound, hr, Option.isSome_map]
    exact congrArg Reply.flag hflag
  portable hfirst := by
    subst hfirst
    exact replies_of_bound host hr call
  auto hfirst := by
    subst hfirst
    exact replies_of_bound host hr call
  firstBinding mode hcall hfirst := by
    subst hcall hfirst
    have hflag : r.isBound = false := by rw [isBound, hr]; rfl
    have hevent : r.bindEvent host mode = .bound mode (mode.capabilities host) := by
      simp only [bindEvent, hflag, Bool.false_eq_true, if_false]
    rw [step, hevent]
    exact ⟨rfl, rfl⟩
  laterBinding mode hcall hfirst := by
    subst hcall
    obtain ⟨m, rfl⟩ := Option.ne_none_iff_exists'.mp hfirst
    have hflag : r.isBound = true := by rw [isBound, hr]; rfl
    have hevent : r.bindEvent host mode = .alreadyBound := by
      simp only [bindEvent, hflag, if_true]
    rw [step, hevent]
    exact ⟨rfl, rfl⟩
  silent hcall := by rw [step_of_mode?_eq_none host r hcall]

/-! ## Runs -/

/-- Calls leave behind the binding of before, or else that of the first mode. -/
theorem bound_after (host : CapabilitySet) (r : Registry) (calls : List Call) :
    (after host r calls).bound =
      r.bound.or ((firstMode calls).map (DispatchMode.capabilities host)) := by
  induction calls generalizing r with
  | nil => exact Option.or_none.symm
  | cons call rest ih =>
    have hstep := bound_step host r call
    rw [after, List.foldl_cons]
    refine (ih _).trans ?_
    rw [hstep, firstMode, firstMode, List.findSome?_cons, Option.or_assoc]
    cases call.mode? with
    | none => rw [Option.map_none, Option.none_or]
    | some mode => rw [Option.map_some, Option.some_or]

/-- A fresh registry is bound by the first mode alone. -/
theorem bound_after_fresh (host : CapabilitySet) (calls : List Call) :
    (after host fresh calls).bound = (firstMode calls).map (DispatchMode.capabilities host) :=
  (bound_after host fresh calls).trans Option.none_or

/-- A run goes on with the registry that its first part leaves behind. -/
theorem run_append (host : CapabilitySet) (r : Registry) (before later : List Call) :
    run host r (before ++ later) = run host r before ++ run host (after host r before) later := by
  induction before generalizing r with
  | nil => rfl
  | cons call rest ih =>
    rw [List.cons_append, run, run, List.cons_append, ih]
    rfl

/-- Bound once and for all: each call of a run on a fresh registry answers and
logs by the mode of the first binding before it, and leaving out a query, a
kernel or a later binding changes no other entry of the run. -/
theorem run_bound_once (host : CapabilitySet) (before : List Call) (call : Call)
    (later : List Call) :
    ∃ reply events rest,
      run host fresh (before ++ call :: later) =
        run host fresh before ++ (reply, events) :: rest ∧
      (run host fresh before).length = before.length ∧
      Answered host (firstMode before) call reply events ∧
      (call.mode? = none ∨ firstMode before ≠ none →
        run host fresh (before ++ later) = run host fresh before ++ rest) := by
  have hbound := bound_after_fresh host before
  refine ⟨_, _, _, run_append host fresh before (call :: later), length_run host fresh before,
    answered_step host hbound call, fun hidle => ?_⟩
  have hkeep : call.mode? = none ∨ (after host fresh before).bound ≠ none := by
    refine hidle.imp_right fun hne => ?_
    rw [hbound]
    obtain ⟨mode, hmode⟩ := Option.ne_none_iff_exists'.mp hne
    rw [hmode]
    exact Option.some_ne_none _
  rw [registry_step_of_idle host hkeep]
  exact run_append host fresh before later

/-- A portable binding after an early kernel, questioned and then contradicted:
the question is answered for portable kernels and could have been left out. -/
theorem run_bound_once_portable :
    ∃ reply events rest,
      run ⟨true, true⟩ fresh
          ([.squaredDistance 1 [.one] [.one], .bind .portable] ++
            .capabilities :: [.bind .auto, .strategies]) =
        run ⟨true, true⟩ fresh [.squaredDistance 1 [.one] [.one], .bind .portable] ++
          (reply, events) :: rest ∧
      reply = .capabilities (.ok .none) ∧ events = [] ∧
      run ⟨true, true⟩ fresh
          ([.squaredDistance 1 [.one] [.one], .bind .portable] ++ [.bind .auto, .strategies]) =
        run ⟨true, true⟩ fresh [.squaredDistance 1 [.one] [.one], .bind .portable] ++ rest := by
  obtain ⟨reply, events, rest, hrun, -, hanswer, hrest⟩ :=
    run_bound_once ⟨true, true⟩ [.squaredDistance 1 [.one] [.one], .bind .portable] .capabilities
      [.bind .auto, .strategies]
  exact ⟨reply, events, rest, hrun, (hanswer.portable rfl).1 rfl, hanswer.silent rfl,
    hrest (Or.inl rfl)⟩

end VectorDistance.Registry
