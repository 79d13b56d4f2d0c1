import Mathlib
import VectorDistance.HelpText
import VectorDistance.Proofs.ReferenceLaws

/-!
# Which dispatch setting prevails

The variables of the environment prevail over the settings file, the file over the default, and
the dispatch option of the line over all of them. A value that does not prevail is never looked
at, whatever it is; but a source that cannot be read refuses the settings even if a later one
would prevail, and settings that are refused end a run even if the line has an option. All this
holds with every lawful package for layers of settings, and with every parser of lines.
-/

namespace VectorDistance

namespace Layering

variable {L : Layering}

/-! ## Merging -/

/-- An error among sources, or before them, stays. -/
theorem exists_foldl_merge_error (hL : L.Lawful) (start : L.Source) {sources : List L.Source}
    (h : ∃ source ∈ start :: sources, ∃ text, source = .error text) :
    ∃ text, sources.foldl L.merge start = .error text := by
  induction sources generalizing start with
  | nil =>
    obtain ⟨source, hmem, text, rfl⟩ := h
    exact ⟨text, (List.mem_singleton.mp hmem).symm⟩
  | cons first rest ih =>
    rw [List.foldl_cons]
    obtain ⟨source, hmem, htext⟩ := h
    rcases List.mem_cons.mp hmem with rfl | hmem
    · obtain ⟨text, hmerged⟩ := hL.merge_error source first (.inl htext)
      exact ih _ ⟨_, List.mem_cons_self, text, hmerged⟩
    · rcases List.mem_cons.mp hmem with rfl | hmem
      · obtain ⟨text, hmerged⟩ := hL.merge_error start source (.inr htext)
        exact ih _ ⟨_, List.mem_cons_self, text, hmerged⟩
      · exact ih _ ⟨source, List.mem_cons_of_mem _ hmem, htext⟩

/-- Layers are merged to one, in which every key has the text of the last value for it. -/
theorem exists_foldl_merge_ok (hL : L.Lawful) (layers : List L.Layer) :
    ∃ merged, (layers.map Except.ok).foldl L.merge (.ok []) = .ok merged ∧
      ∀ key, (merged.lookup key).map L.text? =
        (layers.filterMap (List.lookup key)).getLast?.map L.text? := by
  induction layers using List.reverseRecOn with
  | nil => exact ⟨[], rfl, fun _ => rfl⟩
  | append_singleton layers last ih =>
    obtain ⟨below, hbelow, hlookup⟩ := ih
    obtain ⟨merged, hmerged, hvalue⟩ := hL.lookup_merge below last
    refine ⟨merged, ?_, fun key => ?_⟩
    · rw [List.map_append, List.foldl_append, hbelow]
      exact hmerged
    · rw [hvalue, List.filterMap_append, List.getLast?_append]
      cases hlast : last.lookup key with
      | none => simp [hlast, hlookup]
      | some value => simp [hlast]

/-- Sources without an error are layers. -/
theorem exists_layers {sources : List L.Source}
    (h : ¬∃ source ∈ sources, ∃ text, source = .error text) :
    ∃ layers : List L.Layer, sources = layers.map Except.ok := by
  induction sources with
  | nil => exact ⟨[], rfl⟩
  | cons source rest ih =>
    obtain ⟨layers, rfl⟩ := ih fun ⟨other, hmem, htext⟩ =>
      h ⟨other, List.mem_cons_of_mem _ hmem, htext⟩
    cases source with
    | ok layer => exact ⟨layer :: layers, rfl⟩
    | error text => exact absurd ⟨_, List.mem_cons_self, text, rfl⟩ h

end Layering

namespace Settings

variable {L : Layering}

/-! ## Outcomes -/

/-- A value stands for a mode if it is the text of its name, and no value for the default. -/
def StandsFor (value? : Option L.Value) (mode : DispatchMode) : Prop :=
  match value? with
  | some value => L.text? value = some mode.name
  | none => mode = ({} : Settings).dispatch

/-- What settings come to whose sources are unreadable or not, and in which one value, or
none, prevails. -/
structure Outcome (unreadable : Prop) (value? : Option L.Value)
    (outcome : Except Fault Settings) : Prop where
  /-- There is a mode exactly if the sources can be read and the value stands for it. -/
  ok_iff : ∀ mode, outcome = .ok ⟨mode⟩ ↔ ¬unreadable ∧ StandsFor value? mode
  /-- The settings are refused exactly if a source cannot be read or the value is not the text
  of a mode. -/
  refused_iff : (∃ text, outcome = .error (.settings text)) ↔ unreadable ∨
    ∃ value, value? = some value ∧ ∀ mode : DispatchMode, L.text? value ≠ some mode.name
  /-- There is no other fault. -/
  fault : ∀ fault, outcome = .error fault → ∃ text, fault = .settings text

/-- Exactly the values that are not the text of a mode stand for none. -/
theorem forall_not_standsFor_iff {value? : Option L.Value} :
    (∀ mode, ¬StandsFor value? mode) ↔
      ∃ value, value? = some value ∧ ∀ mode : DispatchMode, L.text? value ≠ some mode.name := by
  cases value? with
  | none => exact iff_of_false (fun h => h _ rfl) nofun
  | some value => simp [StandsFor]

/-- Whether a value stands for a mode is seen from its text. -/
theorem standsFor_congr {value? other? : Option L.Value}
    (h : value?.map L.text? = other?.map L.text?) {mode : DispatchMode} :
    StandsFor value? mode ↔ StandsFor other? mode := by
  cases value? <;> cases other?
  · rfl
  · cases h
  · cases h
  · rw [Option.map_some, Option.map_some, Option.some.injEq] at h
    rw [StandsFor, StandsFor, h]

/-- Modes and faults of one kind leave nothing else to be found out. -/
theorem outcome_of_ok_iff {unreadable : Prop} {value? : Option L.Value}
    {outcome : Except Fault Settings}
    (hfault : ∀ fault, outcome = .error fault → ∃ text, fault = .settings text)
    (hok : ∀ mode, outcome = .ok ⟨mode⟩ ↔ ¬unreadable ∧ StandsFor value? mode) :
    Outcome unreadable value? outcome := by
  have hrefused : (∃ text, outcome = .error (.settings text)) ↔ ∀ mode, outcome ≠ .ok ⟨mode⟩ := by
    cases outcome with
    | error fault =>
      obtain ⟨text, rfl⟩ := hfault fault rfl
      exact iff_of_true ⟨text, rfl⟩ nofun
    | ok settings => exact iff_of_false nofun fun h => h settings.dispatch rfl
  refine ⟨hok, ?_, hfault⟩
  simp only [hrefused, ne_eq, hok, not_and_or, not_not, forall_or_left]
  rw [forall_not_standsFor_iff]

/-- Settings come to the same where values with the same text prevail. -/
theorem Outcome.toOption_eq {unreadable unreadable' : Prop} {value? value?' : Option L.Value}
    {outcome outcome' : Except Fault Settings} (h : Outcome unreadable value? outcome)
    (h' : Outcome unreadable' value?' outcome') (hread : unreadable ↔ unreadable')
    (hvalue : value?.map L.text? = value?'.map L.text?) :
    outcome.toOption = outcome'.toOption := by
  have hok (mode : DispatchMode) : outcome = .ok ⟨mode⟩ ↔ outcome' = .ok ⟨mode⟩ := by
    rw [h.ok_iff, h'.ok_iff, hread, standsFor_congr hvalue]
  cases houtcome : outcome with
  | ok settings => rw [(hok settings.dispatch).mp houtcome]
  | error fault =>
    cases houtcome' : outcome' with
    | ok settings =>
      rw [(hok settings.dispatch).mpr houtcome'] at houtcome
      cases houtcome
    | error fault => rfl

/-! ## Sources -/

/-- The dispatch value of a source, if it is a layer that has one. -/
def dispatchValue? : L.Source → Option L.Value
  | .ok layer => layer.lookup "dispatch"
  | .error _ => none

/-- The dispatch value of the last source that has one. -/
def lastDispatch? (sources : List L.Source) : Option L.Value :=
  (sources.filterMap dispatchValue?).getLast?

/-- The value of the last source goes before those of the others. -/
theorem lastDispatch?_append (sources : List L.Source) (last : L.Source) :
    lastDispatch? (sources ++ [last]) = (dispatchValue? last).or (lastDispatch? sources) := by
  rw [lastDispatch?, List.filterMap_append, List.getLast?_append]
  cases hlast : dispatchValue? last <;> simp [hlast, lastDispatch?]

/-- Is one of the sources an error? -/
def Unreadable (sources : List L.Source) : Prop :=
  ∃ source ∈ sources, ∃ text, source = .error text

/-- The mode of a layer is the one that its dispatch value stands for. -/
theorem ofLayer_eq_ok_iff (hL : L.Lawful) {layer : L.Layer} {mode : DispatchMode} :
    ofLayer L layer = .ok ⟨mode⟩ ↔ StandsFor (layer.lookup "dispatch") mode := by
  unfold ofLayer StandsFor
  cases layer.lookup "dispatch" with
  | none => simp [eq_comm]
  | some value =>
    have hread := hL.readVariant_eq_ok_iff DispatchMode.variants value mode
    simp only [DispatchMode.lookup_variants] at hread
    dsimp only
    cases hvariant : L.readVariant DispatchMode.variants value with
    | error text =>
      rw [hvariant] at hread
      refine iff_of_false nofun fun htext => ?_
      cases hread.mpr ⟨_, htext, rfl⟩
    | ok other =>
      rw [hvariant, Except.ok.injEq] at hread
      rw [Except.map, Except.ok.injEq, Settings.mk.injEq, hread]
      exact ⟨fun ⟨name, htext, hname⟩ => hname ▸ htext, fun htext => ⟨_, htext, rfl⟩⟩

/-- Faults of sources are those of the package. -/
theorem fault_of_ofSources {sources : List L.Source} {fault : Fault}
    (h : ofSources L sources = .error fault) : ∃ text, fault = .settings text := by
  unfold ofSources at h
  cases hread : (sources.foldl L.merge (.ok [])).bind (ofLayer L) with
  | error text =>
    rw [hread] at h
    cases h
    exact ⟨text, rfl⟩
  | ok settings =>
    rw [hread] at h
    cases h

/-- The mode of sources that can be read is the one that the last value stands for. -/
theorem ofSources_eq_ok_iff (hL : L.Lawful) (sources : List L.Source) (mode : DispatchMode) :
    ofSources L sources = .ok ⟨mode⟩ ↔
      ¬Unreadable sources ∧ StandsFor (lastDispatch? sources) mode := by
  by_cases hread : Unreadable sources
  · obtain ⟨source, hmem, htext⟩ := hread
    obtain ⟨text, hfold⟩ := L.exists_foldl_merge_error hL (.ok [])
      ⟨source, List.mem_cons_of_mem _ hmem, htext⟩
    refine iff_of_false ?_ fun h => h.1 ⟨source, hmem, htext⟩
    rw [ofSources, hfold]
    exact nofun
  · rw [and_iff_right hread]
    obtain ⟨layers, rfl⟩ := L.exists_layers hread
    obtain ⟨merged, hmerged, hlookup⟩ := L.exists_foldl_merge_ok hL layers
    have hlast : lastDispatch? (L := L) (layers.map .ok) =
        (layers.filterMap (List.lookup "dispatch")).getLast? := by
      rw [lastDispatch?, List.filterMap_map]
      rfl
    rw [hlast, ← standsFor_congr (hlookup "dispatch"), ← ofLayer_eq_ok_iff hL, ofSources, hmerged]
    change (ofLayer L merged).mapError Fault.settings = _ ↔ _
    cases ofLayer L merged with
    | error text => exact iff_of_false nofun nofun
    | ok settings => simp [Except.mapError]

/-- Of all sources the last value prevails. -/
theorem outcome_ofSources (hL : L.Lawful) (sources : List L.Source) :
    Outcome (Unreadable sources) (lastDispatch? sources) (ofSources L sources) :=
  outcome_of_ok_iff (fun _ => fault_of_ofSources) (ofSources_eq_ok_iff hL sources)

/-! ## The file and the environment -/

/-- The values that variables of an environment give to the dispatch key. -/
def variableValues (L : Layering) (environment : List (String × String)) : List L.Value :=
  L.valuesOf variableStem environment "dispatch"

/-- The value that prevails: the one of the environment, if there is one, and else that of the
file. -/
def prevailing? (L : Layering) (file : Option String) (environment : List (String × String)) :
    Option L.Value :=
  (variableValues L environment).head?.or (dispatchValue? (L.readFile file))

/-- The default is the text of its name, below everything else. -/
theorem standsFor_or_default (hL : L.Lawful) {value? : Option L.Value} {mode : DispatchMode} :
    StandsFor (value?.or (some (L.ofText ({} : Settings).dispatch.name))) mode ↔
      StandsFor value? mode := by
  cases value? with
  | some value => rfl
  | none =>
    rw [Option.none_or, StandsFor, StandsFor, hL.text?_ofText, Option.some.injEq]
    cases mode <;> decide

/-- What is loaded depends on whether the file can be read, and on the value that prevails. -/
theorem outcome_load (hL : L.Lawful) (file : Option String) {environment : List (String × String)}
    (h : (variableValues L environment).length ≤ 1) :
    Outcome (∃ text, L.readFile file = .error text) (prevailing? L file environment)
      (load L file environment) := by
  refine outcome_of_ok_iff (fun _ => fault_of_ofSources) fun mode => ?_
  have hvariables : dispatchValue? (.ok (L.ofEnvironment variableStem environment)) =
      (variableValues L environment).head? := hL.lookup_ofEnvironment _ environment _ h
  have hlast : lastDispatch? ([.ok (defaultLayer L)] ++ [L.readFile file] ++
      [.ok (L.ofEnvironment variableStem environment)]) =
        (prevailing? L file environment).or (some (L.ofText ({} : Settings).dispatch.name)) := by
    rw [lastDispatch?_append, lastDispatch?_append, hvariables, prevailing?, Option.or_assoc]
    rfl
  have hread : Unreadable ([.ok (defaultLayer L)] ++ [L.readFile file] ++
      [.ok (L.ofEnvironment variableStem environment)]) ↔
        ∃ text, L.readFile file = .error text := by
    simp [Unreadable, eq_comm]
  rw [← hread, ← standsFor_or_default hL, ← hlast]
  exact ofSources_eq_ok_iff hL _ mode

end Settings

namespace Program

/-- What a line that asks for a subcommand comes to. -/
structure RunOutcome (L : Layering) (host : CapabilitySet) (invocation : Invocation)
    (file : Option String) (environment : List (String × String)) (result : ProgramResult) :
    Prop where
  /-- Settings that are refused end it with the text of the package, whatever the line asks
  for. -/
  refused : ∀ text, Settings.load L file environment = .error (.settings text) →
    result = ⟨1, "", "Error: Failed to load kernel configuration\n\nCaused by:\n" ++
      indented ("Configuration error: " ++ text) ++ "\n"⟩
  /-- The dispatch option, if there is one, is the mode of the subcommand. -/
  option : ∀ settings mode, Settings.load L file environment = .ok settings →
    invocation.dispatch = some mode → result = runCommand host mode invocation.command
  /-- Without one it is the mode of the settings. -/
  loaded : ∀ settings, Settings.load L file environment = .ok settings →
    invocation.dispatch = none → result = runCommand host settings.dispatch invocation.command

/-- Any such line comes to that. -/
theorem runOutcome (L : Layering) {parse : ArgumentParser} (host : CapabilitySet)
    {arguments : List String} {invocation : Invocation} (hparse : parse arguments = .ok invocation)
    (file : Option String) (environment : List (String × String)) :
    RunOutcome L host invocation file environment
      (run L parse host arguments file environment) := by
  refine ⟨fun text hload => ?_, fun settings mode hload hmode => ?_,
    fun settings hload hnone => ?_⟩
  · simp only [run, hparse, hload]
    rfl
  · simp only [run, hparse, hload, hmode, Option.getD_some]
  · simp only [run, hparse, hload, hnone, Option.getD_none]

end Program

namespace Settings

/-- Which setting counts, from sources of settings up to the program. -/
structure PrecedenceLaws (L : Layering) : Prop where
  /-- Of any sources the last dispatch value prevails, unless one of them cannot be read. -/
  sources : ∀ sources : List L.Source,
    Outcome (Unreadable sources) (lastDispatch? sources) (ofSources L sources)
  /-- A layer without the dispatch key can be put in anywhere, and left out. -/
  skipped : ∀ layer : L.Layer, layer.lookup "dispatch" = none → ∀ below above,
    (ofSources L (below ++ .ok layer :: above)).toOption = (ofSources L (below ++ above)).toOption
  /-- The value of the environment prevails over that of the file, which has to be readable
  all the same. -/
  loaded : ∀ file environment, (variableValues L environment).length ≤ 1 →
    Outcome (∃ text, L.readFile file = .error text) (prevailing? L file environment)
      (load L file environment)
  /-- Without a file, and without a variable for it, the mode is the default one. -/
  default : ∀ environment, variableValues L environment = [] → load L none environment = .ok {}
  /-- Nothing else in a file that can be read, or in an environment, counts. -/
  otherKeys : ∀ file file' environment environment' layer layer',
    L.readFile file = .ok layer → L.readFile file' = .ok layer' →
    layer.lookup "dispatch" = layer'.lookup "dispatch" →
    (variableValues L environment).length ≤ 1 →
    variableValues L environment = variableValues L environment' →
    (load L file environment).toOption = (load L file' environment').toOption
  /-- A line that asks for a subcommand runs it under the mode of its dispatch option, or else
  of the settings, unless these are refused. -/
  program : ∀ parse host arguments invocation, parse arguments = .ok invocation →
    ∀ file environment, Program.RunOutcome L host invocation file environment
      (Program.run L parse host arguments file environment)

/-- The option goes before the environment, that before the file, and that before the default. -/
theorem precedenceLaws (L : Layering) (hL : L.Lawful) : PrecedenceLaws L where
  sources := outcome_ofSources hL
  skipped layer hlayer below above := by
    have hnone : dispatchValue? (.ok layer : L.Source) = none := hlayer
    refine (outcome_ofSources hL _).toOption_eq (outcome_ofSources hL _) ?_ ?_
    · simp [Unreadable, exists_or]
    · rw [lastDispatch?, lastDispatch?, List.filterMap_append, List.filterMap_append,
        List.filterMap_cons_none hnone]
  loaded file _ h := outcome_load hL file h
  default environment h := by
    refine ((outcome_load hL none (by rw [h]; exact Nat.zero_le 1)).ok_iff .auto).mpr ⟨?_, ?_⟩
    · rw [hL.readFile_none]
      exact nofun
    · rw [prevailing?, h, hL.readFile_none]
      rfl
  otherKeys file file' environment environment' layer layer' hfile hfile' hlayer hone hvalues := by
    refine (outcome_load hL file hone).toOption_eq (outcome_load hL file' (hvalues ▸ hone)) ?_ ?_
    · rw [hfile, hfile']
      exact iff_of_false nofun nofun
    · rw [prevailing?, prevailing?, hvalues, hfile, hfile', dispatchValue?, dispatchValue?, hlayer]
  program _ host _ _ hparse := Program.runOutcome L host hparse

/-- A variable makes up for a file that names no mode, but not for one that cannot be read, and
the option of a line does not make up for a file at all. -/
theorem precedenceLaws_conflicts :
    load (.reference Empty fun _ => "") (some "dispatch = 'turbo'\nother = 1")
        [("HALFBIT_DISPATCH", "portable"), ("HALFBIT_OTHER", "2")] = .ok ⟨.portable⟩ ∧
      (∃ text, load (.reference Empty fun _ => "") (some "dispatch")
        [("HALFBIT_DISPATCH", "portable")] = .error (.settings text)) ∧
      (Program.run (.reference Empty fun _ => "") (CommandLine.parse fun _ => "") .none
        ["--dispatch", "auto", "caps"] (some "dispatch = 'turbo'\nother = 1") []).code = 1 := by
  have h := precedenceLaws (.reference Empty fun _ => "") (Layering.lawful_reference _)
  have hturbo : (Layering.reference Empty fun _ => "").readFile
      (some "dispatch = 'turbo'\nother = 1") =
        .ok [("dispatch", .text "turbo"), ("other", .other)] := by
    cbv
  have hbroken : (Layering.reference Empty fun _ => "").readFile (some "dispatch") = .error "" := by
    cbv
  have hline : CommandLine.parse (fun _ => "") ["--dispatch", "auto", "caps"] =
      .ok ⟨some .auto, .caps false⟩ := by
    cbv
  refine ⟨?overridden, ?broken, ?option⟩
  case overridden =>
    refine ((h.loaded _ _ (by decide)).ok_iff .portable).mpr ⟨?_, by rfl⟩
    rintro ⟨text, htext⟩
    rw [hturbo] at htext
    cases htext
  case broken => exact (h.loaded _ _ (by decide)).refused_iff.mpr (.inl ⟨_, hbroken⟩)
  case option =>
    have hvalue : prevailing? (.reference Empty fun _ => "")
        (some "dispatch = 'turbo'\nother = 1") [] = some (.text "turbo") := by
      rw [prevailing?, hturbo]
      rfl
    obtain ⟨text, htext⟩ := (h.loaded (some "dispatch = 'turbo'\nother = 1") []
      (Nat.zero_le 1)).refused_iff.mpr (.inr ⟨_, hvalue, fun mode => by cases mode <;> decide⟩)
    rw [(h.program _ .none _ _ hline _ _).refused text htext]

end Settings

end VectorDistance
