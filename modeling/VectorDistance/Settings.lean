import VectorDistance.Dispatch
import VectorDistance.Fault
import VectorDistance.Layering

/-!
# Settings

Settings come in layers, of which later ones win: the default lies below the settings file,
and the file below the variables of the environment. Only the key `dispatch` means
anything. What the package for layers finds wrong, with a source or with the value that
has won, becomes a fault with the text of the package.
-/

namespace VectorDistance

/-- What the library can be told before it starts. -/
structure Settings where
  /-- How kernels are chosen. -/
  dispatch : DispatchMode := .auto
  deriving DecidableEq, Repr

/-- The name of the settings file in the working directory. -/
def settingsFileName : String := "halfbit.toml"

/-- How the names of environment variables with settings begin. -/
def variableStem : String := "HALFBIT_"

/-- The modes under their names. -/
def DispatchMode.variants : List (String × DispatchMode) :=
  [DispatchMode.auto, DispatchMode.portable].map fun mode => (mode.name, mode)

/-- Only its own name leads to a mode. -/
theorem DispatchMode.lookup_variants {name : String} {mode : DispatchMode} :
    DispatchMode.variants.lookup name = some mode ↔ name = mode.name := by
  have hlookup : DispatchMode.variants.lookup name = DispatchMode.ofName? name := by
    by_cases hauto : name = "auto"
    · subst hauto
      rfl
    · by_cases hportable : name = "portable"
      · subst hportable
        rfl
      · have hne (other : String) (h : name ≠ other) : (name == other) = false :=
          beq_eq_false_iff_ne.mpr h
        simp only [DispatchMode.variants, DispatchMode.name, List.map_cons, List.map_nil,
          List.lookup_cons, hne _ hauto, hne _ hportable, List.lookup_nil, DispatchMode.ofName?,
          if_neg hauto, if_neg hportable]
  rw [hlookup, DispatchMode.ofName?_eq_some_iff]

namespace Settings

variable (L : Layering)

/-- The layer of the default settings. -/
def defaultLayer : L.Layer :=
  [("dispatch", L.ofText ({} : Settings).dispatch.name)]

/-- The settings of a layer. A key that is missing has its default. -/
def ofLayer (layer : L.Layer) : Except String Settings :=
  match layer.lookup "dispatch" with
  | some value => (L.readVariant DispatchMode.variants value).map Settings.mk
  | none => .ok {}

/-- The settings of sources, from the lowest to the highest. -/
def ofSources (sources : List L.Source) : Except Fault Settings :=
  ((sources.foldl L.merge (.ok [])).bind (ofLayer L)).mapError .settings

/-- The settings from the settings file, if there is one, and the variables of the
environment. -/
def load (file : Option String) (environment : List (String × String)) :
    Except Fault Settings :=
  ofSources L
    [.ok (defaultLayer L), L.readFile file, .ok (L.ofEnvironment variableStem environment)]

end Settings

end VectorDistance
