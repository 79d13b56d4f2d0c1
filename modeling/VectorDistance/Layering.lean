/-!
# Packages for layers of settings

Settings are read and merged by a package that is not part of this library. `Layering` is
what the library uses of one, and `Layering.Lawful` what it counts on: a key has the value
of the last layer that has it, an error is never lost, and a value is read as one of
several variants when it is a text that names one of them.
-/

namespace VectorDistance

/-- What is used of a package for layers of settings. Errors are texts. -/
structure Layering where
  /-- The values that stand under keys. -/
  Value : Type
  /-- The value of a text. -/
  ofText : String → Value
  /-- The text that a value is, if it is one. -/
  text? : Value → Option String
  /-- Reads the document of a settings file, if there is one. -/
  readFile : Option String → Except String (List (String × Value))
  /-- What a variable of the environment sets, by its name and its value, if the name begins
  with the given stem and says so. -/
  setting? : String → String → String → Option (String × Value)
  /-- The layer of all variables of an environment whose names begin with a stem. -/
  ofEnvironment : String → List (String × String) → List (String × Value)
  /-- Merges a source that comes later over those that came before. -/
  merge : Except String (List (String × Value)) → Except String (List (String × Value)) →
    Except String (List (String × Value))
  /-- Reads a value as one of several variants, each under its name. -/
  readVariant : {α : Type} → List (String × α) → Value → Except String α

namespace Layering

/-- The keys of one source with their values; of a repeated key the first counts. -/
abbrev Layer (L : Layering) := List (String × L.Value)

/-- A source of settings: its layer, or what is wrong with it. -/
abbrev Source (L : Layering) := Except String L.Layer

/-- The values that variables with the given stem set a key to. -/
def valuesOf (L : Layering) (stem : String) (environment : List (String × String))
    (key : String) : List L.Value :=
  environment.filterMap fun entry =>
    match L.setting? stem entry.1 entry.2 with
    | some (other, value) => if other = key then some value else none
    | none => none

/-- What the library counts on. -/
structure Lawful (L : Layering) : Prop where
  /-- A text is the text that it is. -/
  text?_ofText : ∀ text, L.text? (L.ofText text) = some text
  /-- A file that is not there sets nothing. -/
  readFile_none : L.readFile none = .ok []
  /-- A key that at most one variable sets has the value which that one gives. -/
  lookup_ofEnvironment : ∀ stem environment key, (L.valuesOf stem environment key).length ≤ 1 →
    (L.ofEnvironment stem environment).lookup key = (L.valuesOf stem environment key).head?
  /-- Sources without errors are merged without one, key by key, and the later layer wins.
  Values that are no texts may be joined to others of this kind. -/
  lookup_merge : ∀ lower higher, ∃ merged, L.merge (.ok lower) (.ok higher) = .ok merged ∧
    ∀ key, (merged.lookup key).map L.text? =
      ((higher.lookup key).or (lower.lookup key)).map L.text?
  /-- The error of a source stays, whatever is merged before or after it. -/
  merge_error : ∀ lower higher : L.Source,
    (∃ text, lower = .error text) ∨ (∃ text, higher = .error text) →
    ∃ text, L.merge lower higher = .error text
  /-- A value is a variant exactly if it is the text of its name. -/
  readVariant_eq_ok_iff : ∀ {α : Type} (variants : List (String × α)) value variant,
    L.readVariant variants value = .ok variant ↔
      ∃ name, L.text? value = some name ∧ variants.lookup name = some variant

end Layering

end VectorDistance
