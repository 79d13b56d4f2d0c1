import Mathlib.Data.List.Induction
import VectorDistance.ReferenceLayering

/-!
# The laws of the package that computes

Without empty values in tables the package reads and merges settings as a `Layering` has
to. Merged entries are described key by key; the layer of an environment follows from that
one variable at a time.
-/

namespace VectorDistance

namespace Setting

/-! ## Entries over entries -/

section Entries

variable {α : Type} {join : α → α → α}

/-- Entries that are left out by their keys are not missed under other keys. -/
theorem lookup_filter_of_isNone {higher : List (String × α)} {key : String}
    (hkey : higher.lookup key = none) (lower : List (String × α)) :
    (lower.filter fun entry => (higher.lookup entry.1).isNone).lookup key = lower.lookup key := by
  induction lower with
  | nil => rfl
  | cons entry rest ih =>
    obtain ⟨other, value⟩ := entry
    rw [List.filter_cons]
    by_cases heq : key = other
    · rw [if_pos (by rw [← heq, hkey]; rfl), heq, List.lookup_cons_self, List.lookup_cons_self]
    · have hne : (key == other) = false := beq_eq_false_iff_ne.mpr heq
      split
      · simp only [List.lookup_cons, hne, ih]
      · simp only [List.lookup_cons, hne, ih]

/-- Values that are changed by their keys stay under them. -/
theorem lookup_map_entry (change : String → α → α) (entries : List (String × α)) (key : String) :
    (entries.map fun entry => (entry.1, change entry.1 entry.2)).lookup key =
      (entries.lookup key).map (change key) := by
  induction entries with
  | nil => rfl
  | cons entry rest ih =>
    obtain ⟨other, value⟩ := entry
    by_cases heq : key = other
    · subst heq
      rw [List.map_cons, List.lookup_cons_self, List.lookup_cons_self]
      rfl
    · have hne : (key == other) = false := beq_eq_false_iff_ne.mpr heq
      simp only [List.map_cons, List.lookup_cons, hne, ih]

/-- Under each key the higher value counts, joined to the lower one. -/
theorem lookup_overlayEntries (lower higher : List (String × α)) (key : String) :
    (overlayEntries join lower higher).lookup key =
      match higher.lookup key with
      | some value => some (((lower.lookup key).map (join · value)).getD value)
      | none => lower.lookup key := by
  rw [overlayEntries, List.lookup_append,
    lookup_map_entry fun other value => ((lower.lookup other).map (join · value)).getD value]
  cases hkey : higher.lookup key with
  | some value => rfl
  | none => exact lookup_filter_of_isNone hkey lower

end Entries

variable {Nil : Type}

/-- A setting over another one is a text exactly if it was one before. -/
theorem text?_overlay (lower higher : Setting Nil) :
    (overlay lower higher).text? = higher.text? := by
  cases lower <;> cases higher <;> rfl

/-- In merged layers each key has a value with the text of the later one. -/
theorem lookup_overlayEntries_overlay (lower higher : List (String × Setting Nil))
    (key : String) :
    ((overlayEntries overlay lower higher).lookup key).map text? =
      ((higher.lookup key).or (lower.lookup key)).map text? := by
  rw [lookup_overlayEntries]
  cases higher.lookup key with
  | none => rfl
  | some value =>
    cases lower.lookup key with
    | none => rfl
    | some below => exact congrArg some (text?_overlay below value)

/-! ## The variables of an environment -/

/-- The value that a setting has for a key. -/
def valueFor? (key : String) (setting : String × Setting Nil) : Option (Setting Nil) :=
  if setting.1 = key then some setting.2 else none

/-- The values of a key in a list of settings. -/
def valuesIn (settings : List (String × Setting Nil)) (key : String) : List (Setting Nil) :=
  settings.filterMap (valueFor? key)

/-- The last setting is merged over the others. -/
theorem mergeAll_append (settings : List (String × Setting Nil)) (last : String × Setting Nil) :
    mergeAll (settings ++ [last]) = overlayEntries overlay (mergeAll settings) [last] := by
  rw [mergeAll, List.foldl_append]
  rfl

/-- A setting under the key comes after the values before it. -/
theorem valuesIn_append (settings : List (String × Setting Nil)) (last : String × Setting Nil)
    (key : String) : valuesIn (settings ++ [last]) key =
      valuesIn settings key ++ if last.1 = key then [last.2] else [] := by
  rw [valuesIn, List.filterMap_append]
  congr 1
  by_cases h : last.1 = key
  · simp [valueFor?, h]
  · simp [valueFor?, h]

/-- A key without a setting has no value, and a key with one has its value. -/
theorem lookup_mergeAll {settings : List (String × Setting Nil)} {key : String}
    (h : (valuesIn settings key).length ≤ 1) :
    (mergeAll settings).lookup key = (valuesIn settings key).head? := by
  induction settings using List.reverseRecOn with
  | nil => rfl
  | append_singleton settings last ih =>
    rw [valuesIn_append] at h ⊢
    rw [mergeAll_append, lookup_overlayEntries]
    by_cases hkey : last.1 = key
    · -- the last setting is the only one, so that there is nothing to join it to
      rw [if_pos hkey] at h ⊢
      have hnil : valuesIn settings key = [] := by
        rw [List.length_append, List.length_singleton] at h
        exact List.length_eq_zero_iff.mp (by omega)
      have hbefore := ih (by rw [hnil]; exact Nat.zero_le 1)
      rw [hnil] at hbefore
      rw [hbefore, hnil, ← hkey, List.lookup_cons_self]
      rfl
    · rw [if_neg hkey, List.append_nil] at h ⊢
      have hne : (key == last.1) = false := beq_eq_false_iff_ne.mpr (Ne.symm hkey)
      rw [List.lookup_cons, hne]
      exact ih h

/-! ## Values as variants -/

/-- Without empty values only a text gives a name. -/
theorem name?_eq_text? (value : Setting Empty) : value.name? = value.text? := by
  cases value with
  | text => rfl
  | other => rfl
  | table entries =>
    simp only [name?, text?]
    split
    · next mark _ => exact mark.elim
    · rfl

/-- So a value is a variant exactly if it is the text of its name. -/
theorem variant?_eq_some_iff {α : Type} {variants : List (String × α)} {value : Setting Empty}
    {variant : α} : value.variant? variants = some variant ↔
      ∃ name, value.text? = some name ∧ variants.lookup name = some variant := by
  rw [variant?, name?_eq_text?, Option.bind_eq_some_iff]

end Setting

namespace Layering

open Setting

/-- The values that variables set a key to are those of their settings. -/
theorem valuesOf_reference {Nil : Type} (explain : SettingsProblem Nil → String) (stem : String)
    (environment : List (String × String)) (key : String) :
    (reference Nil explain).valuesOf stem environment key =
      valuesIn (environment.filterMap fun entry => ofNamedVariable? stem entry.1 entry.2) key := by
  rw [valuesIn, List.filterMap_filterMap]
  refine congrArg (environment.filterMap ·) (funext fun entry => ?_)
  dsimp only [reference]
  cases ofNamedVariable? stem entry.1 entry.2 with
  | none => rfl
  | some setting => rfl

/-- The package that computes does what is counted on, if no table has an empty value. -/
theorem lawful_reference (explain : SettingsProblem Empty → String) :
    (reference Empty explain).Lawful where
  text?_ofText _ := rfl
  readFile_none := rfl
  lookup_ofEnvironment stem environment key h := by
    rw [valuesOf_reference] at h ⊢
    exact lookup_mergeAll h
  lookup_merge lower higher := ⟨_, rfl, lookup_overlayEntries_overlay lower higher⟩
  merge_error := by
    rintro (text | lower) (text' | higher) h
    · exact ⟨_, rfl⟩
    · exact ⟨_, rfl⟩
    · exact ⟨_, rfl⟩
    · rcases h with ⟨_, ⟨⟩⟩ | ⟨_, ⟨⟩⟩
  readVariant_eq_ok_iff variants value variant := by
    refine Iff.trans ?_ variant?_eq_some_iff
    dsimp only [reference]
    cases Setting.variant? variants value with
    | none => exact iff_of_false nofun nofun
    | some other => rw [Except.ok.injEq, Option.some.injEq]

end Layering

end VectorDistance
