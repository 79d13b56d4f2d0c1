import VectorDistance.Layering
import VectorDistance.TomlReader

/-!
# A package for layers of settings

A `Layering` that computes. Files are TOML documents, and tables that meet under one key
are united. A value is read as the variant that it names: as a text, or as the first key
of a table, with nothing under it. Values of the type `Empty` for what is under such a key
leave no table of this kind; settings from files and from the environment have none. Two
keys are special within the tables of a file: one makes its table stand for the value
under it, the other is refused. What errors say is up to the user of the package.
-/

namespace VectorDistance

/-- What stands under a key of a table. -/
inductive Payload (Nil : Type) where
  /-- One of the empty values. -/
  | absent (mark : Nil)
  /-- Any other value. -/
  | present

/-- One value in a layer, of which texts and tables can name a variant. -/
inductive Setting (Nil : Type) where
  /-- A text. -/
  | text (value : String)
  /-- A table; of a repeated key the first counts. -/
  | table (entries : List (String × Payload Nil))
  /-- A value of any other kind. -/
  | other

/-- What may be wrong with settings. -/
inductive SettingsProblem (Nil : Type) where
  /-- The settings file is no document, or has a key that it may not have. -/
  | malformedFile (document : String)
  /-- A value is none of the variants with these names. -/
  | unknownVariant (value : Setting Nil) (names : List String)

namespace Setting

/-- The key that makes a table of the settings file stand for the value under it,
whatever its other keys. -/
def standInKey : String := "___figment_value_value"

/-- The key that no table of the settings file may have, apart from the document
itself. -/
def reservedKey : String := "___figment_value_id"

/-- Characters that count as space around a bare value. -/
def isSpace (c : Char) : Bool :=
  let n := c.toNat
  (0x09 ≤ n && n ≤ 0x0d) || n == 0x20 || n == 0x85 || n == 0xa0 || n == 0x1680 ||
    (0x2000 ≤ n && n ≤ 0x200a) || n == 0x2028 || n == 0x2029 || n == 0x202f || n == 0x205f ||
    n == 0x3000

/-- The ASCII characters among them, without the vertical tab; only these may
stand around a quoted value. -/
def isQuoteMargin (c : Char) : Bool :=
  c == ' ' || c == '\t' || c == '\n' || c == '\x0c' || c == '\r'

/-- Characters without the space around them. -/
def trim (cs : List Char) : List Char :=
  ((cs.dropWhile isSpace).reverse.dropWhile isSpace).reverse

/-- Do the characters read as a number, with an optional sign and decimals? -/
def isNumber (cs : List Char) : Bool :=
  let (_, unsigned) := Toml.splitSign cs
  let (whole, decimals) := Toml.splitAtFirst (· == '.') unsigned
  let digits := whole ++ decimals.getD []
  !digits.isEmpty && digits.all Char.isDigit

variable {Nil : Type}

/-- The value of a variable: a text in double quotes with escapes if it is one
from end to end, no text if it reads as a number or a truth value, and else the
characters themselves without the space around them. -/
def ofVariable (value : String) : Setting Nil :=
  match value.toList.dropWhile isQuoteMargin with
  | '"' :: rest =>
    match Toml.basicText? rest with
    | some (inner, after) => .text (if after.all isQuoteMargin then String.ofList inner else value)
    | none => .text value
  | _ =>
    let cs := trim value.toList
    if cs = "true".toList ∨ cs = "false".toList ∨ isNumber cs then .other
    else .text (String.ofList cs)

/-- The path of keys that a variable sets, if its name says that it sets any: what follows
the stem, itself in any case, in lowercase and cut at its points. Space around the name and
around its rest does not count. -/
def variablePath? (stem name : String) : Option (List (List Char)) :=
  let cs := trim name.toList
  if (cs.take stem.toList.length).map Char.toLower = stem.toList.map Char.toLower then
    let path := ((trim (cs.drop stem.toList.length)).map Char.toLower).splitOn '.'
    if path.any List.isEmpty then none else some path
  else none

/-- What a variable sets. A longer path makes its first key a table. -/
def ofNamedVariable? (stem name value : String) : Option (String × Setting Nil) :=
  match variablePath? stem name with
  | some [key] => some (String.ofList key, ofVariable value)
  | some (key :: inner :: _) =>
    some (String.ofList key, .table [(String.ofList inner, .present)])
  | _ => none

/-- A table of a document as a setting; no value there is empty. -/
def ofEntries (entries : Toml.Entries) : Setting Nil :=
  .table (entries.map fun entry => (entry.1, .present))

mutual

/-- The value of a key of a document. -/
def ofNode : Toml.Node → Setting Nil
  | .text value => .text value
  | .closed entries => (standIn? entries).getD (ofEntries entries)
  | .table _ entries => (standIn? entries).getD (ofEntries entries)
  | _ => .other

/-- The value that a table with these entries stands for, if it has the key for
that. -/
def standIn? : List (String × Toml.Node) → Option (Setting Nil)
  | [] => none
  | (key, node) :: rest => if key = standInKey then some (ofNode node) else standIn? rest

end

mutual

/-- Does some table within a value have the reserved key? -/
def usesReserved : Toml.Node → Bool
  | .array items => itemsUseReserved items
  | .closed entries => entriesUseReserved entries
  | .table _ entries => entriesUseReserved entries
  | .tables earlier last => tablesUseReserved earlier || entriesUseReserved last
  | _ => false

/-- Does some table within one of these items have the reserved key? -/
def itemsUseReserved : List Toml.Node → Bool
  | [] => false
  | item :: rest => usesReserved item || itemsUseReserved rest

/-- Does a table with these entries, or one within it, have the reserved key? -/
def entriesUseReserved : List (String × Toml.Node) → Bool
  | [] => false
  | (key, node) :: rest => key == reservedKey || usesReserved node || entriesUseReserved rest

/-- Does one of these tables, or one within it, have the reserved key? -/
def tablesUseReserved : List (List (String × Toml.Node)) → Bool
  | [] => false
  | entries :: rest => entriesUseReserved entries || tablesUseReserved rest

end

/-- The layer of a document. -/
def ofDocument? (document : String) : Option (List (String × Setting Nil)) := do
  let entries ← Toml.read? document
  if entries.any fun entry => usesReserved entry.2 then none
  else some (entries.map fun entry => (entry.1, ofNode entry.2))

/-- Entries over others: of a key that both have, what `join` makes of the two. -/
def overlayEntries {α : Type} (join : α → α → α) (lower higher : List (String × α)) :
    List (String × α) :=
  higher.map (fun entry => (entry.1, ((lower.lookup entry.1).map (join · entry.2)).getD entry.2))
    ++ lower.filter fun entry => (higher.lookup entry.1).isNone

/-- What a setting and a higher one come to: two tables are united, with the
higher entry under a key of both, and else the higher setting counts alone. -/
def overlay : Setting Nil → Setting Nil → Setting Nil
  | .table lower, .table higher => .table (overlayEntries (fun _ upper => upper) lower higher)
  | _, higher => higher

/-- The text that a setting is. -/
def text? : Setting Nil → Option String
  | .text value => some value
  | _ => none

/-- The name that a setting gives: a text itself, and of a table the key that
comes before all others, if nothing stands under it. -/
def name? : Setting Nil → Option String
  | .text value => some value
  | .table entries =>
    match entries.find? fun entry => entries.all fun other => entry.1 ≤ other.1 with
    | some (key, .absent _) => some key
    | _ => none
  | .other => none

/-- Settings of single keys merged one after the other. -/
def mergeAll (settings : List (String × Setting Nil)) : List (String × Setting Nil) :=
  settings.foldl (fun layer setting => overlayEntries overlay layer [setting]) []

/-- The variant that a setting names. -/
def variant? {α : Type} (variants : List (String × α)) (value : Setting Nil) : Option α :=
  value.name?.bind fun name => variants.lookup name

end Setting

/-- The package, for tables with these empty values and with these words for what is
wrong. -/
def Layering.reference (Nil : Type) (explain : SettingsProblem Nil → String) : Layering where
  Value := Setting Nil
  ofText := .text
  text? := Setting.text?
  readFile
    | none => .ok []
    | some document =>
      match Setting.ofDocument? document with
      | some layer => .ok layer
      | none => .error (explain (.malformedFile document))
  setting? := Setting.ofNamedVariable?
  ofEnvironment stem environment :=
    Setting.mergeAll
      (environment.filterMap fun entry => Setting.ofNamedVariable? stem entry.1 entry.2)
  merge
    | .ok lower, .ok higher => .ok (Setting.overlayEntries Setting.overlay lower higher)
    | .error text, _ => .error text
    | .ok _, .error text => .error text
  readVariant variants value :=
    match Setting.variant? variants value with
    | some variant => .ok variant
    | none => .error (explain (.unknownVariant value (variants.map Prod.fst)))

end VectorDistance
