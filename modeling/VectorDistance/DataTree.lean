import VectorDistance.HexText

/-!
# Trees of data and their JSON text

Reports for other programs are trees of texts, numbers, truth values, lists and
records. Their text is JSON with one element to a line and two blanks for each
level; empty lists and records stay on one line. Numbers are written by whoever
makes the tree.
-/

namespace VectorDistance

/-- A tree of data. -/
inductive DataTree where
  /-- A text. -/
  | text (value : String)
  /-- A number, as written. -/
  | number (digits : String)
  /-- A truth value. -/
  | boolean (value : Bool)
  /-- Elements in order. -/
  | list (elements : List DataTree)
  /-- Named elements in order. -/
  | record (fields : List (String × DataTree))

namespace DataTree

/-- A character within quotes: quotes, backslashes and control characters are
escaped. -/
def quotedChar (c : Char) : List Char :=
  if c = '"' then ['\\', '"']
  else if c = '\\' then ['\\', '\\']
  else if c = '\n' then ['\\', 'n']
  else if c = '\r' then ['\\', 'r']
  else if c = '\t' then ['\\', 't']
  else if c.toNat = 0x08 then ['\\', 'b']
  else if c.toNat = 0x0c then ['\\', 'f']
  else if c.toNat < 0x20 then ['\\', 'u'] ++ hexChars c.toNat 4
  else [c]

/-- A text in quotes. -/
def quoted (value : String) : String :=
  "\"" ++ String.ofList (value.toList.flatMap quotedChar) ++ "\""

/-- The blanks at the start of a line on some level. -/
def indentation (level : Nat) : String :=
  String.ofList (List.replicate (2 * level) ' ')

/-- Lines between two brackets, on the level below the one given. -/
def bracketed (opening closing : String) (level : Nat) (lines : List String) : String :=
  if lines.isEmpty then opening ++ closing
  else
    let inner := lines.map (indentation (level + 1) ++ ·)
    opening ++ "\n" ++ String.intercalate ",\n" inner ++ "\n" ++ indentation level ++ closing

mutual

/-- The JSON text of a tree that starts on some level. -/
def jsonAt (level : Nat) : DataTree → String
  | text value => quoted value
  | number digits => digits
  | boolean value => toString value
  | list elements => bracketed "[" "]" level (jsonElements (level + 1) elements)
  | record fields => bracketed "\x7b" "\x7d" level (jsonFields (level + 1) fields)

/-- The JSON texts of the elements of a list. -/
def jsonElements (level : Nat) : List DataTree → List String
  | [] => []
  | element :: rest => jsonAt level element :: jsonElements level rest

/-- The JSON texts of the fields of a record. -/
def jsonFields (level : Nat) : List (String × DataTree) → List String
  | [] => []
  | (name, element) :: rest =>
    (quoted name ++ ": " ++ jsonAt level element) :: jsonFields level rest

end

/-- The JSON text of a tree. -/
def json (tree : DataTree) : String :=
  jsonAt 0 tree

end DataTree

end VectorDistance
