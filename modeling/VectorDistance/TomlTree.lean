/-!
# TOML documents as trees

A document is a list of statements: headers that open a table or one more
element of an array of tables, and assignments to a path of keys within the
table that is open. Statements grow a tree in which no key is given twice. A
table remembers how it came to be: by a header, by the dots of a key, or by the
way because a longer header passed through it; only the last kind may still get
a header of its own, and dotted keys add only to tables made by dots.
-/

namespace VectorDistance.Toml

/-- How a table came to be. -/
inductive Origin where
  /-- By its own header, or as the document itself. -/
  | header
  /-- By the dots of a key. -/
  | dots
  /-- By the header of a table within it. -/
  | passage
  deriving DecidableEq

/-- What a key stands for. -/
inductive Node where
  /-- A text. -/
  | text (value : String)
  /-- An integer. -/
  | integer (value : Int)
  /-- A real number, as written. -/
  | real (word : String)
  /-- A truth value. -/
  | boolean (value : Bool)
  /-- A date, a time of day or both, as written. -/
  | moment (word : String)
  /-- A list of values. -/
  | array (items : List Node)
  /-- A table written as one value, which nothing can be added to. -/
  | closed (entries : List (String × Node))
  /-- A table that grows with the document. -/
  | table (origin : Origin) (entries : List (String × Node))
  /-- An array of tables, each by a header; the last one is growing. -/
  | tables (earlier : List (List (String × Node))) (last : List (String × Node))

/-- The keys of a table with what they stand for, in the order of their first
mention. -/
abbrev Entries := List (String × Node)

/-- One statement of a document. -/
inductive Statement where
  /-- Opens the table at a path. -/
  | openTable (path : List String)
  /-- Opens a new last element of the array of tables at a path. -/
  | openElement (path : List String)
  /-- Gives a value to a path in the open table. -/
  | assign (path : List String) (value : Node)

namespace Entries

/-- Puts a node under a key, in its place if the key is there and else at the
end. -/
def put (key : String) (node : Node) : Entries → Entries
  | [] => [(key, node)]
  | (other, old) :: rest =>
    if other = key then (key, node) :: rest else (other, old) :: put key node rest

/-- Changes the table at a path of a header, making tables by passage where the
path leads to nothing. A path cannot lead through a value, and through an array
of tables it leads to the last one. -/
def modifyAt (change : Entries → Option Entries) : List String → Entries → Option Entries
  | [], entries => change entries
  | key :: path, entries => do
    match entries.lookup key with
    | none => return put key (.table .passage (← modifyAt change path [])) entries
    | some (.table origin inner) =>
      return put key (.table origin (← modifyAt change path inner)) entries
    | some (.tables earlier last) =>
      return put key (.tables earlier (← modifyAt change path last)) entries
    | some _ => none

/-- Gives a value to a key that has none yet. -/
def assignNew (key : String) (value : Node) (entries : Entries) : Option Entries :=
  if (entries.lookup key).isSome then none else some (put key value entries)

/-- Gives a value to a path of dotted keys. The table that receives it is the
one where the path starts or one made by dots, and no table with a header lies
on the way. -/
def assign (value : Node) : List String → Entries → Option Entries
  | [], _ => none
  | [key], entries => assignNew key value entries
  | key :: path, entries => do
    match entries.lookup key with
    | none => return put key (.table .dots (← assign value path [])) entries
    | some (.table .dots inner) =>
      return put key (.table .dots (← assign value path inner)) entries
    | some (.table .passage inner) =>
      if path.length = 1 then none
      else return put key (.table .passage (← assign value path inner)) entries
    | some (.tables earlier last) =>
      if path.length = 1 then none
      else return put key (.tables earlier (← assign value path last)) entries
    | some _ => none

/-- Opens a table under a key, which has none or one that was only passed. -/
def openTable (key : String) (entries : Entries) : Option Entries :=
  match entries.lookup key with
  | none => some (put key (.table .header []) entries)
  | some (.table .passage inner) => some (put key (.table .header inner) entries)
  | some _ => none

/-- Opens a new last element of the array of tables under a key. -/
def openElement (key : String) (entries : Entries) : Option Entries :=
  match entries.lookup key with
  | none => some (put key (.tables [] []) entries)
  | some (.tables earlier last) => some (put key (.tables (earlier ++ [last]) []) entries)
  | some _ => none

end Entries

/-- A document while it is read: its tree and the path of the open table. -/
structure Draft where
  /-- The tree so far. -/
  root : Entries
  /-- The path of the open table. -/
  opened : List String

/-- Takes in one statement; none if it repeats or contradicts an earlier one. -/
def Draft.push (draft : Draft) : Statement → Option Draft
  | .openTable path => do
    let key ← path.getLast?
    let root ← draft.root.modifyAt (Entries.openTable key) path.dropLast
    return ⟨root, path⟩
  | .openElement path => do
    let key ← path.getLast?
    let root ← draft.root.modifyAt (Entries.openElement key) path.dropLast
    return ⟨root, path⟩
  | .assign path value => do
    let root ← draft.root.modifyAt (Entries.assign value path) draft.opened
    return { draft with root }

/-- The tree of a list of statements, none if they contradict each other. -/
def treeOf (statements : List Statement) : Option Entries :=
  (statements.foldlM Draft.push ⟨[], []⟩).map Draft.root

/-- The table of key paths and values written as one value. -/
def closedTable (pairs : List (List String × Node)) : Option Node :=
  (pairs.foldlM (fun entries pair => Entries.assign pair.2 pair.1 entries) []).map .closed

end VectorDistance.Toml
