import VectorDistance.TomlLexeme
import VectorDistance.TomlTree

/-!
# Reading TOML documents

Values are read by their first character; arrays may run over several lines
and end with a comma, tables written as one value may not. Both nest up to
`depthLimit`, counted together; the `room` of a reader is how many more may open
within what it reads. A document is read line by line into statements, which
then have to make a tree. The `limit` of a reader bounds its calls; twice the
number of characters is always enough.
-/

namespace VectorDistance.Toml

/-- The value that a word stands for. -/
def wordNode? (word : List Char) : Option Node :=
  if word = "true".toList then some (.boolean true)
  else if word = "false".toList then some (.boolean false)
  else
    match integer? word with
    | some value => some (.integer value)
    | none =>
      if isReal word then some (.real (String.ofList word))
      else if isMoment word then some (.moment (String.ofList word))
      else none

mutual

/-- One value. Without room a bracket or a brace begins none. -/
def value? : Nat → Nat → List Char → Option (Reading Node)
  | 0, _, _ => none
  | limit + 1, room, cs =>
    match room, cs with
    | 0, '[' :: _ => none
    | room + 1, '[' :: rest => do
      let (items, after) ← items? limit room (← afterTrivia? false rest)
      return (.array items, after)
    | 0, '\x7b' :: _ => none
    | room + 1, '\x7b' :: rest =>
      match skipBlanks rest with
      | '\x7d' :: after => some (.closed [], after)
      | first => do
        let (pairs, after) ← pairs? limit room first
        return (← closedTable pairs, after)
    | _, '"' :: _ => (quotedText? cs).map fun (text, after) => (.text (String.ofList text), after)
    | _, '\'' :: _ => (quotedText? cs).map fun (text, after) => (.text (String.ofList text), after)
    | _, _ =>
      let (word, after) := splitWord cs
      (wordNode? word).map fun node => (node, after)

/-- The items of an array and its closing bracket. -/
def items? : Nat → Nat → List Char → Option (Reading (List Node))
  | 0, _, _ => none
  | limit + 1, room, cs =>
    match cs with
    | ']' :: after => some ([], after)
    | _ => do
      let (item, rest) ← value? limit room cs
      match ← afterTrivia? false rest with
      | ',' :: more =>
        let (others, after) ← items? limit room (← afterTrivia? false more)
        return (item :: others, after)
      | ']' :: after => return ([item], after)
      | _ => none

/-- The assignments of a table written as one value and its closing brace. -/
def pairs? : Nat → Nat → List Char → Option (Reading (List (List String × Node)))
  | 0, _, _ => none
  | limit + 1, room, cs => do
    let (pair, rest) ← pair? limit room cs
    match skipBlanks rest with
    | ',' :: more =>
      let (others, after) ← pairs? limit room (skipBlanks more)
      return (pair :: others, after)
    | '\x7d' :: after => return ([pair], after)
    | _ => none

/-- A path of keys, an equals sign and a value. -/
def pair? : Nat → Nat → List Char → Option (Reading (List String × Node))
  | 0, _, _ => none
  | limit + 1, room, cs => do
    match ← keyPath? depthLimit cs with
    | (path, '=' :: rest) =>
      let (node, after) ← value? limit room (skipBlanks rest)
      return ((path, node), after)
    | _ => none

end

/-- A header or an assignment at the start of its line, blanks skipped. -/
def statement? (limit : Nat) : List Char → Option (Reading Statement)
  | '[' :: '[' :: rest => do
    match ← keyPath? depthLimit (skipBlanks rest) with
    | (path, ']' :: ']' :: after) => return (.openElement path, after)
    | _ => none
  | '[' :: rest => do
    match ← keyPath? depthLimit (skipBlanks rest) with
    | (path, ']' :: after) => return (.openTable path, after)
    | _ => none
  | cs => do
    let ((path, node), after) ← pair? limit depthLimit cs
    return (.assign path node, after)

/-- The statements of a document, one a line at most. -/
def statements? : Nat → List Char → Option (List Statement)
  | 0, _ => none
  | limit + 1, cs =>
    match skipBlanks cs with
    | [] => some []
    | line =>
      match afterLine? line with
      | some rest => statements? limit rest
      | none => do
        let (statement, rest) ← statement? (2 * line.length + 2) line
        return statement :: (← statements? limit (← afterLine? rest))

/-- The tree of a document, none for what is no TOML. A byte order mark in front
is passed over. -/
def read? (document : String) : Option Entries := do
  let cs :=
    match document.toList with
    | '\ufeff' :: rest => rest
    | cs => cs
  treeOf (← statements? (cs.length + 1) cs)

end VectorDistance.Toml
