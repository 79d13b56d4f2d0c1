import VectorDistance.Program

/-!
# A parser of arguments

An `ArgumentParser` that computes. Arguments are read from the first to the last. A
subcommand is asked for once; the dispatch option may stand before it, after it or both,
and then the later one counts. Values follow their option after an equals sign or as the
next argument, unless that one looks like an option itself. No option may be given
twice at one place, and what cannot be understood refuses the whole line. Asking
for the version or for help settles the matter at once, whatever follows; but
after the word `help` only the name of a topic may follow.
-/

namespace VectorDistance.CommandLine

-- Powers are the core ones also where the algebraic hierarchy is in scope.
attribute [local instance (high)] instPowNat

/-- What is wrong with the arguments. -/
inductive UsageFault where
  /-- No subcommand was given. -/
  | missingCommand
  /-- An argument means nothing at its place. -/
  | unexpected (argument : String)
  /-- An option lacks its value. -/
  | missingValue (option : String)
  /-- An option cannot have this value. -/
  | invalidValue (option value : String)
  /-- An option was given twice. -/
  | repeated (option : String)
  deriving DecidableEq, Repr

/-- The subcommands. -/
inductive Subcommand where
  /-- Reports capabilities and bound kernels. -/
  | caps
  /-- Compares every kernel with its portable form. -/
  | selfcheck
  deriving DecidableEq, Repr

namespace Subcommand

/-- The word for a subcommand. -/
def name : Subcommand → String
  | caps => "caps"
  | selfcheck => "selfcheck"

/-- The subcommand of a word. -/
def ofName? (word : String) : Option Subcommand :=
  [caps, selfcheck].find? fun command => command.name == word

end Subcommand

/-- What help can be asked for. -/
inductive HelpTopic where
  /-- The program as a whole. -/
  | program
  /-- A subcommand. -/
  | command (command : Subcommand)
  /-- Help itself. -/
  | help
  deriving DecidableEq, Repr

/-- What was given at one place of the line, before or after the subcommand. -/
structure Given where
  /-- The dispatch mode. -/
  dispatch : Option DispatchMode := none
  /-- The dimension of the half vectors. -/
  dimension : Option Nat := none
  /-- The length of the byte buffers. -/
  bytes : Option Nat := none
  /-- The seed of the drawn data. -/
  seed : Option Nat := none
  /-- Is the report for programs? -/
  json : Bool := false
  deriving DecidableEq, Repr

/-- What the line asks for. -/
inductive Request where
  /-- The version of the program. -/
  | version
  /-- Help on a topic. -/
  | help (topic : HelpTopic)
  /-- A subcommand with what was given before and after it. -/
  | run (command : Subcommand) (before after : Given)
  deriving DecidableEq, Repr

/-- One argument by its form. -/
inductive Word where
  /-- Two dashes, after which nothing is an option. -/
  | separator
  /-- An option by its name, perhaps with a value after an equals sign. -/
  | long (name : String) (attached : Option String)
  /-- One dash and letters. -/
  | short (letters : List Char)
  /-- Anything else. -/
  | plain (text : String)
  deriving DecidableEq, Repr

/-- The form of an argument. -/
def Word.of (argument : String) : Word :=
  match argument.toList with
  | ['-', '-'] => .separator
  | '-' :: '-' :: rest =>
    let name := String.ofList (rest.takeWhile (· != '='))
    match rest.dropWhile (· != '=') with
    | [] => .long name none
    | _ :: value => .long name (some (String.ofList value))
  | '-' :: letter :: rest => .short (letter :: rest)
  | _ => .plain argument

/-- Can the argument be the value of the option before it? -/
def isValue (argument : String) : Bool :=
  match Word.of argument with
  | .plain _ => true
  | _ => false

/-- A number below `2 ^ 64` in decimal digits, with an optional plus sign. -/
def count? (text : String) : Option Nat :=
  let digits :=
    match text.toList with
    | '+' :: rest => rest
    | cs => cs
  if digits.isEmpty || !digits.all Char.isDigit then none
  else
    let value := digits.foldl (fun n c => 10 * n + (c.toNat - '0'.toNat)) 0
    if value < 2 ^ (64 : Nat) then some value else none

/-- Stores the value of a number option that has none yet. -/
def storeCount (option : String) (old : Option Nat) (value : String) : Except UsageFault Nat :=
  if old.isSome then .error (.repeated option)
  else
    match count? value with
    | some n => .ok n
    | none => .error (.invalidValue option value)

/-- Does this option, at this place, take a value? Before the subcommand there
is only the dispatch option. -/
def takesValue (command : Option Subcommand) (option : String) : Bool :=
  option == "dispatch" ||
    (command == some .selfcheck && (option == "dim" || option == "bytes" || option == "seed"))

/-- Stores the value of an option that takes one. -/
def store (given : Given) (option value : String) : Except UsageFault Given :=
  if option = "dispatch" then
    if given.dispatch.isSome then .error (.repeated option)
    else
      match DispatchMode.ofName? value with
      | some mode => .ok { given with dispatch := some mode }
      | none => .error (.invalidValue option value)
  else if option = "dim" then do
    return { given with dimension := some (← storeCount option given.dimension value) }
  else if option = "bytes" then do
    return { given with bytes := some (← storeCount option given.bytes value) }
  else do
    return { given with seed := some (← storeCount option given.seed value) }

/-- Reads the arguments after a subcommand. Help is asked for by `none`. -/
def readAfter (command : Subcommand) (given : Given) :
    List String → Except UsageFault (Option Given)
  | [] => .ok (some given)
  | argument :: rest =>
    match Word.of argument with
    | .separator =>
      match rest with
      | [] => .ok (some given)
      | extra :: _ => .error (.unexpected extra)
    | .plain _ => .error (.unexpected argument)
    | .short letters => if letters.head? = some 'h' then .ok none else .error (.unexpected argument)
    | .long name (some value) =>
      if takesValue (some command) name then do
        readAfter command (← store given name value) rest
      else .error (.unexpected argument)
    | .long name none =>
      if name = "json" then
        if given.json then .error (.repeated name)
        else readAfter command { given with json := true } rest
      else if name = "help" then .ok none
      else if takesValue (some command) name then
        match rest with
        | value :: more =>
          if isValue value then do readAfter command (← store given name value) more
          else .error (.missingValue name)
        | [] => .error (.missingValue name)
      else .error (.unexpected argument)

/-- The topic of the arguments after the word `help`: none for the program, or
one name. -/
def helpTopic : List String → Except UsageFault HelpTopic
  | [] => .ok .program
  | word :: rest =>
    match Subcommand.ofName? word, rest with
    | some command, [] => .ok (.command command)
    | some _, extra :: _ => .error (.unexpected extra)
    | none, [] => if word = "help" then .ok .help else .error (.unexpected word)
    | none, extra :: _ => .error (.unexpected (if word = "help" then extra else word))

/-- Stores the value of an option that still waits for it, if there is one. -/
def settle (given : Given) : Option (String × String) → Except UsageFault Given
  | none => .ok given
  | some (option, value) => store given option value

/-- Reads the arguments after the name of a subcommand into a request. A value
that waits is looked at after them. -/
def readCommand (command : Subcommand) (before : Given) (waiting : Option (String × String))
    (arguments : List String) : Except UsageFault Request := do
  match ← readAfter command {} arguments with
  | some after => return .run command (← settle before waiting) after
  | none => return .help (.command command)

/-- Reads all arguments, those before the subcommand so far being `given`. A
value that was an argument of its own is `waiting` until the next option. -/
def readFrom (given : Given) (waiting : Option (String × String)) :
    List String → Except UsageFault Request
  | [] => do
    let _ ← settle given waiting
    .error .missingCommand
  | argument :: rest =>
    match Word.of argument with
    | .separator =>
      match rest with
      | [] => .error .missingCommand
      | extra :: _ => .error (.unexpected extra)
    | .plain word =>
      match Subcommand.ofName? word with
      | some command => readCommand command given waiting rest
      | none =>
        if word = "help" then (helpTopic rest).map .help else .error (.unexpected argument)
    | .short letters => do
      let _ ← settle given waiting
      if letters.head? = some 'V' then return .version
      else if letters.head? = some 'h' then return .help .program
      else .error (.unexpected argument)
    | .long name (some value) =>
      if takesValue none name then do
        readFrom (← store (← settle given waiting) name value) none rest
      else .error (.unexpected argument)
    | .long name none =>
      if name = "version" then do
        let _ ← settle given waiting
        return .version
      else if name = "help" then do
        let _ ← settle given waiting
        return .help .program
      else if takesValue none name then
        match rest with
        | value :: more =>
          if isValue value then do readFrom (← settle given waiting) (some (name, value)) more
          else .error (.missingValue name)
        | [] => .error (.missingValue name)
      else .error (.unexpected argument)

/-- What the arguments ask for. -/
def read (arguments : List String) : Except UsageFault Request :=
  readFrom {} none arguments

/-- The dispatch mode that the line asks for, the later place first. -/
def dispatchOf (before after : Given) : Option DispatchMode :=
  after.dispatch <|> before.dispatch

/-- The options of a self-check, with their defaults. -/
def selfCheckOptions (given : Given) : SelfCheck.Options where
  dimension := given.dimension.getD 1027
  bytes := given.bytes.getD 141
  seed := (given.seed.getD 42).toUInt64

/-- A subcommand with what was given after it. -/
def commandOf (given : Given) : Subcommand → Command
  | .caps => .caps given.json
  | .selfcheck => .selfcheck (selfCheckOptions given) given.json

end VectorDistance.CommandLine
