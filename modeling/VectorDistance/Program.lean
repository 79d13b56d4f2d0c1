import VectorDistance.Report
import VectorDistance.Settings

/-!
# The program

One run of the program, from its arguments, the text of the settings file and
the variables of the environment to its exit code and what it writes. Arguments
are read before the settings are loaded, by a parser that may end the run itself;
a dispatch option replaces the loaded mode but does not make up for settings that
cannot be loaded.
-/

namespace VectorDistance

/-- What a run leaves behind. -/
structure ProgramResult where
  /-- The exit code. -/
  code : Nat
  /-- What is written to the standard output. -/
  output : String
  /-- What is written to the standard error. -/
  errors : String
  deriving DecidableEq, Repr

/-- The subcommands with their options. -/
inductive Command where
  /-- Reports capabilities and bound kernels, perhaps for programs. -/
  | caps (json : Bool)
  /-- Compares every kernel with its portable form, and reports perhaps for programs. -/
  | selfcheck (options : SelfCheck.Options) (json : Bool)
  deriving DecidableEq

/-- What a line of arguments asks for. -/
structure Invocation where
  /-- The dispatch option. -/
  dispatch : Option DispatchMode
  /-- The subcommand. -/
  command : Command
  deriving DecidableEq

/-- A parser of arguments. It ends the run for help, the version and lines that it does not
understand. -/
abbrev ArgumentParser := List String → Except ProgramResult Invocation

namespace Program

/-- A run that went well. -/
def success (output : String) : ProgramResult :=
  ⟨0, output, ""⟩

/-- A text moved in by four blanks, line by line. -/
def indented (text : String) : String :=
  "    " ++ String.ofList (text.toList.flatMap fun c => if c = '\n' then "\n    ".toList else [c])

/-- A run that a fault ended, under a line that says what was being done. -/
def failure (doing : String) (cause : Fault) : ProgramResult :=
  ⟨1, "", "Error: " ++ doing ++ "\n\nCaused by:\n" ++ indented cause.message ++ "\n"⟩

/-- Reports capabilities and bound kernels. -/
def reportCapabilities (host : CapabilitySet) (mode : DispatchMode) (json : Bool) :
    ProgramResult :=
  let registry := Registry.fresh.bind host mode
  match registry.strategies with
  | .error cause =>
    -- the fault stands without a line of its own here
    ⟨1, "", "Error: " ++ cause.message ++ "\n"⟩
  | .ok strategies =>
    let report : CapabilityReport := ⟨host, mode, strategies⟩
    success (if json then report.tree.json ++ "\n" else report.table)

/-- Reports a self-check. A disagreement is an error after the report. -/
def reportSelfCheck (host : CapabilitySet) (mode : DispatchMode) (options : SelfCheck.Options)
    (json : Bool) : ProgramResult :=
  match SelfCheck.run host mode options with
  | .error cause => failure "Self-check could not run" cause
  | .ok report =>
    let output := if json then report.tree.json ++ "\n" else report.table
    if report.passed then success output
    else
      let names := report.failures.map fun c => c.kernel.name
      ⟨1, output, "Error: Kernels disagree with portable reference: " ++
        String.intercalate ", " names ++ "\n"⟩

/-- Runs a subcommand in a dispatch mode. -/
def runCommand (host : CapabilitySet) (mode : DispatchMode) : Command → ProgramResult
  | .caps json => reportCapabilities host mode json
  | .selfcheck options json => reportSelfCheck host mode options json

/-- One run on a processor with the capabilities `host`, with a package for layers of
settings and a parser of arguments. -/
def run (L : Layering) (parse : ArgumentParser) (host : CapabilitySet)
    (arguments : List String) (file : Option String) (environment : List (String × String)) :
    ProgramResult :=
  match parse arguments with
  | .error result => result
  | .ok invocation =>
    match Settings.load L file environment with
    | .error cause => failure "Failed to load kernel configuration" cause
    | .ok settings =>
      runCommand host (invocation.dispatch.getD settings.dispatch) invocation.command

end Program

end VectorDistance
