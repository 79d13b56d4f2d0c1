import VectorDistance.HelpText
import VectorDistance.ReferenceLayering

/-!
# Entry point

Hands the arguments, the settings file of the working directory and the
variables of the environment to the program and writes what it answers. Packages for
settings and arguments explain in words of their own what is wrong; here are some.
-/

namespace VectorDistance

/-- Words for what is wrong with settings. -/
def settingsProblemText : SettingsProblem Empty → String
  | .malformedFile _ => "the settings file is not well-formed"
  | .unknownVariant _ names => "expected one of " ++ String.intercalate ", " names

/-- Words for what is wrong with a line of arguments. -/
def usageFaultText : CommandLine.UsageFault → String
  | .missingCommand => "a subcommand is required"
  | .unexpected argument => "unexpected argument " ++ argument
  | .missingValue option => "a value is required for " ++ option
  | .invalidValue option value => "invalid value " ++ value ++ " for " ++ option
  | .repeated option => option ++ " is given more than once"

/-- The name and value of one entry of an environment block. -/
def splitVariable (entry : String) : String × String :=
  let cs := entry.toList
  (String.ofList (cs.takeWhile (· != '=')), String.ofList ((cs.dropWhile (· != '=')).drop 1))

/-- The variables of an environment block, whose entries end with a zero. -/
def environmentVariables (block : String) : List (String × String) :=
  ((block.toList.splitOn (Char.ofNat 0)).filter fun entry => !entry.isEmpty).map fun entry =>
    splitVariable (String.ofList entry)

/-- The text of a file, none if it cannot be read. -/
def readText? (path : String) : IO (Option String) := do
  try
    return some (← IO.FS.readFile path)
  catch _ =>
    return none

end VectorDistance

open VectorDistance in
/-- Runs the program on portable kernels, the ones that every processor has. -/
def main (arguments : List String) : IO UInt32 := do
  let file ← readText? settingsFileName
  let block ← readText? "/proc/self/environ"
  let result := Program.run (.reference Empty settingsProblemText)
    (CommandLine.parse usageFaultText) .none arguments file (environmentVariables (block.getD ""))
  IO.print result.output
  IO.eprint result.errors
  return result.code.toUInt32
