import VectorDistance.CommandLine

/-!
# Help texts

What the command line says about itself: a sentence, how a line is put together,
and sections whose rows have a label and an explanation. The explanations of a
section stand below each other, two blanks after the longest label. With these texts
lines of arguments can be answered; the words for what is wrong with a line are up to the
user of the parser.
-/

namespace VectorDistance

/-- A named section of a help text: labels with their explanations. -/
structure HelpSection where
  /-- The line above the rows. -/
  title : String
  /-- Labels with their explanations. -/
  rows : List (String × String)

/-- The text of a section. -/
def HelpSection.text (s : HelpSection) : String :=
  let width := (s.rows.map fun row => row.1.length).foldl max 0
  s.title ++ ":\n" ++
    String.join (s.rows.map fun row => "  " ++ padRight width row.1 ++ "  " ++ row.2 ++ "\n")

namespace CommandLine

/-- The explanation of the dispatch option. -/
def dispatchRow : String × String :=
  ("    --dispatch <DISPATCH>",
    "Override the configured kernel dispatch mode [possible values: auto, portable]")

/-- The explanation of the option for reports for programs. -/
def jsonRow : String × String :=
  ("    --json", "Print JSON instead of a table")

/-- The explanation of the option for help. -/
def helpRow : String × String :=
  ("-h, --help", "Print help")

/-- What a subcommand does. -/
def Subcommand.summary : Subcommand → String
  | .caps => "Show detected processor capabilities and the kernels that get bound"
  | .selfcheck => "Compare every kernel against its portable implementation"

/-- The options of a subcommand. -/
def Subcommand.optionRows : Subcommand → List (String × String)
  | .caps => [dispatchRow, jsonRow, helpRow]
  | .selfcheck =>
    [("    --dim <DIM>", "Half vector dimension [default: 1027]"), dispatchRow,
      ("    --bytes <BYTES>", "Bit vector length in bytes [default: 141]"),
      ("    --seed <SEED>", "Seed for the generated vectors [default: 42]"), jsonRow, helpRow]

namespace HelpTopic

/-- What the topic is. -/
def summary : HelpTopic → String
  | .program => "Capability report and kernel self-check for halfbit"
  | .command sub => sub.summary
  | .help => "Print this message or the help of the given subcommand(s)"

/-- How a line on the topic is put together. -/
def usage : HelpTopic → String
  | .program => "Usage: halfbit [OPTIONS] <COMMAND>\n"
  | .command sub => "Usage: halfbit " ++ sub.name ++ " [OPTIONS]\n"
  | .help => "Usage: halfbit help [COMMAND]...\n"

/-- The sections on the topic. -/
def sections : HelpTopic → List HelpSection
  | .program =>
    [⟨"Commands", [("caps", Subcommand.caps.summary), ("selfcheck", Subcommand.selfcheck.summary),
        ("help", summary .help)]⟩,
      ⟨"Options", [dispatchRow, helpRow, ("-V, --version", "Print version")]⟩]
  | .command sub => [⟨"Options", sub.optionRows⟩]
  | .help => [⟨"Arguments", [("[COMMAND]...", "Print help for the subcommand(s)")]⟩]

/-- The help text on the topic. -/
def text (topic : HelpTopic) : String :=
  topic.summary ++ "\n\n" ++ topic.usage ++
    String.join (topic.sections.map fun part => "\n" ++ part.text)

end HelpTopic

/-- The name and version of the program. -/
def versionText : String := "halfbit 0.3.0\n"

/-- The parser, with these words for what is wrong with a line. -/
def parse (explain : UsageFault → String) : ArgumentParser := fun arguments =>
  match read arguments with
  | .error fault =>
    .error ⟨2, "", "error: " ++ explain fault ++ "\n\n" ++ HelpTopic.program.usage⟩
  | .ok .version => .error (Program.success versionText)
  | .ok (.help topic) => .error (Program.success topic.text)
  | .ok (.run command before after) => .ok ⟨dispatchOf before after, commandOf after command⟩

end CommandLine

end VectorDistance
