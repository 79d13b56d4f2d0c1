import VectorDistance.DataTree
import VectorDistance.DecimalText
import VectorDistance.SelfCheck

/-!
# Reports

The reports of the command line, as tables for people and as data trees for
programs: what the processor has and which kernels get bound, and how the
kernels compare in a self-check.
-/

namespace VectorDistance

/-- A text filled up with blanks after it. -/
def padRight (width : Nat) (text : String) : String :=
  text ++ String.ofList (List.replicate (width - text.length) ' ')

/-- A text filled up with blanks before it. -/
def padLeft (width : Nat) (text : String) : String :=
  String.ofList (List.replicate (width - text.length) ' ') ++ text

/-- The data tree of two strategies. -/
def Strategies.tree (s : Strategies) : DataTree :=
  .record [("half", .text s.half.name), ("bit", .text s.bit.name)]

/-- What a processor has and what a registry makes of it. -/
structure CapabilityReport where
  /-- The capabilities of the processor. -/
  host : CapabilitySet
  /-- The dispatch mode in force. -/
  mode : DispatchMode
  /-- The strategies that were bound. -/
  strategies : Strategies

namespace CapabilityReport

/-- A yes or no. -/
def yesNo (flag : Bool) : String :=
  if flag then "yes" else "no"

/-- The rows of the table. -/
def rows (r : CapabilityReport) : List (String × String) :=
  [("f16c", yesNo r.host.halfConversion), ("avx512_popcnt", yesNo r.host.blockPopulation),
    ("dispatch", r.mode.title), ("half kernels", r.strategies.half.name),
    ("bit kernels", r.strategies.bit.name)]

/-- The table, one row to a line. -/
def table (r : CapabilityReport) : String :=
  String.join (r.rows.map fun row => padRight 16 row.1 ++ row.2 ++ "\n")

/-- The data tree, with sorted names. -/
def tree (r : CapabilityReport) : DataTree :=
  .record
    [("capabilities", .record
        [("avx512_popcnt", .boolean r.host.blockPopulation),
          ("f16c", .boolean r.host.halfConversion)]),
      ("dispatch", .text r.mode.name),
      ("strategies", .record
        [("bit", .text r.strategies.bit.name), ("half", .text r.strategies.half.name)])]

end CapabilityReport

namespace SelfCheck

/-- One row of the table: the two answers with six decimals, their relative
difference with three digits, and the verdict. -/
def Comparison.row (c : Comparison) : String :=
  padRight 28 c.kernel.name ++ padLeft 20 (c.portable.fixedText 6) ++
    padLeft 20 (c.dispatched.fixedText 6) ++ padLeft 12 (c.relativeDifference.scientificText 2) ++
    "  " ++ (if c.passed then "ok" else "FAIL") ++ "\n"

/-- The data tree of a comparison. -/
def Comparison.tree (c : Comparison) : DataTree :=
  .record
    [("kernel", .text c.kernel.name), ("portable", .number c.portable.dataText),
      ("dispatched", .number c.dispatched.dataText),
      ("relative_difference", .number c.relativeDifference.dataText),
      ("tolerance", .number c.tolerance.dataText), ("passed", .boolean c.passed)]

/-- The table of a report under a line that says what was checked. -/
def Report.table (r : Report) : String :=
  s!"dim {r.dimension} / bytes {r.bytes} / seed {r.seed} (half: {r.strategies.half.name}, " ++
    s!"bit: {r.strategies.bit.name})\n" ++ String.join (r.comparisons.map Comparison.row)

/-- The data tree of a report. -/
def Report.tree (r : Report) : DataTree :=
  .record
    [("dim", .number (toString r.dimension)), ("bytes", .number (toString r.bytes)),
      ("seed", .number (toString r.seed)), ("strategies", r.strategies.tree),
      ("comparisons", .list (r.comparisons.map Comparison.tree))]

end SelfCheck

end VectorDistance
