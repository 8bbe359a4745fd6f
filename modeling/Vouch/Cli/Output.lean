import Vouch.Cli.Style
import Vouch.Condition.Basic
import Vouch.Json.Basic
import Vouch.Verify.Report

/-!
# Written Reports

A report as lines for people and as JSON for machines. Verdicts are tagged and
coloured; the summary leaves out verdicts that nobody got.

## Main definitions

* `Report.lines`: The lines of a report.
* `Report.toJson`: A report as JSON.
-/

namespace Vouch

namespace Verdict

/-- The colour of a verdict. -/
def colour : Verdict → Colour
  | ok => .green
  | nok => .red
  | unknown => .yellow

/-- All verdicts, in the order in which they are counted. -/
def all : List Verdict := [ok, nok, unknown]

end Verdict

namespace RoutineReport

/-- The line of one routine. -/
def line (coloured verbose : Bool) (r : RoutineReport) : String :=
  let style : Style := { bold := true, colour := some r.verdict.colour }
  let tag := style.paint coloured ("[" ++ r.verdict.label ++ "]")
  let place := match r.location with
    | some location => " at " ++ location
    | none => ""
  let time := if verbose then " (" ++ toString r.durationMs ++ "ms)" else ""
  "  " ++ tag ++ "  " ++ r.name ++ place ++ time

/-- The routine's part of the report as JSON. -/
def toJson (r : RoutineReport) : Json :=
  .record ([("name", .text r.name), ("verdict", .text r.verdict.name),
    ("duration_ms", .nat r.durationMs)]
    ++ (r.location.map fun l => ("location", Json.text l)).toList)

end RoutineReport

namespace Report

/-- The number of routines with a verdict, if it is not zero. -/
def countText? (coloured : Bool) (r : Report) (v : Verdict) : Option String :=
  let n := r.count v
  let style : Style := { colour := some v.colour }
  if n = 0 then none else some (toString n ++ " " ++ style.paint coloured v.label)

/-- The line that sums up the verdicts. -/
def summary (coloured : Bool) (r : Report) : String :=
  match Verdict.all.filterMap (r.countText? coloured) with
  | [] => "Summary: no routines"
  | parts =>
    "Summary: " ++ ", ".intercalate parts ++ " (total: " ++ toString r.totalMs ++ "ms)"

/-- The warning that nothing was proved. -/
def warning (coloured : Bool) : String :=
  ({ bold := true, colour := some .yellow } : Style).paint coloured
    "warning: no prover available, verdicts below are unchecked"

/-- The lines of a report. -/
def lines (coloured verbose : Bool) (r : Report) : List String :=
  if r.routines.isEmpty then [({ dimmed := true } : Style).paint coloured "No routines found."]
  else
    (if r.degraded then [warning coloured] else []) ++ [""]
      ++ r.routines.map (·.line coloured verbose) ++ ["", r.summary coloured, ""]

/-- The report as JSON. -/
def toJson (file : String) (method : Method) (r : Report) : Json :=
  .record [("file", .text file), ("method", .text method.name), ("degraded", .bool r.degraded),
    ("routines", .arr (r.routines.map RoutineReport.toJson)),
    ("summary", .record [("total", .nat r.routines.length), ("ok", .nat (r.count .ok)),
      ("nok", .nat (r.count .nok)), ("unknown", .nat (r.count .unknown))])]

end Report

end Vouch
