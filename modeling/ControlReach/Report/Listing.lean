import ControlReach.Data.JsonWriter
import ControlReach.Report.Document

/-!
# Printed reports

A heading, the controls with their rejections and verdicts, rejections that belong to no control,
and the counts.
-/

namespace ControlReach

def ruler (c : Char) : String := String.ofList (List.replicate 70 c)

/-- The location of an error location, between brackets. -/
def Target.place (t : Target) : String :=
  match t.loc with
  | some l => " [" ++ l.text ++ "]"
  | none => ""

/-- An error location with its place and its description. -/
def Target.heading (t : Target) : String := t.id ++ t.place ++ ": " ++ t.description

def TargetResult.lines (r : TargetResult) : List String :=
  match r.verdict with
  | .reachable w =>
    ("  BUG     " ++ r.target.heading) ::
      w.map fun (key, v) => "            " ++ key ++ " = " ++ Json.compact v.toValue
  | .unknown reason => ["  UNKNOWN " ++ r.target.heading ++ " (" ++ reason.text ++ ")"]
  | .unreachable => ["  SAFE    " ++ r.target.heading]

def ControlReport.lines (c : ControlReport) : List String :=
  let status := if c.isAnalyzed then "analyzed" else "NOT ANALYZED"
  ["", "control " ++ c.name ++ " (" ++ status ++ ", " ++ toString c.blocks ++ " blocks)"] ++
    c.errors.map (fun d => "  ERROR   " ++ d.text) ++ c.results.flatMap TargetResult.lines

def Summary.line (s : Summary) : String :=
  toString s.targets ++ " target(s): " ++ toString s.reachable ++ " reachable, " ++
    toString s.unreachable ++ " unreachable, " ++ toString s.unknown ++ " unknown; " ++
    toString s.errors ++ " error(s)"

def Report.lines (r : Report) : List String :=
  [ruler '=', "p4reach: " ++ r.source, ruler '='] ++ r.controls.flatMap ControlReport.lines ++
    r.errors.flatMap (fun d => ["", "ERROR " ++ d.text]) ++ ["", ruler '-', r.summary.line] ++
    if r.canceled then ["run canceled: remaining targets reported as unknown"] else []

def Report.listing (r : Report) : String := String.join (r.lines.map (· ++ "\n"))

end ControlReach
