import ControlReach.Data.Value
import ControlReach.Report.Basic

/-!
# Reports as documents

The document form of a report and of its parts.
-/

namespace ControlReach

open Value

def Value.ofNat (n : Nat) : Value := .int (Int.ofNat n)

def Value.ofText? : Option String → Value
  | some s => .text s
  | none => .null

def Location.toValue (l : Location) : Value :=
  .object [("file", .text l.file), ("line", .int l.line), ("column", .int l.column)]

def Location.toValue? : Option Location → Value
  | some l => l.toValue
  | none => .null

def Diagnostic.toValue (d : Diagnostic) : Value :=
  .object [("kind", .text d.kind.text), ("message", .text d.message),
    ("control", ofText? d.control), ("location", Location.toValue? d.loc)]

def WitnessValue.toValue : WitnessValue → Value
  | .flag b => .bool b
  | .text s => .text s
  | .any => .null

def Witness.toValue (w : Witness) : Value := .object (w.map fun (key, v) => (key, v.toValue))

/-- The sort of fault that a reachable error location shows. -/
def Target.fault (t : Target) : String := if t.kind = .bug then "BUG" else "ASSERT_FAIL"

/-- What shows that an error location is reachable. -/
def Target.counterexample (t : Target) (w : Witness) : Value :=
  .object [("bug_type", .text t.fault), ("description", .text t.description),
    ("witness", Witness.toValue w)]

def TargetResult.toValue (r : TargetResult) : Value :=
  .object ([("id", .text r.target.id), ("control", .text r.target.control),
    ("kind", .text r.target.kind.text), ("description", .text r.target.description),
    ("location", Location.toValue? r.target.loc), ("verdict", .text r.verdict.text)] ++
    match r.verdict with
    | .reachable w =>
      [("witness", Witness.toValue w), ("counterexample", r.target.counterexample w)]
    | .unreachable => []
    | .unknown reason => [("reason", .text reason.text)])

def ControlReport.toValue (c : ControlReport) : Value :=
  .object [("name", .text c.name), ("analyzed", .bool c.isAnalyzed),
    ("blocks", ofNat c.blocks), ("targets", .list (c.results.map TargetResult.toValue)),
    ("errors", .list (c.errors.map Diagnostic.toValue))]

def Summary.toValue (s : Summary) : Value :=
  .object [("controls", ofNat s.controls), ("targets", ofNat s.targets),
    ("reachable", ofNat s.reachable), ("unreachable", ofNat s.unreachable),
    ("unknown", ofNat s.unknown), ("errors", ofNat s.errors)]

def Statistics.toValue (s : Statistics) : Value :=
  .object [("queries", ofNat s.queries), ("reachable", ofNat s.reachable),
    ("unreachable", ofNat s.unreachable), ("unknown", ofNat s.unknown)]

def Report.toValue (r : Report) : Value :=
  .object [("source", .text r.source), ("cancelled", .bool r.canceled),
    ("summary", r.summary.toValue), ("controls", .list (r.controls.map ControlReport.toValue)),
    ("errors", .list (r.allErrors.map Diagnostic.toValue)), ("stats", r.statistics.toValue)]

end ControlReach
