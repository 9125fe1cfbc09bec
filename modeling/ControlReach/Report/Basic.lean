import ControlReach.Solver.Verdict
import ControlReach.Text.Blank

/-!
# Reports

For each control its verdicts, or the rejections because of which it has none.
-/

namespace ControlReach

/-- The value of decimal digits, the last of them first. -/
def readDigits : List Char → Option Nat
  | [] => some 0
  | c :: rest => (Text.digitValue? c).bind fun d => (readDigits rest).map fun n => d + 10 * n

namespace Target

/-- The number after the last `#` of the id. -/
def number (t : Target) : Nat := (readDigits (t.id.toList.reverse.takeWhile (· != '#'))).getD 0

/-- By control, then by number, then by id. -/
def le (a b : Target) : Bool :=
  if a.control ≠ b.control then Order.textLe a.control b.control
  else if a.number ≠ b.number then a.number < b.number
  else Order.textLe a.id b.id

end Target

/-- The verdict on an error location. -/
structure TargetResult where
  target : Target
  verdict : Verdict

/-- The entry of a control in a report. -/
structure ControlReport where
  name : String
  blocks : Nat
  errors : List Diagnostic
  results : List TargetResult

def ControlReport.isAnalyzed (c : ControlReport) : Bool := c.errors.isEmpty

/-- Put the results in the order of their error locations. -/
def ControlReport.ordered (c : ControlReport) : ControlReport :=
  { c with results := Order.sort (fun a b => a.target.le b.target) c.results }

/-- What was found in a program. -/
structure Report where
  source : String
  controls : List ControlReport
  /-- Rejections that belong to no control. -/
  errors : List Diagnostic
  canceled : Bool
  statistics : Statistics

/-- How many controls, error locations, verdicts of each sort and rejections there are. -/
structure Summary where
  controls : Nat
  targets : Nat
  reachable : Nat
  unreachable : Nat
  unknown : Nat
  errors : Nat
  deriving DecidableEq, Repr

namespace Report

def results (r : Report) : List TargetResult := r.controls.flatMap ControlReport.results

variable (r : Report)

def allErrors : List Diagnostic := r.errors ++ r.controls.flatMap ControlReport.errors

def control? (name : String) : Option ControlReport :=
  r.controls.find? fun c => c.name == name

def result? (id : String) : Option TargetResult :=
  r.results.find? fun t => t.target.id == id

def reachable : List TargetResult := r.results.filter (·.verdict.isReachable)

def unreachable : List TargetResult := r.results.filter (·.verdict.isUnreachable)

def unknown : List TargetResult := r.results.filter (·.verdict.isUnknown)

def summary : Summary where
  controls := r.controls.length
  targets := r.results.length
  reachable := r.reachable.length
  unreachable := r.unreachable.length
  unknown := r.unknown.length
  errors := r.allErrors.length

/-- Something is reachable, something was rejected, something is undecided, or all is safe. -/
def exitCode : Nat :=
  if !r.reachable.isEmpty then 1
  else if !r.allErrors.isEmpty then 3
  else if !r.unknown.isEmpty then 2
  else 0

end Report

end ControlReach
