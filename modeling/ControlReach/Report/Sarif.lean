import ControlReach.Report.Document
import ControlReach.Data.Path

/-!
# Reports in the SARIF format

A reachable error location is an error, an undecided one a warning, and each rejection is an error
under a rule of its own.
-/

namespace ControlReach

/-- What a result is reported under. -/
inductive Rule where
  | assertFail
  | bug
  | elaboration
  | unknown
  deriving DecidableEq, Repr

namespace Rule

def all : List Rule := [.assertFail, .bug, .elaboration, .unknown]

def index : Rule → Nat
  | .assertFail => 0
  | .bug => 1
  | .elaboration => 2
  | .unknown => 3

def id : Rule → String
  | .bug => "P4R001"
  | .assertFail => "P4R002"
  | .unknown => "P4R003"
  | .elaboration => "P4R100"

def name : Rule → String
  | .bug => "BugReachable"
  | .assertFail => "AssertionFailure"
  | .unknown => "ReachabilityUnknown"
  | .elaboration => "ElaborationError"

def short : Rule → String
  | .bug => "bug() location is reachable"
  | .assertFail => "Assertion can fail"
  | .unknown => "Reachability could not be decided"
  | .elaboration => "Control could not be analyzed"

def full : Rule → String
  | .bug => "Some input packet and table configuration drive the control to a bug() call."
  | .assertFail =>
    "Some input packet and table configuration reach an assert() call with its condition false."
  | .unknown =>
    "The solver returned unknown, hit its time or resource limit, or the run was canceled. " ++
      "The target is neither proven safe nor shown reachable."
  | .elaboration =>
    "A naming, typing or unsupported-construct error prevented the enclosing control from being " ++
      "analyzed."

def level : Rule → String
  | .unknown => "warning"
  | _ => "error"

def toValue (r : Rule) : Value :=
  .object [("id", .text r.id), ("name", .text r.name),
    ("shortDescription", .object [("text", .text r.short)]),
    ("fullDescription", .object [("text", .text r.full)]),
    ("defaultConfiguration", .object [("level", .text r.level)])]

end Rule

/-- The directory that file names are shown from, and the one that relative file names start at. -/
structure SourceRoot where
  root : Path
  base : Path

namespace SourceRoot

def locate (s : SourceRoot) (p : Path) : Path := (s.base.under p).normal

def relative? (s : SourceRoot) (file : String) : Option Path :=
  let p := Path.ofText file
  if p.fault?.isSome then none else (s.locate p).relativeTo? (s.locate s.root)

/-- The name of a file as seen from the root; a file that is not below it keeps its name. -/
def uri (s : SourceRoot) (file : String) : String :=
  match s.relative? file with
  | some p => p.text
  | none => file

end SourceRoot

def nonzero (key : String) (n : Int) : List (String × Value) :=
  if n = 0 then [] else [(key, .int n)]

def Location.physical (l : Location) (s : SourceRoot) : Value :=
  let region := nonzero "startLine" l.line ++ nonzero "startColumn" l.column
  .object [("physicalLocation", .object (
    ("artifactLocation", .object [("uri", .text (s.uri l.file))]) ::
      if region.isEmpty then [] else [("region", .object region)]))]

def Location.entry (s : SourceRoot) : Option Location → List (String × Value)
  | none => []
  | some l => [("locations", .list [l.physical s])]

def Rule.entry (r : Rule) (message : String) : List (String × Value) :=
  [("ruleId", .text r.id), ("ruleIndex", Value.ofNat r.index), ("level", .text r.level),
    ("message", .object [("text", .text message)])]

def Target.rule (t : Target) : Rule := if t.kind = .bug then .bug else .assertFail

/-- The entry of an error location, unless it is unreachable. -/
def TargetResult.sarif? (s : SourceRoot) (r : TargetResult) : Option Value :=
  let t := r.target
  let entry (rule : Rule) (message : String) (properties : List (String × Value)) : Value :=
    .object (rule.entry message ++
      [("partialFingerprints", .object [("targetId", .text t.id)]),
        ("properties", .object properties)] ++ Location.entry s t.loc)
  match r.verdict with
  | .unreachable => none
  | .reachable w =>
    some (entry t.rule (t.description ++ " in control " ++ t.control)
      [("witness", Witness.toValue w)])
  | .unknown reason =>
    some (entry .unknown (t.description ++ ": reachability unknown (" ++ reason.text ++ ")")
      [("reason", .text reason.text)])

def Diagnostic.sarif (s : SourceRoot) (d : Diagnostic) : Value :=
  .object (Rule.elaboration.entry (d.kind.text ++ ": " ++ d.message) ++
    [("properties", .object [("control", Value.ofText? d.control),
      ("errorKind", .text d.kind.text)])] ++ Location.entry s d.loc)

def Report.toSarif (r : Report) (s : SourceRoot) : Value :=
  .object [("$schema", .text "https://json.schemastore.org/sarif-2.1.0.json"),
    ("version", .text "2.1.0"),
    ("runs", .list [.object [
      ("tool", .object [("driver", .object [("name", .text "p4reach"),
        ("semanticVersion", .text "0.1.0"), ("rules", .list (Rule.all.map Rule.toValue))])]),
      ("results", .list (r.results.filterMap (TargetResult.sarif? s) ++
        r.allErrors.map (Diagnostic.sarif s))),
      ("invocations", .list [.object [("executionSuccessful", .bool !r.canceled),
        ("toolExecutionNotifications", .list [])]]),
      ("properties", .object [("metrics", r.summary.toValue)])]])]

end ControlReach
