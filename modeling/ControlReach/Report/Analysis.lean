import ControlReach.Calls.OfProgram
import ControlReach.Flow.OfControl
import ControlReach.Report.Basic
import ControlReach.Settings.Basic

/-!
# Analysis of a program

A rejected control has no results. In the others an error location that no path leads to is
unreachable, and the rest are asked one after another, under one token.
-/

namespace ControlReach

/-- What the questions of one analysis share. -/
structure Session where
  token : Token
  statistics : Statistics
  /-- The time for a question is no number. -/
  timeless : Bool := false

/-- Limits that were given without a number, and so cannot be used. -/
structure BlankLimits where
  timeout : Bool := false
  workers : Bool := false
  deriving DecidableEq, Repr

/-- Why an analysis ends without a report. -/
inductive AnalysisFault where
  /-- There is work to share out, and nobody to do it. -/
  | noWorkers
  /-- A limit is needed, and it is no number. -/
  | blankLimit
  | generation (fault : GenerationFault)
  /-- The name of an unknown has no encoding. -/
  | badName (run : Text.HalfRun)

def AnalysisFault.message : AnalysisFault → String
  | .noWorkers => "max_workers must be greater than 0"
  | .blankLimit => "a limit has to be a number"
  | .generation fault => fault.message
  | .badName run => run.message

/-- What became of an error location. -/
inductive TargetOutcome where
  | answered (result : TargetResult)
  | rejected (why : Diagnostic)
  | failed (fault : AnalysisFault)

namespace TargetOutcome

def result? : TargetOutcome → Option TargetResult
  | .answered r => some r
  | _ => none

def error? : TargetOutcome → Option Diagnostic
  | .rejected d => some d
  | _ => none

/-- The fault that ends the analysis, if there is one. -/
def fault? : TargetOutcome → Option AnalysisFault
  | .failed fault => some fault
  | _ => none

/-- The outcome of an error location that has no query. -/
def ofFault (target : Target) (fault : GenerationFault) : TargetOutcome :=
  match fault with
  | .canceled _ => .answered ⟨target, .unknown .canceled⟩
  | .rejected why => .rejected why
  | .evaluation why =>
    match why.diagnostic? with
    | some d => .rejected d
    | none => .failed (.generation fault)
  | .notInGraph _ _ => .failed (.generation fault)

end TargetOutcome

def Session.ask (s : Session) (q : Query) (token : Token) : Except AnalysisFault Verdict × Token :=
  match q.check token with
  | (.ok (.unknown .canceled), token) => (.ok (.unknown .canceled), token)
  | (r, token) => (if s.timeless then .error .blankLimit else r.mapError .badName, token)

namespace FlowGraph

def solve (g : FlowGraph) (exclusive : Bool) (target : Target) (s : Session) :
    TargetOutcome × Session :=
  let (stop, token) := s.token.poll
  if stop then (.answered ⟨target, .unknown .canceled⟩, { s with token })
  else
    match g.generate exclusive target token with
    | (.error fault, token) => (.ofFault target fault, { s with token })
    | (.ok q, token) =>
      match s.ask q token with
      | (.error fault, token) => (.failed fault, { s with token })
      | (.ok verdict, token) =>
        (.answered ⟨target, verdict⟩, { s with token, statistics := s.statistics.record verdict })

def solveAll (g : FlowGraph) (exclusive : Bool) : List Target → Session →
    List TargetOutcome × Session
  | [], s => ([], s)
  | t :: rest, s =>
    let (outcome, s) := g.solve exclusive t s
    let (outcomes, s) := g.solveAll exclusive rest s
    (outcome :: outcomes, s)

/-- The results for the error locations that no path leads to. -/
def deadResults (g : FlowGraph) : List TargetResult :=
  g.deadTargets.map fun t => ⟨t, .unreachable⟩

end FlowGraph

/-- A control with its graph and its rejections. -/
structure BuiltControl where
  name : String
  graph : FlowGraph
  errors : List Diagnostic

namespace BuiltControl

/-- The error locations to be asked about: none if the control is rejected. -/
def jobs (c : BuiltControl) : List Target := if c.errors.isEmpty then c.graph.targets else []

/-- The report on a control, given what became of its error locations. -/
def report (c : BuiltControl) (outcomes : List TargetOutcome) : ControlReport :=
  ControlReport.ordered {
    name := c.name
    blocks := c.graph.blocks.length
    errors := c.errors ++ (outcomes.filterMap TargetOutcome.error?).map (Diagnostic.within c.name)
    results := if c.errors.isEmpty then
        c.graph.deadResults ++ outcomes.filterMap TargetOutcome.result?
      else [] }

end BuiltControl

def solveControls (exclusive : Bool) : List BuiltControl → Session →
    List (BuiltControl × List TargetOutcome) × Session
  | [], s => ([], s)
  | c :: rest, s =>
    let (outcomes, s) := c.graph.solveAll exclusive c.jobs s
    let (others, s) := solveControls exclusive rest s
    ((c, outcomes) :: others, s)

/-- Why work cannot be shared out among workers. -/
def AnalysisSettings.sharingFault? (settings : AnalysisSettings) (blanks : BlankLimits)
    (items : Nat) : Option AnalysisFault :=
  if !settings.parallel || items ≤ 1 then none
  else if blanks.workers then some .blankLimit
  else if settings.maxWorkers < 1 then some .noWorkers
  else none

/-- The flow graphs of the controls that own their names, in order of declaration. -/
def Program.builtControls (p : Program) : List BuiltControl :=
  let globals := p.globals.scope
  let calls := p.callGraph
  p.ownedControls.map fun c =>
    let (graph, errors) := FlowGraph.ofControl globals (some calls) c
    ⟨c.name, graph, errors⟩

def Program.analyze (p : Program) (settings : AnalysisSettings) (token : Token)
    (blanks : BlankLimits := {}) : Except AnalysisFault Report :=
  let built := p.builtControls
  let jobs := built.flatMap BuiltControl.jobs
  match (settings.sharingFault? blanks built.length).or
      (settings.sharingFault? blanks jobs.length) with
  | some fault => .error fault
  | none =>
    let (solved, session) := solveControls settings.exclusiveTableActions built
      ⟨token, Statistics.empty, blanks.timeout⟩
    match (solved.flatMap (·.2)).findSome? TargetOutcome.fault? with
    | some fault => .error fault
    | none =>
      .ok {
        source := p.source
        controls := Order.sort (fun a b => Order.textLe a.name b.name)
          (solved.map fun (c, outcomes) => c.report outcomes)
        errors := p.globals.errors
        canceled := session.token.poll.1
        statistics := session.statistics }

end ControlReach
