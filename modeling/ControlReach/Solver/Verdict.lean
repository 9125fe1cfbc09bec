import ControlReach.Query.Generate
import ControlReach.Solver.Solve

/-!
# Verdicts

An error location is reachable if its assertions are satisfiable. The witness gives, for each
observation and each table guard, the value that it has in every satisfying choice, if any. A query
that was canceled, or whose assertions mix sorts, has no verdict.
-/

namespace ControlReach

/-- A value in a witness; `any` if more than one is possible. -/
inductive WitnessValue where
  | flag (b : Bool)
  | text (s : String)
  | any
  deriving DecidableEq, Repr

/-- The values of a witness by key. -/
abbrev Witness := List (String × WitnessValue)

/-- Why there is no verdict. -/
inductive UnknownReason where
  | canceled
  | timeout
  | sortMismatch
  | other (text : String)
  deriving DecidableEq, Repr

def UnknownReason.text : UnknownReason → String
  | .canceled => "canceled"
  | .timeout => "timeout"
  | .sortMismatch => "solver error: sort mismatch"
  | .other s => s

/-- The reason behind a solver's own explanation. An expired timer may be explained as a
cancellation. -/
def UnknownReason.ofExplanation (canceled : Bool) (explanation : String) : UnknownReason :=
  if canceled then .canceled
  else if explanation = "timeout" || explanation = "canceled" then .timeout
  else if explanation = "" then .other "unknown"
  else .other explanation

/-- The answer to a query. -/
inductive Verdict where
  | reachable (witness : Witness)
  | unreachable
  | unknown (reason : UnknownReason)
  deriving DecidableEq, Repr

namespace Verdict

def text : Verdict → String
  | .reachable _ => "reachable"
  | .unreachable => "unreachable"
  | .unknown _ => "unknown"

def isReachable : Verdict → Bool
  | .reachable _ => true
  | _ => false

def isUnreachable : Verdict → Bool
  | .unreachable => true
  | _ => false

def isUnknown : Verdict → Bool
  | .unknown _ => true
  | _ => false

end Verdict

def Denotation.witness : Denotation → WitnessValue
  | .flag b => .flag b
  | .text v => .text (StringValue.toText v)

/-- The keys whose unknowns have the value of `c` in every satisfying choice. A choice in which one
of them differs shows which are not. -/
def forced (p : Problem) (c : Choice) : Nat → List (String × Symbol) → List (String × Symbol)
  | 0, keys => keys
  | fuel + 1, keys =>
    match (p.exclude c (keys.map Prod.snd)).solve (some c) with
    | none => keys
    | some d => forced p c fuel (keys.filter fun k => d.value k.2 = c.value k.2)

def witness (p : Problem) (c : Choice) (keys : List (String × Symbol)) : Witness :=
  let d := c.vary p.circuit.constants
  let known := if d.satisfies p then d else c
  let keys' := keys.filter fun k => known.value k.2 = c.value k.2
  let sure := (forced p c keys'.length keys').map Prod.fst
  keys.map fun (key, s) => (key, if key ∈ sure then (c.value s).witness else .any)

variable (q : Query)

/-- The keys of a query: observations, then guards; a guard takes the place of an observation of its
name. -/
def Query.keys : List (String × Symbol) :=
  let byKey := Order.sort fun (a b : String × Symbol) => Order.textLe a.1 b.1
  (byKey q.guards).foldl (fun l (key, s) => Assoc.set key s l) (byKey q.observations)

def Problem.verdict (p : Problem) (keys : List (String × Symbol)) : Verdict :=
  match p.solve none with
  | none => .unreachable
  | some c => .reachable (witness p c keys)

/-- The first fault of the names whose values a witness gives. -/
def Query.nameFault? : Option Text.HalfRun :=
  let byKey := Order.sort fun (a b : String × Symbol) => Order.textLe a.1 b.1
  (byKey q.observations ++ byKey q.guards).findSome? fun (_, s) =>
    match Text.encode s.name with
    | .error run => some run
    | .ok _ => none

/-- The verdict on a query whose problem is given. -/
def Query.conclude : Except EncodingFault Problem → Except Text.HalfRun Verdict
  | .error .sortMismatch => .ok (.unknown .sortMismatch)
  | .error (.badName run) => .error run
  | .ok p =>
    match p.verdict q.keys, q.nameFault? with
    | .reachable _, some run => .error run
    | v, _ => .ok v

def Query.decide : Except Text.HalfRun Verdict :=
  q.conclude (Problem.ofTerms q.assertions)

/-- The verdict on a query under a token, which is polled at the start and before the query is
decided. -/
def Query.check (token : Token) : Except Text.HalfRun Verdict × Token :=
  let (stop, token) := token.poll
  if stop then (.ok (.unknown .canceled), token)
  else
    match Problem.ofTerms q.assertions with
    | .error (.badName run) => (.error run, token)
    | problem =>
      let (stop, token) := token.poll
      if stop then (.ok (.unknown .canceled), token) else (q.conclude problem, token)

/-- The verdict on a query whose token is canceled just before it is decided. -/
def Query.checkRacing (token : Token) : Except Text.HalfRun Verdict × Token :=
  let (stop, token) := token.poll
  if stop then (.ok (.unknown .canceled), token)
  else
    match Problem.ofTerms q.assertions with
    | .error (.badName run) => (.error run, token)
    | .error .sortMismatch => (.ok (.unknown .sortMismatch), token)
    | .ok _ => (.ok (.unknown .canceled), Token.canceled)

/-- How many queries were answered, and how. -/
structure Statistics where
  queries : Nat
  reachable : Nat
  unreachable : Nat
  unknown : Nat
  deriving DecidableEq, Repr

def Statistics.empty : Statistics := ⟨0, 0, 0, 0⟩

def Statistics.record (s : Statistics) : Verdict → Statistics
  | .reachable _ => { s with queries := s.queries + 1, reachable := s.reachable + 1 }
  | .unreachable => { s with queries := s.queries + 1, unreachable := s.unreachable + 1 }
  | .unknown _ => { s with queries := s.queries + 1, unknown := s.unknown + 1 }

end ControlReach
