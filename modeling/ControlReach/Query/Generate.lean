import ControlReach.Query.Store
import ControlReach.Query.Token

/-!
# Reachability queries

For an error location there is one formula, satisfiable if and only if some execution from the entry
reaches it. The blocks on the way are visited once each, predecessors first. Where several edges
meet, every edge gets an unknown that selects it, and every variable whose values differ gets
unknowns for the joined value; definitions say that a selected edge is open and that its values are
the joined ones. So the formula grows with the graph, not with the number of paths.
-/

namespace ControlReach

open Term

/-- Why there is no query. -/
inductive GenerationFault where
  | rejected (why : Diagnostic)
  | notInGraph (target graph : String)
  | canceled (target : String)
  | evaluation (fault : EvalFault)

def EvalFault.diagnostic? : EvalFault → Option Diagnostic
  | .undefined x => some (.of (.undefinedRead x) none)
  | _ => none

def GenerationFault.message : GenerationFault → String
  | .rejected why => why.message
  | .notInGraph target graph => "target " ++ target ++ " is not in the graph of " ++ graph
  | .canceled target => target
  | .evaluation fault => (fault.diagnostic?.map Diagnostic.message).getD ""

/-- What the solver is asked about one error location. -/
structure Query where
  target : Target
  formula : Term
  side : List Term
  /-- The unknowns that stand for the reported values, by key. -/
  observations : List (String × Symbol)
  /-- The unknowns of table guards, by name. -/
  guards : List (String × Symbol)

def Query.assertions (q : Query) : List Term := q.formula :: q.side

/-! ### Joins -/

/-- What comes in along an edge: the condition under which it does, and the store. -/
structure Arrival where
  condition : Term
  store : Store

def selected (selector t : Term) : Term := mkOr [mkNot selector, t]

def selector (block : BlockId) (i : Nat) : Term :=
  flag ("edge@" ++ toString block ++ "." ++ toString i)

def mergeDefinitions (joined : Term) (selectors : List Term) (values : List Term) : List Term :=
  List.zipWith (fun sel v => selected sel (mkEq joined v)) selectors values

mutual

/-- Join the values of a variable. A value that is the same along all edges is kept. -/
def merge (name : String) (selectors : List Term) (first : SymValue) (others : List SymValue) :
    Except EvalFault (SymValue × List Term) :=
  if others.all fun v => first = v then .ok (first, [])
  else
    match first with
    | .struct fields => do
      let (fields, definitions) ← mergeFields name selectors fields others
      return (.struct fields, definitions)
    | .term t => do
      let joined := symbol ⟨name, t.sort⟩
      let values ← others.mapM SymValue.scalar
      return (.term joined, mergeDefinitions joined selectors (t :: values))

def mergeFields (name : String) (selectors : List Term) (fields : List (String × SymValue))
    (others : List SymValue) : Except EvalFault (List (String × SymValue) × List Term) :=
  match fields with
  | [] => .ok ([], [])
  | (f, v) :: rest => do
    let (v, here) ← merge (name ++ "." ++ f) selectors v (← others.mapM (·.get f))
    let (rest, there) ← mergeFields name selectors rest others
    return ((f, v) :: rest, here ++ there)

end

/-- Join the variables of the first store that all stores have. -/
def mergeStores (block : BlockId) (selectors : List Term) (others : List Store) :
    Store → Except EvalFault (Store × List Term)
  | [] => .ok ([], [])
  | (uid, v, w) :: rest =>
    match others.mapM (·.value? v) with
    | none => mergeStores block selectors others rest
    | some values => do
      let (w, here) ← merge (v.display ++ "@join" ++ toString block) selectors w values
      let (rest, there) ← mergeStores block selectors others rest
      return ((uid, v, w) :: rest, here ++ there)

/-- The condition, the store and the definitions at a block, given all that comes in. -/
def join (block : BlockId) : List Arrival → Except EvalFault (Option (Arrival × List Term))
  | [] => .ok none
  | [a] => .ok (some (a, []))
  | first :: others => do
    let arrivals := first :: others
    let selectors := (List.range arrivals.length).map (selector block)
    let opened :=
      List.zipWith (fun sel (a : Arrival) => selected sel a.condition) selectors arrivals
    let (store, definitions) ← mergeStores block selectors (others.map Arrival.store) first.store
    return some (⟨mkOr selectors, store⟩, opened ++ definitions)

/-! ### Observations -/

/-- The key under which a leaf of a variable is reported. -/
def observationKey (x : String) (path : List String) : String := Text.join "." (x :: path)

/-- Bind unknowns to the leaves of one variable; a key that is taken keeps its unknown. -/
def observeLeaves (target : Target) (x : String) (observed : List (String × Symbol)) :
    List (List String × Term) → List (String × Symbol) × List Term
  | [] => (observed, [])
  | (path, t) :: rest =>
    let key := observationKey x path
    let sym := (observed.lookup key).getD ⟨target.id ++ "|" ++ key, t.sort⟩
    let (observed, equations) := observeLeaves target x (Assoc.setNew key sym observed) rest
    (observed, mkEq (.symbol sym) t :: equations)

/-- Bind an unknown to each leaf of each observed variable that the store holds. -/
def observe (target : Target) (s : Store) (observed : List (String × Symbol)) :
    List (String × Variable) → List (String × Symbol) × List Term
  | [] => (observed, [])
  | (x, v) :: rest =>
    match s.value? v with
    | none => observe target s observed rest
    | some w =>
      let (observed, here) := observeLeaves target x observed (w.leaves [])
      let (observed, there) := observe target s observed rest
      (observed, here ++ there)

/-! ### Blocks -/

/-- What has come in at blocks not yet visited, and the definitions made so far. -/
structure Progress where
  incoming : List (BlockId × List Arrival)
  definitions : List Term

def Progress.arrivals (p : Progress) (i : BlockId) : List Arrival :=
  (p.incoming.lookup i).getD []

def Progress.arrive (p : Progress) (i : BlockId) (a : Arrival) : Progress :=
  { p with incoming := Assoc.set i (p.arrivals i ++ [a]) p.incoming }

/-- Follow the edges of a block into the relevant blocks, except those that are never open. -/
def follow (relevant : List BlockId) (reach : Term) (s : Store) (p : Progress) :
    List Edge → Except EvalFault Progress
  | [] => .ok p
  | e :: rest =>
    if e.target ∈ relevant then do
      let guard ← match e.guard with
        | none => .ok tt
        | some g => g.condition s
      if guard = ff then follow relevant reach s p rest
      else follow relevant reach s (p.arrive e.target ⟨mkAnd [reach, guard], s⟩) rest
    else follow relevant reach s p rest

/-- The formula of an error location with its observations. -/
abbrev Outcome := Term × List (String × Symbol)

def visitBlock (g : FlowGraph) (target : Target) (relevant : List BlockId) (i : BlockId)
    (p : Progress) : Except EvalFault (Outcome ⊕ Progress) := do
  match ← join i (p.arrivals i) with
  | none => return .inr p
  | some (arrival, definitions) =>
    let p := { p with definitions := p.definitions ++ definitions }
    let block := g.block? i
    let (s, assumed) ← execute ((block.map FlowBlock.ops).getD []) arrival.store []
    let reach := mkAnd (arrival.condition :: assumed)
    if i = target.block then
      let (observed, equations) := observe target s [] target.observed
      return .inl (mkAnd (p.definitions ++ reach :: equations), observed)
    else return .inr (← follow relevant reach s p (g.edgesOf i))

/-- Visit blocks in order, polling the token before each. -/
def visitBlocks (g : FlowGraph) (target : Target) (relevant : List BlockId) :
    List BlockId → Token → Progress → Except GenerationFault Outcome × Token
  | [], token, _ => (.ok (ff, []), token)
  | i :: rest, token, p =>
    let (stop, token) := token.poll
    if stop then (.error (.canceled target.id), token)
    else
      match visitBlock g target relevant i p with
      | .error fault => (.error (.evaluation fault), token)
      | .ok (.inl outcome) => (.ok outcome, token)
      | .ok (.inr p) => visitBlocks g target relevant rest token p

namespace FlowGraph

/-- The formula of an error location and its observations, over the relevant blocks. -/
def formula (g : FlowGraph) (target : Target) (relevant : List BlockId) (token : Token) :
    Except GenerationFault Outcome × Token :=
  visitBlocks g target relevant (g.topological relevant) token
    ⟨[(g.entry, [⟨tt, []⟩])], []⟩

/-- The unknowns of the guards of some sites, each name once. -/
def guardSymbols (sites : List TableSite) : List (String × Symbol) :=
  (sites.flatMap TableSite.guardNames).foldl (fun l x => Assoc.set x ⟨x, .bool⟩ l) []

/-- An application of a table selects exactly one of its labels. -/
def exclusivity (s : TableSite) : Term := mkOne (s.guardNames.map flag)

def generate (g : FlowGraph) (exclusive : Bool) (target : Target) (token : Token) :
    Except GenerationFault Query × Token :=
  if !g.backEdges.isEmpty then
    (.error (.rejected (.of (.unrolling g.name) target.loc)), token)
  else if (g.block? target.block).isNone then
    (.error (.notInGraph target.id g.name), token)
  else
    let relevant := g.reaching target.block
    match g.formula target relevant token with
    | (.error fault, token) => (.error fault, token)
    | (.ok (formula, observations), token) =>
      let sites := g.sitesIn relevant
      (.ok {
        target, formula, observations,
        side := if exclusive then sites.map exclusivity else [],
        guards := guardSymbols sites }, token)

end FlowGraph

end ControlReach
