import ControlReach.Flow.Rvalue
import ControlReach.Order
import ControlReach.Search
import ControlReach.Typing.Diagnostic

/-!
# Flow graphs

A block runs its operations in order; then an edge whose guard holds is followed. An error location
is a block of its own, without operations and edges.
-/

namespace ControlReach

/-- An operation of a block. -/
inductive Op where
  /-- Store a value at a field path of a variable; the empty path is the whole variable. -/
  | assign (target : Variable) (path : List String) (value : Rvalue) (loc : Option Location)
  /-- Store an arbitrary value; `fresh` tells the values of different operations apart. -/
  | havoc (target : Variable) (fresh : Nat) (loc : Option Location)
  /-- Give up the execution unless the condition holds. -/
  | assume (condition : Rvalue) (loc : Option Location)

namespace Op

def text : Op → String
  | .assign target path value _ =>
    Text.join "." (target.display :: path) ++ " = " ++ value.render
  | .havoc target _ _ => "havoc " ++ target.display
  | .assume condition _ => "assume " ++ condition.render

def loc : Op → Option Location
  | .assign _ _ _ loc => loc
  | .havoc _ _ loc => loc
  | .assume _ loc => loc

def target? : Op → Option Variable
  | .assign target _ _ _ => some target
  | .havoc target _ _ => some target
  | .assume _ _ => none

end Op

/-- Why an edge is there. -/
inductive EdgeKind where
  | fallthrough
  | condTrue
  | condFalse
  | tableAction
  | tableMiss
  | assertFail
  deriving DecidableEq, Repr

def EdgeKind.text : EdgeKind → String
  | .fallthrough => "FALLTHROUGH"
  | .condTrue => "COND_TRUE"
  | .condFalse => "COND_FALSE"
  | .tableAction => "TABLE_ACTION"
  | .tableMiss => "TABLE_MISS"
  | .assertFail => "ASSERT_FAIL"

/-- The number of a block. -/
abbrev BlockId := Int

/-- An edge to a block; without a guard it is always open. -/
structure Edge where
  target : BlockId
  kind : EdgeKind
  guard : Option Rvalue

/-- An error location, with the variables in scope at it. -/
structure Target where
  control : String
  index : Nat
  kind : AssertionKind
  block : BlockId
  description : String
  loc : Option Location
  observed : List (String × Variable)

def Target.id (t : Target) : String := t.control ++ "#" ++ toString t.index

/-- One application of a table: a choice between its labels. -/
structure TableSite where
  id : Nat
  table : String
  labels : List String
  loc : Option Location

namespace TableSite

/-- The label of an application in which no entry matches. -/
def miss : String := "$miss"

def guardName (s : TableSite) (label : String) : String :=
  s.table ++ "#" ++ toString s.id ++ "." ++ label

def guard (s : TableSite) (label : String) : Rvalue := .guard s.id label (s.guardName label)

def guardNames (s : TableSite) : List String := s.labels.map s.guardName

end TableSite

/-- Operations, the edges after them, and the error location reached there, if any. -/
structure FlowBlock where
  id : BlockId
  label : String
  ops : List Op
  edges : List Edge
  predecessors : List BlockId
  target : Option Target

def FlowBlock.isExit (b : FlowBlock) : Bool := b.edges.isEmpty && b.target.isNone

/-- The flow graph of a control. -/
structure FlowGraph where
  name : String
  blocks : List FlowBlock
  entry : BlockId
  targets : List Target
  /-- The error locations whose blocks were pruned. -/
  deadTargets : List Target
  sites : List TableSite
  inputs : List Variable
  /-- The number of blocks that were pruned. -/
  pruned : Nat

namespace FlowGraph

/-- A graph of unguarded edges between empty blocks, with error locations in some of them. -/
def ofEdges (name : String) (blocks : List BlockId) (edges : List (BlockId × BlockId))
    (entry : BlockId) (targets : List BlockId) : FlowGraph :=
  let targets : List Target :=
    targets.zipIdx.map fun (block, i) => ⟨name, i, .bug, block, "", none, []⟩
  { name, entry, targets
    blocks := blocks.eraseDups.map fun i => {
      id := i
      label := ""
      ops := []
      edges := (edges.filter (·.1 == i)).map fun e => ⟨e.2, .fallthrough, none⟩
      predecessors := (edges.filter (·.2 == i)).map Prod.fst
      target := targets.find? fun t => t.block == i }
    deadTargets := []
    sites := []
    inputs := []
    pruned := 0 }

variable (g : FlowGraph) (i : BlockId)

def block? : Option FlowBlock := g.blocks.find? fun b => b.id == i

def ids : List BlockId := g.blocks.map FlowBlock.id

/-- Whatever the graph refers to is one of its blocks. -/
def isClosed : Bool :=
  (g.entry :: g.targets.map Target.block ++
    g.blocks.flatMap fun b => b.edges.map Edge.target ++ b.predecessors).all
    fun i => (g.block? i).isSome

def edgesOf : List Edge :=
  ((g.block? i).map FlowBlock.edges).getD []

def successors : List BlockId := (g.edgesOf i).map Edge.target

def predecessors (g : FlowGraph) (i : BlockId) : List BlockId :=
  (((g.block? i).map FlowBlock.predecessors).getD []).filter fun j => (g.block? j).isSome

def edgeCount : Nat := (g.blocks.flatMap FlowBlock.edges).length

def reachable (g : FlowGraph) : List BlockId :=
  Search.reachable g.successors g.blocks.length g.entry

def reaching : List BlockId :=
  if (g.block? i).isSome then Search.reachable g.predecessors g.blocks.length i else []

/-- The edges that close a cycle in a search from the entry. -/
def backEdges : List (BlockId × BlockId) :=
  (Search.explore g.successors g.blocks.length [g.entry]).loops.map fun l => (l.source, l.target)

/-- The blocks reachable from the entry inside `within`, predecessors first. -/
def topological (within : List BlockId) : List BlockId :=
  if g.entry ∈ within then
    (Search.explore (fun i => (g.successors i).filter (· ∈ within)) g.blocks.length [g.entry]).done
  else []

/-- The blocks at which executions end without an error. -/
def exits : List BlockId :=
  Order.sortInts ((g.blocks.filter FlowBlock.isExit).map FlowBlock.id)

def site? (i : Nat) : Option TableSite := g.sites.find? fun s => s.id == i

def sitesIn (within : List BlockId) : List TableSite :=
  let used := (g.blocks.filter fun b => b.id ∈ within).flatMap fun b =>
    b.edges.filterMap fun e => e.guard.bind Rvalue.site?
  (Order.sortNats used.eraseDups).filterMap g.site?

/-- The variables of a graph: inputs, targets of operations, and what is observed; by number. -/
def allVariables : List Variable :=
  let stored := g.blocks.flatMap fun b => b.ops.filterMap Op.target?
  let observed := (g.targets ++ g.deadTargets).flatMap fun t => t.observed.map Prod.snd
  let all := g.inputs ++ stored ++ observed
  let distinct := all.foldl (fun kept v => if kept.any (·.uid == v.uid) then kept else v :: kept) []
  Order.sort (fun a b => decide (a.uid ≤ b.uid)) distinct

def prune (targets : List Target) : FlowGraph :=
  let live := g.reachable
  { g with
    blocks := (g.blocks.filter fun b => b.id ∈ live).map fun b =>
      { b with predecessors := b.predecessors.filter (· ∈ live) }
    targets := targets.filter fun t => t.block ∈ live
    deadTargets := targets.filter fun t => t.block ∉ live
    pruned := (g.blocks.filter fun b => b.id ∉ live).length }

end FlowGraph

end ControlReach
