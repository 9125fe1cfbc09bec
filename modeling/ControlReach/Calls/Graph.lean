import ControlReach.Assoc
import ControlReach.Calls.Components
import ControlReach.Order
import ControlReach.Search
import ControlReach.Syntax.Location

/-!
# Call graphs

An edge says that the body of one control, action or table may invoke another. Bodies are inlined,
so whatever lies on a cycle has to be rejected.
-/

namespace ControlReach

/-- What a node of a call graph is. -/
inductive CallableKind where
  | control
  | action
  | table
  deriving DecidableEq, Repr

def CallableKind.text : CallableKind → String
  | .control => "control"
  | .action => "action"
  | .table => "table"

def CallableKind.ofText? : String → Option CallableKind
  | "control" => some .control
  | "action" => some .action
  | "table" => some .table
  | _ => none

/-- A call in the body of a node. -/
structure CallSite where
  caller : String
  callee : String
  loc : Option Location
  deriving DecidableEq

/-- A control or an action, with the calls in its body. -/
structure Callable where
  name : String
  kind : CallableKind
  loc : Option Location
  calls : List CallSite
  deriving DecidableEq

/-- A call graph. Each edge is kept twice, with its caller and with its callee; it may join nodes
that are not functions of the graph. -/
structure CallGraph where
  functions : List (String × Callable)
  /-- The nodes that each node calls. -/
  successors : List (String × List String)
  /-- The nodes that each node is called by. -/
  predecessors : List (String × List String)
  deriving DecidableEq

namespace CallGraph

def empty : CallGraph := ⟨[], [], []⟩

variable (g : CallGraph)

/-- Add a node; a node of the same name is replaced in its place, and keeps its edges. -/
def addFunction (name : String) (kind : CallableKind) (loc : Option Location) : CallGraph :=
  { functions := Assoc.set name ⟨name, kind, loc, []⟩ g.functions
    successors := Assoc.setNew name [] g.successors
    predecessors := Assoc.setNew name [] g.predecessors }

def noteCall (c : CallSite) (p : String × Callable) : String × Callable :=
  if p.1 = c.caller then (p.1, { p.2 with calls := p.2.calls ++ [c] }) else p

/-- The set of a node. -/
def setOf (sets : List (String × List String)) (f : String) : List String := (sets.lookup f).getD []

/-- Put a member into the set of a node. -/
def addTo (f member : String) (sets : List (String × List String)) : List (String × List String) :=
  if member ∈ setOf sets f then sets else Assoc.set f (setOf sets f ++ [member]) sets

def addEdge (caller callee : String) (loc : Option Location) : CallGraph :=
  { functions := g.functions.map (noteCall ⟨caller, callee, loc⟩)
    successors := addTo caller callee g.successors
    predecessors := addTo callee caller g.predecessors }

def names : List String := g.functions.map Prod.fst

variable (f : String)

def isFunction : Bool := (g.functions.lookup f).isSome

def callees : List String := Order.sortTexts (setOf g.successors f)

def callers : List String := Order.sortTexts (setOf g.predecessors f)

def callerNames : List String := g.successors.map Prod.fst

def calleeNames : List String := g.predecessors.map Prod.fst

/-- The edges, as pairs of caller and callee. -/
def edges : List (String × String) :=
  g.callerNames.flatMap fun f => (setOf g.successors f).map fun h => (f, h)

theorem mem_edges {g : CallGraph} {f h : String} : (f, h) ∈ g.edges ↔ h ∈ setOf g.successors f := by
  simp only [edges, List.mem_flatMap, List.mem_map, Prod.mk.injEq]
  constructor
  · rintro ⟨_, -, _, hh, rfl, rfl⟩
    exact hh
  · intro hh
    refine ⟨f, ?_, h, hh, rfl, rfl⟩
    cases hf : g.successors.lookup f with
    | none => simp [setOf, hf] at hh
    | some l => exact List.mem_map_of_mem (Assoc.mem_of_lookup hf)

def inner : List String := (g.callees f).filter g.isFunction

/-- The neighbours of nodes, worked out beforehand. -/
structure Neighbours where
  table : Std.TreeMap String (List String)

def Neighbours.of (nodes : List String) (next : String → List String) : Neighbours :=
  ⟨nodes.foldl (fun t f => t.insert f (next f)) ∅⟩

def Neighbours.at (n : Neighbours) (f : String) : List String := n.table.getD f []

/-- The strongly connected components, each after those that it calls. -/
def components (g : CallGraph) : List (List String) :=
  let inner := Neighbours.of g.names g.inner
  let found := Tarjan.search inner.at g.names.length (Order.sortTexts g.names)
  found.components.map Order.sortTexts

def isCycle : List String → Bool
  | [f] => f ∈ g.callees f
  | members => members.length > 1

def recursive : List String := (g.components.filter g.isCycle).flatten

def bound : Nat := g.edges.length + 1

/-- A shortest cycle of calls from a node back to it; empty if there is none. -/
def cycleThrough : List String :=
  Search.shortestCycle (Neighbours.of g.callerNames g.callees).at g.bound f

def cycles : List (String × List String) :=
  let callees := Neighbours.of g.callerNames g.callees
  g.names.map fun f => (f, Search.shortestCycle callees.at g.bound f)

def reachableFrom (entries : List String) : List String :=
  let inner := Neighbours.of g.names g.inner
  (Search.explore inner.at g.names.length (entries.filter g.isFunction)).done

end CallGraph

end ControlReach
