import ControlReach.Calls.Graph
import ControlReach.Syntax.Program

/-!
# The call graph of a program

A callee is looked up among the locals of the control in which the call stands. A table may invoke
each action it lists and its default action.
-/

namespace ControlReach

def Expr.calleeName? : Expr → Option String
  | .var x _ => some x
  | .field (.var x _) "apply" _ => some x
  | _ => none

mutual

def Stmt.calls : Stmt → List (String × Option Location)
  | .block body => Block.calls body
  | .branch _ thenBlock elseBlock _ =>
    Block.calls thenBlock ++
      (match elseBlock with
        | some b => Block.calls b
        | none => [])
  | .call callee _ _ loc =>
    match callee.calleeName? with
    | some x => [(x, loc)]
    | none => []
  | _ => []

def Stmt.callsOf : List Stmt → List (String × Option Location)
  | [] => []
  | s :: rest => Stmt.calls s ++ Stmt.callsOf rest

def Block.calls : Block → List (String × Option Location)
  | .mk statements _ => Stmt.callsOf statements

end

namespace ControlDecl

def nodeName (c : ControlDecl) (x : String) : String := c.name ++ "." ++ x

/-- The nodes that local names stand for; the last declaration of a name counts. -/
def callTargets (controls : List String) (c : ControlDecl) : List (String × String) :=
  c.locals.foldl
    (fun targets l =>
      match l with
      | .action d => Assoc.set d.name (c.nodeName d.name) targets
      | .table d => Assoc.set d.name (c.nodeName d.name) targets
      | .inst d => if d.typeName ∈ controls then Assoc.set d.name d.typeName targets else targets
      | _ => targets)
    []

def addNodes (g : CallGraph) (c : ControlDecl) : CallGraph :=
  c.locals.foldl
    (fun g l =>
      match l with
      | .action d => g.addFunction (c.nodeName d.name) .action d.loc
      | .table d => g.addFunction (c.nodeName d.name) .table d.loc
      | _ => g)
    (g.addFunction c.name .control c.loc)

def addCalls (targets : List (String × String)) (caller : String) (g : CallGraph)
    (calls : List (String × Option Location)) : CallGraph :=
  calls.foldl
    (fun g call =>
      match targets.lookup call.1 with
      | some callee => g.addEdge caller callee call.2
      | none => g)
    g

def tableCalls (d : TableDecl) : List (String × Option Location) :=
  (d.actions ++ d.defaultAction.toList).map fun ref => (ref.name, ref.loc)

def addEdges (controls : List String) (g : CallGraph) (c : ControlDecl) : CallGraph :=
  let targets := c.callTargets controls
  let g := c.locals.foldl
    (fun g l =>
      match l with
      | .action d => addCalls targets (c.nodeName d.name) g d.body.calls
      | .table d => addCalls targets (c.nodeName d.name) g (tableCalls d)
      | _ => g)
    g
  addCalls targets c.name g c.body.calls

end ControlDecl

def Program.callGraph (p : Program) : CallGraph :=
  let nodes := p.controls.foldl ControlDecl.addNodes CallGraph.empty
  p.controls.foldl (ControlDecl.addEdges (p.controls.map ControlDecl.name)) nodes

end ControlReach
