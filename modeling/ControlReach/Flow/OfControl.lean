import ControlReach.Flow.Elaborate
import ControlReach.Typing.Global

/-!
# The flow graph of a control

The parameters of the control become inputs, its locals are declared, and its body is elaborated.
Actions that the body never calls are elaborated too, so that their faults are found; their blocks
are pruned with all others that the entry does not reach.
-/

namespace ControlReach

namespace Elaborate

open Builder

def bindInputs : Scope → List Parameter → Builder Scope
  | s, [] => return s
  | s, p :: rest => do
    let bound ← recorded none do
      let ty ← check (s.resolveType p.type)
      let v ← newVariable p.name ty .parameter p.direction p.direction.readOnly ""
      return some (v, ← check (s.declare p.name (.variable v) p.loc))
    match bound with
    | none => bindInputs s rest
    | some (v, s) => do
      modify fun st => { st with inputs := st.inputs ++ [v] }
      havoc v p.loc
      bindInputs s rest

/-- Elaborate an action in a block of its own, unless it has been inlined somewhere. -/
def detached (depth : Nat) (ctx : Context) (action : PendingAction) : Builder Unit := do
  let st : Build ← get
  if action.qualified ∈ st.inlined then return ()
  setCurrent (← newBlock ("detached " ++ action.qualified))
  recorded () (inlineAction (call depth) ctx action [] action.home action.decl.loc .all)

/-- Elaborate the pending actions, then those that became pending meanwhile, round by round. -/
def drain (depth : Nat) (ctx : Context) : Nat → Builder Unit
  | 0 => return ()
  | rounds + 1 => do
    let st : Build ← get
    set { st with pending := [] }
    st.pending.forM (detached depth ctx)
    drain depth ctx rounds

def control (depth : Nat) (ctx : Context) (globals : Scope) (c : ControlDecl) : Builder Unit := do
  let s ← bindInputs (globals.enter .control c.name) c.params
  let s ← declareLocals ctx s c.locals
  block (call depth) ctx s c.body
  drain depth ctx depth

end Elaborate

def Frame.controls (f : Frame) : List ControlDecl :=
  f.symbols.filterMap fun
    | (_, .control d) => some d
    | _ => none

/-- The number of names under which bodies can be inlined, plus two. -/
def inlineBound (globals : Scope) : Nat :=
  let controls := globals.inner.controls
  controls.length + (controls.flatMap ControlDecl.locals).length + 2

def Context.initial (calls : Option CallGraph) (c : ControlDecl) : Context :=
  match calls with
  | some g => ⟨c.name, g.recursive, g.cycleThrough, []⟩
  | none => ⟨c.name, [], fun _ => [], []⟩

def Build.initial : Build :=
  { blocks := [⟨0, "entry", [], [], [], none⟩], current := 0, targets := [], sites := [],
    inputs := [], errors := [], nextUid := 0, nextFresh := 0, inlined := [], pending := [] }

/-- The graph that a finished construction describes. -/
def Build.graph (st : Build) (name : String) : FlowGraph :=
  let g : FlowGraph := ⟨name, st.blocks, 0, [], [], st.sites, st.inputs, 0⟩
  g.prune st.targets

/-- The flow graph of a control, and every rejection met while building it. -/
def FlowGraph.ofControl (globals : Scope) (calls : Option CallGraph) (c : ControlDecl) :
    FlowGraph × List Diagnostic :=
  let step := Elaborate.control (inlineBound globals) (Context.initial calls c) globals c
  let (result, st) := step.run Build.initial
  let g := st.graph c.name
  let failure := match result with
    | .ok () => []
    | .error why => [why]
  let cyclic := if g.backEdges.isEmpty then [] else [Diagnostic.of (.cyclicGraph c.name) c.loc]
  (g, Diagnostic.distinct ((st.errors ++ failure ++ cyclic).map (Diagnostic.within c.name)))

end ControlReach
