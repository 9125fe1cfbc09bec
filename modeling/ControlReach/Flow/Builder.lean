import ControlReach.Calls.Graph
import ControlReach.Flow.Graph
import ControlReach.Typing.Check

/-!
# Building flow graphs

A step that fails leaves in place what it has built so far; the failure is recorded at the statement
in which it arose, and the construction goes on after that statement.
-/

namespace ControlReach

/-- An action that no call has reached yet. -/
structure PendingAction where
  decl : ActionDecl
  qualified : String
  home : Scope

/-- A graph under construction. -/
structure Build where
  /-- The blocks so far; a block's number is its place. -/
  blocks : List FlowBlock
  /-- The block to which operations are added. -/
  current : Nat
  targets : List Target
  sites : List TableSite
  inputs : List Variable
  errors : List Diagnostic
  nextUid : Nat
  nextFresh : Nat
  inlined : List String
  /-- The actions declared so far that have not been looked at. -/
  pending : List PendingAction

/-- What a construction is about. -/
structure Context where
  control : String
  recursive : List String
  cycle : String → List String
  /-- The callables whose bodies are being inlined, the outermost first. -/
  stack : List String

/-- The name under which the values of a variable are reported. -/
def Context.display (ctx : Context) (x : String) : String :=
  match ctx.stack.getLast? with
  | some q => q ++ "." ++ x
  | none => x

/-- The cycle that a call of `q` would close, if it is recursive. -/
def Context.recursion? (ctx : Context) (q : String) : Option (List String) :=
  if q ∈ ctx.recursive then
    match ctx.cycle q with
    | [] => some [q]
    | cycle => some cycle
  else if q ∈ ctx.stack then some (ctx.stack ++ [q])
  else none

/-- A step of a construction. -/
abbrev Builder (α : Type) := ExceptT Diagnostic (StateM Build) α

namespace Builder

variable {α : Type}

def fail (cause : Cause) (loc : Option Location) : Builder α := throw (Diagnostic.of cause loc)

def check (r : Checked α) : Builder α := ExceptT.mk (pure r)

/-- Run a step; if it fails, record why and go on with `default`. -/
def recorded (default : α) (step : Builder α) : Builder α :=
  ExceptT.mk fun st =>
    match step.run st with
    | (.ok a, st) => (.ok a, st)
    | (.error why, st) => (.ok default, { st with errors := st.errors ++ [why] })

def newBlock (label : String) : Builder Nat := do
  let st : Build ← get
  let block : FlowBlock := ⟨st.blocks.length, label, [], [], [], none⟩
  set { st with blocks := st.blocks ++ [block] }
  return st.blocks.length

def modifyBlock (i : Nat) (f : FlowBlock → FlowBlock) : Builder Unit :=
  modify fun st => { st with blocks := st.blocks.modify i f }

def setCurrent (i : Nat) : Builder Unit := modify fun st => { st with current := i }

def current : Builder Nat := return (← get).current

def connect (source target : Nat) (kind : EdgeKind) (guard : Option Rvalue) : Builder Unit := do
  modifyBlock source fun b => { b with edges := b.edges ++ [⟨target, kind, guard⟩] }
  modifyBlock target fun b => { b with predecessors := b.predecessors ++ [(source : Int)] }

def emit (op : Op) : Builder Unit := do
  modifyBlock (← current) fun b => { b with ops := b.ops ++ [op] }

def newVariable (x : String) (ty : Ty) (role : Role) (direction : Direction) (readOnly : Bool)
    (display : String) : Builder Variable := do
  let st : Build ← get
  set { st with nextUid := st.nextUid + 1 }
  return ⟨st.nextUid, x, ty, role, direction, readOnly, if display = "" then x else display⟩

def havoc (v : Variable) (loc : Option Location) : Builder Unit := do
  let st : Build ← get
  set { st with nextFresh := st.nextFresh + 1 }
  emit (.havoc v st.nextFresh loc)

def newSite (table : String) (loc : Option Location) : Builder Nat := do
  let st : Build ← get
  let site : TableSite := ⟨st.sites.length, table, [], loc⟩
  set { st with sites := st.sites ++ [site] }
  return site.id

def addLabel (site : Nat) (label : String) : Builder Unit :=
  modify fun st =>
    { st with sites := st.sites.modify site fun s => { s with labels := s.labels ++ [label] } }

def keepActions (s : Scope) : Builder Unit :=
  modify fun st =>
    let actions := s.inner.symbols.filterMap fun
      | (_, .action d q) => some ⟨d, q, s⟩
      | _ => none
    { st with pending := st.pending ++ actions }

/-- Start to inline a body, unless that would never end. -/
def enterBody (ctx : Context) (q : String) (loc : Option Location) : Builder Context := do
  match ctx.recursion? q with
  | some cycle => fail (.recursion cycle) loc
  | none =>
    modify fun st => { st with inlined := if q ∈ st.inlined then st.inlined else q :: st.inlined }
    return { ctx with stack := ctx.stack ++ [q] }

end Builder

end ControlReach
