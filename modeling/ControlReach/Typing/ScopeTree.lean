import ControlReach.Typing.Global

/-!
# Trees of scopes

A session in which scopes are opened, filled and closed. What is declared in a scope is seen by
every scope opened inside it, whenever that was. A frozen scope takes no more names.
-/

namespace ControlReach

/-- A frame, the scope around it, and, for an outermost scope, its invalid types. -/
structure ScopeNode where
  frame : Frame
  parent : Option Nat
  invalid : List (String × Diagnostic)

/-- Scopes that are opened inside each other. -/
structure ScopeTree where
  nodes : List ScopeNode
  nextUid : Nat

/-- Why a name cannot be declared. -/
inductive DeclareFault where
  | frozen (name : String) (kind : FrameKind)
  | rejected (why : Diagnostic)

def DeclareFault.message : DeclareFault → String
  | .frozen x kind => "cannot declare '" ++ x ++ "' in a frozen " ++ kind.text ++ " scope"
  | .rejected why => why.message

/-- What a top-level declaration declares before anything is elaborated. -/
def Binding.ofDeclaration? : Declaration → Option (String × Binding)
  | .struct d => some (d.name, .type (some (.struct (some d.name) [])))
  | .typedef d => some (d.name, .type none)
  | .control d => some (d.name, .control d)
  | .constant d => some (d.name, .constant none)
  | .inst d => some (d.name, .inst none)
  | .other _ _ => none

def Binding.ofLocal? (s : Scope) : Local → Option (String × Binding × Option Location)
  | .action d => some (d.name, .action d (s.qualified d.name), d.loc)
  | .table d => some (d.name, .table d (s.qualified d.name), d.loc)
  | _ => none

namespace ScopeTree

def ofGlobals (g : GlobalScope) : ScopeTree := ⟨[⟨g.scope.inner, none, g.scope.invalid⟩], 0⟩

/-- The frames around a scope, and the types invalid in the outermost of them. -/
def around (nodes : List ScopeNode) : Nat → ScopeNode → List Frame × List (String × Diagnostic)
  | 0, n => ([], n.invalid)
  | fuel + 1, n =>
    match n.parent.bind fun i => nodes[i]? with
    | none => ([], n.invalid)
    | some p =>
      let (frames, invalid) := around nodes fuel p
      (p.frame :: frames, invalid)

variable (t : ScopeTree)

def scope? (i : Nat) : Option Scope :=
  t.nodes[i]?.map fun n =>
    let (outer, invalid) := around t.nodes t.nodes.length n
    ⟨n.frame, outer, invalid⟩

def size : Nat := t.nodes.length

/-- The scope that a number names; a negative one counts from the last scope. -/
def index? (i : Int) : Option Nat :=
  let j := if i < 0 then i + t.size else i
  if 0 ≤ j && j < t.size then some j.toNat else none

def addRoot : ScopeTree :=
  { t with nodes := t.nodes ++ [⟨Frame.empty .global "", none, []⟩] }

def addChild (i : Nat) (kind : FrameKind) (name : String) : ScopeTree :=
  { t with nodes := t.nodes ++ [⟨Frame.empty kind name, some i, []⟩] }

def setFrame (i : Nat) (f : Frame) : ScopeTree :=
  { t with nodes := t.nodes.modify i fun n => { n with frame := f } }

def freeze (i : Nat) : ScopeTree :=
  { t with nodes := t.nodes.modify i fun n => { n with frame := { n.frame with frozen := true } } }

def declare (t : ScopeTree) (i : Nat) (x : String) (b : Binding) (loc : Option Location) :
    Except DeclareFault ScopeTree :=
  match t.nodes[i]? with
  | none => .ok t
  | some n =>
    if n.frame.frozen then .error (.frozen x n.frame.kind)
    else
      match n.frame.declare x b loc with
      | .ok f => .ok (t.setFrame i f)
      | .error why => .error (.rejected why)

/-- Make a variable; it takes its number for good. -/
def newVariable (x : String) (ty : Ty) (readOnly : Bool) (display : String) :
    Variable × ScopeTree :=
  (⟨t.nextUid, x, ty, .ordinary, .data, readOnly, if display = "" then x else display⟩,
    { t with nextUid := t.nextUid + 1 })

end ScopeTree

end ControlReach
