import ControlReach.Flow.Rvalue
import ControlReach.Typing.Diagnostic

/-!
# Scopes

Frames are nested: blocks in actions, actions in controls, controls in the global frame. Look-up
also gives the scope in which the name is declared, which is where the body of an action or a table
is to be read.
-/

namespace ControlReach

/-- What a name stands for. A type or constant whose elaboration failed has no type. -/
inductive Binding where
  | variable (v : Variable)
  | type (ty : Option Ty)
  | constant (known : Option (Ty × Rvalue))
  | control (decl : ControlDecl)
  | action (decl : ActionDecl) (qualified : String)
  | table (decl : TableDecl) (qualified : String)
  | inst (control : Option ControlDecl)

def Binding.kind : Binding → BindingKind
  | .variable _ => .variable
  | .type _ => .type
  | .constant _ => .constant
  | .control _ => .control
  | .action _ _ => .action
  | .table _ _ => .table
  | .inst _ => .inst

/-- What a frame of a scope belongs to. -/
inductive FrameKind where
  | global
  | control
  | action
  | block
  | other (name : String)
  deriving DecidableEq, Repr

namespace FrameKind

def text : FrameKind → String
  | .global => "global"
  | .control => "control"
  | .action => "action"
  | .block => "block"
  | .other name => name

def ofText : String → FrameKind
  | "global" => .global
  | "control" => .control
  | "action" => .action
  | "block" => .block
  | name => .other name

/-- Frames of this kind lend their name to what is declared in them. -/
def isCallable : FrameKind → Bool
  | .control | .action => true
  | _ => false

end FrameKind

/-- The names declared in one place, in declaration order. -/
structure Frame where
  kind : FrameKind
  name : String
  symbols : List (String × Binding)
  frozen : Bool

namespace Frame

def empty (kind : FrameKind) (name : String) : Frame := ⟨kind, name, [], false⟩

def lookup (f : Frame) (x : String) : Option Binding := f.symbols.lookup x

def declare (f : Frame) (x : String) (b : Binding) (loc : Option Location) : Checked Frame :=
  match f.lookup x with
  | some previous => reject (.declaredTwice x previous.kind) loc
  | none => .ok { f with symbols := f.symbols ++ [(x, b)] }

def update (f : Frame) (x : String) (b : Binding) : Frame :=
  { f with symbols := f.symbols.map fun p => if p.1 = x then (x, b) else p }

end Frame

/-- A frame with the frames around it, and the types that are invalid in all of them. -/
structure Scope where
  inner : Frame
  outer : List Frame
  invalid : List (String × Diagnostic)

namespace Scope

variable (s : Scope)

def frames : List Frame := s.inner :: s.outer

def findFrom (x : String) (inner : Frame) : List Frame → Option (Binding × Frame × List Frame)
  | [] => (inner.lookup x).map fun b => (b, inner, [])
  | f :: rest =>
    match inner.lookup x with
    | some b => some (b, inner, f :: rest)
    | none => findFrom x f rest

variable (x : String)

def find? : Option (Binding × Scope) :=
  (findFrom x s.inner s.outer).map fun (b, inner, outer) => (b, ⟨inner, outer, s.invalid⟩)

def lookup : Option Binding := (s.find? x).map Prod.fst

/-- What a name stands for, with the scope that declares it; the name has to be declared. -/
def resolveWith (loc : Option Location) : Checked (Binding × Scope) :=
  match s.find? x with
  | some found => .ok found
  | none => reject (.undeclared x) loc

def resolve (loc : Option Location) : Checked Binding :=
  (s.resolveWith x loc).map Prod.fst

def rootFrame : Frame → List Frame → Frame
  | inner, [] => inner
  | _, f :: rest => rootFrame f rest

def root : Scope := ⟨rootFrame s.inner s.outer, [], s.invalid⟩

def enter (kind : FrameKind) (name : String) : Scope :=
  ⟨Frame.empty kind name, s.frames, s.invalid⟩

def declare (s : Scope) (x : String) (b : Binding) (loc : Option Location) : Checked Scope :=
  (s.inner.declare x b loc).map fun f => { s with inner := f }

/-- A name with the names of the controls and actions around it. -/
def qualified : String :=
  let around := s.frames.filter fun f => f.kind.isCallable && f.name != ""
  Text.join "." ((around.map Frame.name).reverse ++ [x])

/-- Add the variables of a frame; a name that is declared again moves to its new place. -/
def addVisible (seen : List (String × Variable)) :
    List (String × Binding) → List (String × Variable)
  | [] => seen
  | (x, .variable v) :: rest => addVisible (seen.filter (fun p => p.1 != x) ++ [(x, v)]) rest
  | _ :: rest => addVisible seen rest

/-- The variables in scope, from the outermost frame inwards, each name once. -/
def visible : List (String × Variable) :=
  s.frames.foldr (fun f seen => addVisible seen f.symbols) []

end Scope

end ControlReach
