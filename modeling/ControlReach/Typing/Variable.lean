import ControlReach.Syntax.Program
import ControlReach.Typing.Ty

/-!
# Variables

A parameter, a local variable, or the formal parameter of one inlined body. Two inlinings of one
action have variables of their own, so a variable is identified by its number and not by its name.
-/

namespace ControlReach

/-- How a variable came about. -/
inductive Role where
  | ordinary
  | parameter
  deriving DecidableEq, Repr

def Role.text : Role → String
  | .ordinary => "local"
  | .parameter => "param"

/-- A storage location. -/
structure Variable where
  uid : Nat
  name : String
  ty : Ty
  role : Role
  direction : Direction
  readOnly : Bool
  /-- The name under which values are reported. -/
  display : String

def Variable.text (v : Variable) : String :=
  "Variable(" ++ v.display ++ "#" ++ toString v.uid ++ ": " ++ v.ty.text ++ ")"

end ControlReach
