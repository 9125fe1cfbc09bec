import ControlReach.Typing.Variable

/-!
# Right-hand sides

Expressions after name resolution, so that a value needs nothing but a store. The guard of a table
application is true when the application selects the guard's label.
-/

namespace ControlReach

/-- An expression over variables. -/
inductive Rvalue where
  | bool (value : Bool)
  | text (value : String)
  | read (v : Variable)
  | field (base : Rvalue) (name : String)
  | struct (fields : List (String × Rvalue))
  | not (operand : Rvalue)
  | and (left right : Rvalue)
  | or (left right : Rvalue)
  | equal (negated : Bool) (left right : Rvalue)
  | guard (site : Nat) (label name : String)
  deriving Inhabited

namespace Rvalue

mutual

def render : Rvalue → String
  | .bool value => if value then "true" else "false"
  | .text value => "\"" ++ value ++ "\""
  | .read v => v.display
  | .field base name => render base ++ "." ++ name
  | .struct fields => "\x7b " ++ Text.commaList (renderFields fields) ++ " \x7d"
  | .not operand => "!" ++ render operand
  | .and left right => "(" ++ render left ++ " && " ++ render right ++ ")"
  | .or left right => "(" ++ render left ++ " || " ++ render right ++ ")"
  | .equal negated left right =>
    "(" ++ render left ++ " " ++ Expr.equalityOperator negated ++ " " ++ render right ++ ")"
  | .guard _ _ name => name

def renderFields : List (String × Rvalue) → List String
  | [] => []
  | (name, value) :: rest => (name ++ " = " ++ render value) :: renderFields rest

end

def site? : Rvalue → Option Nat
  | .guard site _ _ => some site
  | _ => none

end Rvalue

end ControlReach
