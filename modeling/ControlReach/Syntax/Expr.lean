import ControlReach.Syntax.Location
import ControlReach.Text.Quoted

/-!
# Expressions

A part of a document that is not an expression is kept as `Expr.other` with the name of what stands
there, so that it is refused when it is typed and not before.
-/

namespace ControlReach

/-- A type as it is written. -/
inductive TypeRef where
  | bool (loc : Option Location)
  | string (loc : Option Location)
  | named (name : String) (loc : Option Location)
  | other (typeName : String)
  deriving DecidableEq, Repr

mutual

/-- An expression; nodes of another kind are kept by name. -/
inductive Expr where
  | bool (value : Bool) (loc : Option Location)
  | text (value : String) (loc : Option Location)
  | var (name : String) (loc : Option Location)
  | paren (inner : Expr) (loc : Option Location)
  | field (target : Expr) (name : String) (loc : Option Location)
  | struct (fields : List (String × Expr)) (loc : Option Location)
  | not (operand : Expr) (loc : Option Location)
  | and (left right : Expr) (loc : Option Location)
  | or (left right : Expr) (loc : Option Location)
  | equal (negated : Bool) (left right : Expr) (loc : Option Location)
  | call (callee : Expr) (args : List Argument) (loc : Option Location)
  | other (typeName : String) (loc : Option Location)

/-- An argument of a call: a value, or `_` for any value; either may name its parameter. -/
inductive Argument where
  | given (value : Expr) (name : Option String) (loc : Option Location)
  | any (name : Option String) (loc : Option Location)

end

instance : Inhabited Expr := ⟨.other "" none⟩

def Argument.name : Argument → Option String
  | .given _ name _ => name
  | .any name _ => name

def Argument.loc : Argument → Option Location
  | .given _ _ loc => loc
  | .any _ loc => loc

namespace Expr

def loc : Expr → Option Location
  | .bool _ loc | .text _ loc | .var _ loc | .paren _ loc | .field _ _ loc | .struct _ loc
  | .not _ loc | .and _ _ loc | .or _ _ loc | .equal _ _ _ loc | .call _ _ loc | .other _ loc => loc

def isStruct : Expr → Bool
  | .paren inner _ => inner.isStruct
  | .struct _ _ => true
  | _ => false

def equalityOperator (negated : Bool) : String := if negated then "!=" else "=="

mutual

def describe : Expr → String
  | .bool value _ => if value then "true" else "false"
  | .text value _ => "\"" ++ value ++ "\""
  | .var x _ => x
  | .paren inner _ => "(" ++ describe inner ++ ")"
  | .field target f _ => describe target ++ "." ++ f
  | .struct fields _ => "\x7b " ++ Text.commaList (describeFields fields) ++ " \x7d"
  | .not operand _ => "!" ++ describe operand
  | .and left right _ => describe left ++ " && " ++ describe right
  | .or left right _ => describe left ++ " || " ++ describe right
  | .equal negated left right _ =>
    describe left ++ " " ++ equalityOperator negated ++ " " ++ describe right
  | .call callee args _ => describe callee ++ "(" ++ Text.commaList (describeArguments args) ++ ")"
  | .other typeName _ => typeName

def describeFields : List (String × Expr) → List String
  | [] => []
  | (f, value) :: rest => (f ++ " = " ++ describe value) :: describeFields rest

def describeArguments : List Argument → List String
  | [] => []
  | .given value _ _ :: rest => describe value :: describeArguments rest
  | .any _ _ :: rest => "_" :: describeArguments rest

end

end Expr

end ControlReach
