import ControlReach.Syntax.Expr

/-!
# Programs

A program is an ordered list of declarations; a control carries its parameters, its local
declarations and one body. What is not a statement or declaration is kept by the name of what
stands there.
-/

namespace ControlReach

/-- How a parameter passes its value; a parameter without direction is data of an action. -/
inductive Direction where
  | input
  | output
  | inout
  | data
  deriving DecidableEq, Repr

namespace Direction

def text : Direction → String
  | .input => "in"
  | .output => "out"
  | .inout => "inout"
  | .data => ""

def ofText? : String → Option Direction
  | "in" => some .input
  | "out" => some .output
  | "inout" => some .inout
  | "" => some .data
  | _ => none

/-- A parameter of this direction cannot be assigned to. -/
def readOnly : Direction → Bool
  | .input | .data => true
  | .output | .inout => false

end Direction

/-- A variable, with its initial value if it has one. -/
structure VariableDecl where
  type : TypeRef
  name : String
  initial : Option Expr
  loc : Option Location

/-- A constant. -/
structure ConstantDecl where
  type : TypeRef
  name : String
  value : Expr
  loc : Option Location

mutual

/-- A statement. -/
inductive Stmt where
  | block (body : Block)
  | branch (condition : Expr) (thenBlock : Block) (elseBlock : Option Block)
      (loc : Option Location)
  | assign (target value : Expr) (loc : Option Location)
  | call (callee : Expr) (args : List Argument) (callLoc loc : Option Location)
  | variable (decl : VariableDecl)
  | constant (decl : ConstantDecl)
  | other (typeName : String) (loc : Option Location)

/-- A sequence of statements with a scope of its own. -/
inductive Block where
  | mk (statements : List Stmt) (loc : Option Location)

end

def Block.statements : Block → List Stmt
  | .mk statements _ => statements

/-- A field of a struct. -/
structure StructField where
  type : TypeRef
  name : String
  loc : Option Location

/-- A struct. -/
structure StructDecl where
  name : String
  fields : List StructField
  loc : Option Location

/-- Another name for a type. -/
structure TypedefDecl where
  type : TypeRef
  name : String
  loc : Option Location

/-- A parameter of an action or a control. -/
structure Parameter where
  direction : Direction
  type : TypeRef
  name : String
  loc : Option Location

/-- An instance of a control, with constructor arguments. -/
structure Instantiation where
  typeName : String
  name : String
  args : List Argument
  loc : Option Location

/-- An action, which tables and statements call. -/
structure ActionDecl where
  name : String
  params : List Parameter
  body : Block
  loc : Option Location

/-- A key of a table; how it is matched does not matter to the analysis. -/
structure KeyElement where
  expr : Expr
  matchKind : String
  loc : Option Location

/-- An action in the list of a table, with arguments. -/
structure ActionRef where
  name : String
  args : List Argument
  loc : Option Location

/-- A table, which chooses one of its actions or misses. -/
structure TableDecl where
  name : String
  keys : List KeyElement
  actions : List ActionRef
  defaultAction : Option ActionRef
  loc : Option Location

/-- A declaration in a control. -/
inductive Local where
  | variable (decl : VariableDecl)
  | constant (decl : ConstantDecl)
  | inst (decl : Instantiation)
  | action (decl : ActionDecl)
  | table (decl : TableDecl)
  | other (typeName : String) (loc : Option Location)

/-- A control. -/
structure ControlDecl where
  name : String
  params : List Parameter
  locals : List Local
  body : Block
  loc : Option Location

/-- A top-level declaration. -/
inductive Declaration where
  | struct (decl : StructDecl)
  | typedef (decl : TypedefDecl)
  | control (decl : ControlDecl)
  | constant (decl : ConstantDecl)
  | inst (decl : Instantiation)
  | other (typeName : String) (loc : Option Location)

/-- The declarations of a program, and where it was read. -/
structure Program where
  declarations : List Declaration
  source : String

def Declaration.control? : Declaration → Option ControlDecl
  | .control decl => some decl
  | _ => none

def Program.controls (p : Program) : List ControlDecl :=
  p.declarations.filterMap Declaration.control?

end ControlReach
