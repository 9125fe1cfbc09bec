/-!
# The node kinds of program documents

The kind of a node fixes which fields it has, in which order they are listed, and what stands for a
field that is left out.
-/

namespace ControlReach.Document

/-- The kinds of nodes of a program document. -/
inductive Kind where
  | boolTypeRef
  | stringTypeRef
  | namedTypeRef
  | boolLiteral
  | stringLiteral
  | varRef
  | paren
  | fieldAccess
  | structLiteral
  | not
  | and
  | or
  | equal
  | notEqual
  | argument
  | call
  | blockStatement
  | ifStatement
  | assignment
  | callStatement
  | structField
  | structDeclaration
  | typedefDeclaration
  | parameter
  | variableDeclaration
  | constantDeclaration
  | instantiation
  | actionDeclaration
  | keyElement
  | actionRef
  | tableDeclaration
  | controlDeclaration
  | program
  deriving DecidableEq, Repr

/-- What stands for a field that is left out; a required field may not be. -/
inductive Default where
  | required
  | absent
  | emptyList
  | emptyBlock
  | text (s : String)
  deriving DecidableEq, Repr

namespace Kind

def name : Kind → String
  | .boolTypeRef => "BoolTypeRef"
  | .stringTypeRef => "StringTypeRef"
  | .namedTypeRef => "NamedTypeRef"
  | .boolLiteral => "BoolLiteral"
  | .stringLiteral => "StringLiteral"
  | .varRef => "VarRef"
  | .paren => "Paren"
  | .fieldAccess => "FieldAccess"
  | .structLiteral => "StructLiteral"
  | .not => "Not"
  | .and => "And"
  | .or => "Or"
  | .equal => "Equal"
  | .notEqual => "NotEqual"
  | .argument => "Argument"
  | .call => "Call"
  | .blockStatement => "BlockStatement"
  | .ifStatement => "IfStatement"
  | .assignment => "Assignment"
  | .callStatement => "CallStatement"
  | .structField => "StructField"
  | .structDeclaration => "StructDeclaration"
  | .typedefDeclaration => "TypedefDeclaration"
  | .parameter => "Parameter"
  | .variableDeclaration => "VariableDeclaration"
  | .constantDeclaration => "ConstantDeclaration"
  | .instantiation => "Instantiation"
  | .actionDeclaration => "ActionDeclaration"
  | .keyElement => "KeyElement"
  | .actionRef => "ActionRef"
  | .tableDeclaration => "TableDeclaration"
  | .controlDeclaration => "ControlDeclaration"
  | .program => "Program"

def all : List Kind :=
  [.boolTypeRef, .stringTypeRef, .namedTypeRef, .boolLiteral, .stringLiteral, .varRef, .paren,
    .fieldAccess, .structLiteral, .not, .and, .or, .equal, .notEqual, .argument, .call,
    .blockStatement, .ifStatement, .assignment, .callStatement, .structField, .structDeclaration,
    .typedefDeclaration, .parameter, .variableDeclaration, .constantDeclaration, .instantiation,
    .actionDeclaration, .keyElement, .actionRef, .tableDeclaration, .controlDeclaration, .program]

def ofName? (s : String) : Option Kind := all.find? fun k => k.name == s

/-- The fields of a kind, in order, each with what stands for it when it is left out. -/
def schema : Kind → List (String × Default)
  | .boolTypeRef => [("location", .absent)]
  | .stringTypeRef => [("location", .absent)]
  | .namedTypeRef => [("name", .required), ("location", .absent)]
  | .boolLiteral => [("value", .required), ("location", .absent)]
  | .stringLiteral => [("value", .required), ("location", .absent)]
  | .varRef => [("name", .required), ("location", .absent)]
  | .paren => [("expr", .required), ("location", .absent)]
  | .fieldAccess => [("target", .required), ("field", .required), ("location", .absent)]
  | .structLiteral => [("fields", .required), ("location", .absent)]
  | .not => [("operand", .required), ("location", .absent)]
  | .and => [("left", .required), ("right", .required), ("location", .absent)]
  | .or => [("left", .required), ("right", .required), ("location", .absent)]
  | .equal => [("left", .required), ("right", .required), ("location", .absent)]
  | .notEqual => [("left", .required), ("right", .required), ("location", .absent)]
  | .argument => [("value", .required), ("name", .absent), ("location", .absent)]
  | .call => [("callee", .required), ("args", .emptyList), ("location", .absent)]
  | .blockStatement => [("statements", .emptyList), ("location", .absent)]
  | .ifStatement => [("condition", .required), ("then_block", .required),
      ("else_block", .absent), ("location", .absent)]
  | .assignment => [("lvalue", .required), ("value", .required), ("location", .absent)]
  | .callStatement => [("call", .required), ("location", .absent)]
  | .structField => [("type", .required), ("name", .required), ("location", .absent)]
  | .structDeclaration => [("name", .required), ("fields", .emptyList), ("location", .absent)]
  | .typedefDeclaration => [("type", .required), ("name", .required), ("location", .absent)]
  | .parameter => [("direction", .required), ("type", .required), ("name", .required),
      ("location", .absent)]
  | .variableDeclaration => [("type", .required), ("name", .required), ("initializer", .absent),
      ("location", .absent)]
  | .constantDeclaration => [("type", .required), ("name", .required), ("value", .required),
      ("location", .absent)]
  | .instantiation => [("type_name", .required), ("name", .required), ("args", .emptyList),
      ("location", .absent)]
  | .actionDeclaration => [("name", .required), ("params", .emptyList), ("body", .emptyBlock),
      ("location", .absent)]
  | .keyElement => [("expr", .required), ("match_kind", .text "exact"), ("location", .absent)]
  | .actionRef => [("name", .required), ("args", .emptyList), ("location", .absent)]
  | .tableDeclaration => [("name", .required), ("keys", .emptyList), ("actions", .emptyList),
      ("default_action", .absent), ("location", .absent)]
  | .controlDeclaration => [("name", .required), ("params", .emptyList), ("locals", .emptyList),
      ("body", .emptyBlock), ("location", .absent)]
  | .program => [("declarations", .emptyList), ("source", .text "<input>")]

def hasField (k : Kind) (key : String) : Bool := k.schema.any fun f => f.1 == key

end Kind

end ControlReach.Document
