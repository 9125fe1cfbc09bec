import ControlReach.Document.Node

/-!
# From nodes to programs

The second step of decoding gives a checked document its meaning as a program. A node that is not
of the expected sort is kept by the name of what stands there; only a part that should be a list, or
a node of one certain kind, and is not, stops the interpretation.
-/

namespace ControlReach

open Document (Node Kind LoadError)

/-- Why a checked document is no program. -/
inductive Malformed where
  | notList
  | notText
  | wrongNode
  deriving DecidableEq, Repr

def Location.ofNode? : Node → Option Location
  | .place l => some l
  | _ => none

def Location.ofFields? (fields : List (String × Node)) : Option Location :=
  (fields.lookup "location").bind Location.ofNode?

def Document.Node.items : Node → Except Malformed (List Node)
  | .list items => .ok items
  | .leaf (.text "") => .ok []
  | .leaf (.text _) => .error .wrongNode
  | _ => .error .notList

def Document.Node.optionalText : Node → Option String
  | .leaf .null => none
  | n => some n.display

def TypeRef.ofNode : Node → TypeRef
  | .tree .boolTypeRef [(_, loc)] => .bool (Location.ofNode? loc)
  | .tree .stringTypeRef [(_, loc)] => .string (Location.ofNode? loc)
  | .tree .namedTypeRef [(_, name), (_, loc)] => .named name.display (Location.ofNode? loc)
  | n => .other n.typeName

mutual

def Expr.ofNode : Node → Except Malformed Expr
  | .tree .boolLiteral [(_, value), (_, loc)] => .ok (.bool value.isTrue (Location.ofNode? loc))
  | .tree .stringLiteral [(_, value), (_, loc)] => .ok (.text value.display (Location.ofNode? loc))
  | .tree .varRef [(_, name), (_, loc)] => .ok (.var name.display (Location.ofNode? loc))
  | .tree .paren [(_, inner), (_, loc)] => do
    return .paren (← Expr.ofNode inner) (Location.ofNode? loc)
  | .tree .fieldAccess [(_, target), (_, field), (_, loc)] => do
    return .field (← Expr.ofNode target) field.display (Location.ofNode? loc)
  | .tree .structLiteral [(_, .pairs fields), (_, loc)] => do
    return .struct (← Expr.ofPairs fields) (Location.ofNode? loc)
  | .tree .not [(_, operand), (_, loc)] => do
    return .not (← Expr.ofNode operand) (Location.ofNode? loc)
  | .tree .and [(_, left), (_, right), (_, loc)] => do
    return .and (← Expr.ofNode left) (← Expr.ofNode right) (Location.ofNode? loc)
  | .tree .or [(_, left), (_, right), (_, loc)] => do
    return .or (← Expr.ofNode left) (← Expr.ofNode right) (Location.ofNode? loc)
  | .tree .equal [(_, left), (_, right), (_, loc)] => do
    return .equal false (← Expr.ofNode left) (← Expr.ofNode right) (Location.ofNode? loc)
  | .tree .notEqual [(_, left), (_, right), (_, loc)] => do
    return .equal true (← Expr.ofNode left) (← Expr.ofNode right) (Location.ofNode? loc)
  | .tree .call [(_, callee), (_, .list args), (_, loc)] => do
    let args ← Argument.ofNodes args
    return .call (← Expr.ofNode callee) args (Location.ofNode? loc)
  | .tree .call [(_, callee), (_, args), (_, loc)] => do
    let _ ← args.items
    return .call (← Expr.ofNode callee) [] (Location.ofNode? loc)
  | .tree kind fields => .ok (.other kind.name (Location.ofFields? fields))
  | n => .ok (.other n.typeName none)

def Expr.ofPairs : List (Value × Node) → Except Malformed (List (String × Expr))
  | [] => .ok []
  | (name, value) :: rest => do
    let value ← Expr.ofNode value
    return (name.display, value) :: (← Expr.ofPairs rest)

def Argument.ofNodes : List Node → Except Malformed (List Argument)
  | [] => .ok []
  | .tree .argument [(_, .leaf .null), (_, name), (_, loc)] :: rest => do
    return .any name.optionalText (Location.ofNode? loc) :: (← Argument.ofNodes rest)
  | .tree .argument [(_, value), (_, name), (_, loc)] :: rest => do
    let value ← Expr.ofNode value
    return .given value name.optionalText (Location.ofNode? loc) :: (← Argument.ofNodes rest)
  | _ :: _ => .error .wrongNode

end

def Argument.ofField (n : Node) : Except Malformed (List Argument) := do
  Argument.ofNodes (← n.items)

def VariableDecl.ofParts (type name initial loc : Node) : Except Malformed VariableDecl := do
  let initial ← match initial with
    | .leaf .null => pure none
    | n => some <$> Expr.ofNode n
  return ⟨TypeRef.ofNode type, name.display, initial, Location.ofNode? loc⟩

def ConstantDecl.ofParts (type name value loc : Node) : Except Malformed ConstantDecl := do
  return ⟨TypeRef.ofNode type, name.display, ← Expr.ofNode value, Location.ofNode? loc⟩

mutual

def Stmt.ofNode : Node → Except Malformed Stmt
  | .tree .blockStatement [(_, .list statements), (_, loc)] => do
    return .block (.mk (← Stmt.ofNodes statements) (Location.ofNode? loc))
  | .tree .ifStatement [(_, condition), (_, thenBlock), (_, elseBlock), (_, loc)] => do
    let condition ← Expr.ofNode condition
    let thenBlock ← Block.ofNode thenBlock
    let elseBlock ← match elseBlock with
      | .leaf .null => pure none
      | _ => (Block.ofNode elseBlock).map some
    return .branch condition thenBlock elseBlock (Location.ofNode? loc)
  | .tree .assignment [(_, target), (_, value), (_, loc)] => do
    return .assign (← Expr.ofNode target) (← Expr.ofNode value) (Location.ofNode? loc)
  | .tree .callStatement [(_, .tree .call [(_, callee), (_, args), (_, callLoc)]), (_, loc)] => do
    return .call (← Expr.ofNode callee) (← Argument.ofField args) (Location.ofNode? callLoc)
      (Location.ofNode? loc)
  | .tree .callStatement _ => .error .wrongNode
  | .tree .variableDeclaration [(_, type), (_, name), (_, initial), (_, loc)] => do
    return .variable (← VariableDecl.ofParts type name initial loc)
  | .tree .constantDeclaration [(_, type), (_, name), (_, value), (_, loc)] => do
    return .constant (← ConstantDecl.ofParts type name value loc)
  | .tree kind fields => .ok (.other kind.name (Location.ofFields? fields))
  | n => .ok (.other n.typeName none)

def Stmt.ofNodes : List Node → Except Malformed (List Stmt)
  | [] => .ok []
  | n :: rest => do
    let s ← Stmt.ofNode n
    return s :: (← Stmt.ofNodes rest)

def Block.ofNode : Node → Except Malformed Block
  | .tree .blockStatement [(_, .list statements), (_, loc)] => do
    return .mk (← Stmt.ofNodes statements) (Location.ofNode? loc)
  | .tree .blockStatement _ => .error .notList
  | _ => .error .wrongNode

end

def Parameter.ofNode : Node → Except Malformed Parameter
  | .tree .parameter [(_, .direction d), (_, type), (_, name), (_, loc)] =>
    .ok ⟨d, TypeRef.ofNode type, name.display, Location.ofNode? loc⟩
  | _ => .error .wrongNode

def StructField.ofNode : Node → Except Malformed StructField
  | .tree .structField [(_, type), (_, name), (_, loc)] =>
    .ok ⟨TypeRef.ofNode type, name.display, Location.ofNode? loc⟩
  | _ => .error .wrongNode

def KeyElement.ofNode : Node → Except Malformed KeyElement
  | .tree .keyElement [(_, expr), (_, matchKind), (_, loc)] => do
    return ⟨← Expr.ofNode expr, matchKind.display, Location.ofNode? loc⟩
  | _ => .error .wrongNode

def ActionRef.ofNode : Node → Except Malformed ActionRef
  | .tree .actionRef [(_, name), (_, args), (_, loc)] => do
    return ⟨name.display, ← Argument.ofField args, Location.ofNode? loc⟩
  | _ => .error .wrongNode

def Instantiation.ofParts (typeName name args loc : Node) : Except Malformed Instantiation := do
  return ⟨typeName.display, name.display, ← Argument.ofField args, Location.ofNode? loc⟩

def ActionDecl.ofParts (name params body loc : Node) : Except Malformed ActionDecl := do
  let params ← (← params.items).mapM Parameter.ofNode
  return ⟨name.display, params, ← Block.ofNode body, Location.ofNode? loc⟩

def TableDecl.ofParts (name keys actions default loc : Node) : Except Malformed TableDecl := do
  let keys ← (← keys.items).mapM KeyElement.ofNode
  let actions ← (← actions.items).mapM ActionRef.ofNode
  let default ← match default with
    | .leaf .null => pure none
    | n => some <$> ActionRef.ofNode n
  return ⟨name.display, keys, actions, default, Location.ofNode? loc⟩

def Local.ofNode : Node → Except Malformed Local
  | .tree .variableDeclaration [(_, type), (_, name), (_, initial), (_, loc)] => do
    return .variable (← VariableDecl.ofParts type name initial loc)
  | .tree .constantDeclaration [(_, type), (_, name), (_, value), (_, loc)] => do
    return .constant (← ConstantDecl.ofParts type name value loc)
  | .tree .instantiation [(_, typeName), (_, name), (_, args), (_, loc)] => do
    return .inst (← Instantiation.ofParts typeName name args loc)
  | .tree .actionDeclaration [(_, name), (_, params), (_, body), (_, loc)] => do
    return .action (← ActionDecl.ofParts name params body loc)
  | .tree .tableDeclaration [(_, name), (_, keys), (_, actions), (_, default), (_, loc)] => do
    return .table (← TableDecl.ofParts name keys actions default loc)
  | .tree kind fields => .ok (.other kind.name (Location.ofFields? fields))
  | n => .ok (.other n.typeName none)

def ControlDecl.ofParts (name params locals body loc : Node) : Except Malformed ControlDecl := do
  let params ← (← params.items).mapM Parameter.ofNode
  let locals ← (← locals.items).mapM Local.ofNode
  return ⟨name.display, params, locals, ← Block.ofNode body, Location.ofNode? loc⟩

def Declaration.ofNode : Node → Except Malformed Declaration
  | .tree .structDeclaration [(_, name), (_, fields), (_, loc)] => do
    let fields ← (← fields.items).mapM StructField.ofNode
    return .struct ⟨name.display, fields, Location.ofNode? loc⟩
  | .tree .typedefDeclaration [(_, type), (_, name), (_, loc)] =>
    .ok (.typedef ⟨TypeRef.ofNode type, name.display, Location.ofNode? loc⟩)
  | .tree .controlDeclaration [(_, name), (_, params), (_, locals), (_, body), (_, loc)] => do
    return .control (← ControlDecl.ofParts name params locals body loc)
  | .tree .constantDeclaration [(_, type), (_, name), (_, value), (_, loc)] => do
    return .constant (← ConstantDecl.ofParts type name value loc)
  | .tree .instantiation [(_, typeName), (_, name), (_, args), (_, loc)] => do
    return .inst (← Instantiation.ofParts typeName name args loc)
  | .tree kind fields => .ok (.other kind.name (Location.ofFields? fields))
  | n => .ok (.other n.typeName none)

def Program.ofNode : Node → Except Malformed Program
  | .tree .program [(_, declarations), (_, source)] => do
    return ⟨← (← declarations.items).mapM Declaration.ofNode, source.display⟩
  | _ => .error .wrongNode

/-- Why a document gives no program. -/
inductive ProgramFault where
  | refused (error : LoadError)
  | malformed (fault : Malformed)

def Document.Node.isCountable : Node → Bool
  | .list _ | .pairs _ | .leaf (.text _) => true
  | _ => false

def Document.decodeFile (source : String) (v : Value) : Except ProgramFault Node :=
  match Document.decodeProgram source v with
  | .error e => .error (.refused e)
  | .ok (.tree kind ((key, declarations) :: fields)) =>
    if declarations.isCountable then .ok (.tree kind ((key, declarations) :: fields))
    else .error (.malformed .notList)
  | .ok n => .ok n

def Program.load (source : String) (v : Value) : Except ProgramFault Program := do
  match Program.ofNode (← Document.decodeFile source v) with
  | .error m => .error (.malformed m)
  | .ok p => .ok p

namespace Document.Node

def said (s : String) : Node := .leaf (.text s)

/-- Two descriptions with an operator between them. -/
def joined (operator : String) (left right : Node) : Node :=
  said (left.display ++ " " ++ operator ++ " " ++ right.display)

/-- The descriptions of arguments, all of which have to be texts. -/
def textsOf : List Node → Except Malformed (List String)
  | [] => .ok []
  | .leaf (.text s) :: rest => (textsOf rest).map (s :: ·)
  | _ :: _ => .error .notText

mutual

/-- The description of a part: a variable reference stands for its name. -/
def describe : Node → Except Malformed Node
  | .tree .boolLiteral ((_, value) :: _) => .ok (said (if value.isTrue then "true" else "false"))
  | .tree .stringLiteral ((_, value) :: _) => .ok (said ("\"" ++ value.display ++ "\""))
  | .tree .varRef ((_, name) :: _) => .ok name
  | .tree .paren ((_, inner) :: _) => do
    return said ("(" ++ (← describe inner).display ++ ")")
  | .tree .fieldAccess ((_, target) :: (_, field) :: _) => do
    return said ((← describe target).display ++ "." ++ field.display)
  | .tree .structLiteral ((_, .pairs fields) :: _) => do
    return said ("\x7b " ++ Text.commaList (← describePairs fields) ++ " \x7d")
  | .tree .not ((_, operand) :: _) => do
    return said ("!" ++ (← describe operand).display)
  | .tree .and ((_, left) :: (_, right) :: _) => do
    return joined "&&" (← describe left) (← describe right)
  | .tree .or ((_, left) :: (_, right) :: _) => do
    return joined "||" (← describe left) (← describe right)
  | .tree .equal ((_, left) :: (_, right) :: _) => do
    return joined "==" (← describe left) (← describe right)
  | .tree .notEqual ((_, left) :: (_, right) :: _) => do
    return joined "!=" (← describe left) (← describe right)
  | .tree .call ((_, callee) :: (_, .list args) :: _) => do
    let args ← textsOf (← describeArguments args)
    return said ((← describe callee).display ++ "(" ++ Text.commaList args ++ ")")
  | .tree .call ((_, callee) :: (_, args) :: _) => do
    let _ ← args.items
    return said ((← describe callee).display ++ "()")
  | n => .ok (said n.typeName)

def describePairs : List (Value × Node) → Except Malformed (List String)
  | [] => .ok []
  | (name, value) :: rest => do
    let value ← describe value
    return (name.display ++ " = " ++ value.display) :: (← describePairs rest)

def describeArguments : List Node → Except Malformed (List Node)
  | [] => .ok []
  | .tree .argument ((_, .leaf .null) :: _) :: rest => do
    return said "_" :: (← describeArguments rest)
  | .tree .argument ((_, value) :: _) :: rest => do
    let value ← describe value
    return value :: (← describeArguments rest)
  | _ :: _ => .error .wrongNode

end

end Document.Node

end ControlReach
