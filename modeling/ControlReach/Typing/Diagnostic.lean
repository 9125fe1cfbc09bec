import ControlReach.Syntax.Program
import ControlReach.Typing.Ty

/-!
# Diagnostics

Each cause of a rejection belongs to one of five kinds and has one wording.
-/

namespace ControlReach

/-- What a name stands for. -/
inductive BindingKind where
  | variable
  | type
  | constant
  | control
  | action
  | table
  | inst
  deriving DecidableEq, Repr

def BindingKind.text : BindingKind → String
  | .variable => "variable"
  | .type => "type"
  | .constant => "constant"
  | .control => "control"
  | .action => "action"
  | .table => "table"
  | .inst => "instance"

/-- The statements that mark error locations or restrict the executions. -/
inductive AssertionKind where
  | bug
  | assert
  | assume
  deriving DecidableEq, Repr

def AssertionKind.text : AssertionKind → String
  | .bug => "bug"
  | .assert => "assert"
  | .assume => "assume"

/-- The kind of a rejection. -/
inductive DiagnosticKind where
  | duplicateName
  | unknownIdentifier
  | unknownField
  | typeMismatch
  | unsupportedConstruct
  deriving DecidableEq, Repr

def DiagnosticKind.text : DiagnosticKind → String
  | .duplicateName => "DuplicateName"
  | .unknownIdentifier => "UnknownIdentifier"
  | .unknownField => "UnknownField"
  | .typeMismatch => "TypeMismatch"
  | .unsupportedConstruct => "UnsupportedConstruct"

/-- Why something is rejected. -/
inductive Cause where
  -- repeated names
  | declaredTwice (name : String) (previous : BindingKind)
  | literalRepeatsField
  | structRepeatsField (struct field : String)
  | tableRepeatsAction (table action : String)
  | argumentTwice (name callee : String)
  -- unknown names
  | undeclared (name : String)
  | noParameter (callee name : String)
  | noField (type : Ty) (field : String)
  -- names of the wrong kind
  | notType (name : String) (kind : BindingKind)
  | notValue (name : String) (kind : BindingKind)
  | notVariable (name : String) (kind : BindingKind)
  | notAction (name : String) (kind : BindingKind)
  | notCallable (name : String) (kind : BindingKind)
  -- disagreeing types
  | fieldOfScalar (field : String) (type : Ty)
  | operandNotBool (operator : String) (type : Ty)
  | operandsDiffer (operator : String) (left right : Ty)
  | literalFields (given : List String) (expected : Ty)
  | literalField (field : String) (struct expected actual : Ty)
  | literalForScalar (expected : Ty)
  | notAssignable (actual expected : Ty)
  | conditionNotBool (type : Ty)
  | assertionNotBool (kind : AssertionKind) (type : Ty)
  | argumentType (direction : Direction) (param : String) (actual expected : Ty)
  -- arguments
  | bugArguments
  | assertionArguments (kind : AssertionKind)
  | assertionParameter (kind : AssertionKind) (name : String)
  | tableArguments (table : String)
  | tooManyArguments (callee : String) (params given : Nat)
  | missingArgument (param callee : String)
  | mixedArguments (callee : String)
  -- types
  | invalidType (name : String) (why : Cause)
  | unelaboratedType (name : String)
  | typedefCycle (name : String)
  | recursiveStruct (name : String)
  | unknownTypeRef (typeName : String)
  -- constructs without a meaning
  | unknownExpression (typeName : String)
  | callAsValue (call : String)
  | unknownTopLevel (typeName : String)
  | unknownLocal (typeName : String)
  | unknownStatement (typeName : String)
  | instanceOf (kind : BindingKind) (typeName : String)
  | constructorArguments (typeName : String)
  | notLocation (expr : String)
  | assignConstant (name : String)
  | assignReadOnly (name : String)
  | method (field : String) (kind : BindingKind) (name : String)
  | applyOn (kind : BindingKind) (name : String)
  | callOf (callee : String)
  | directionless (param control : String)
  | recursion (cycle : List String)
  | cyclicGraph (control : String)
  -- path conditions
  | unrolling (control : String)
  | undefinedRead (name : String)
  | branching (block : Int) (control : String)

namespace Cause

/-- The kind of a cause; an invalid type is rejected as its own fault was. -/
def kind : Cause → DiagnosticKind
  | .declaredTwice _ _ | .literalRepeatsField | .structRepeatsField _ _ | .tableRepeatsAction _ _
  | .argumentTwice _ _ => .duplicateName
  | .undeclared _ | .noParameter _ _ => .unknownIdentifier
  | .noField _ _ => .unknownField
  | .notType _ _ | .notValue _ _ | .notVariable _ _ | .notAction _ _ | .notCallable _ _
  | .fieldOfScalar _ _ | .operandNotBool _ _ | .operandsDiffer _ _ _ | .literalFields _ _
  | .literalField _ _ _ _ | .literalForScalar _ | .notAssignable _ _ | .conditionNotBool _
  | .assertionNotBool _ _ | .argumentType _ _ _ _ | .bugArguments | .assertionArguments _
  | .assertionParameter _ _ | .tableArguments _ | .tooManyArguments _ _ _
  | .missingArgument _ _ => .typeMismatch
  | .invalidType _ why => why.kind
  | .mixedArguments _ | .unelaboratedType _ | .typedefCycle _ | .recursiveStruct _
  | .unknownTypeRef _ | .unknownExpression _ | .callAsValue _ | .unknownTopLevel _
  | .unknownLocal _ | .unknownStatement _ | .instanceOf _ _ | .constructorArguments _
  | .notLocation _ | .assignConstant _ | .assignReadOnly _ | .method _ _ _ | .applyOn _ _
  | .callOf _ | .directionless _ _ | .recursion _ | .cyclicGraph _ | .unrolling _
  | .undefinedRead _ | .branching _ _ => .unsupportedConstruct

def name (s : String) : String := "'" ++ s ++ "'"

def isA (x : String) (kind : BindingKind) : String := name x ++ " is a " ++ kind.text

def message : Cause → String
  | .declaredTwice x previous =>
    name x ++ " is already declared in this scope (as " ++ previous.text ++ ")"
  | .literalRepeatsField => "struct literal repeats a field name"
  | .structRepeatsField s f => "struct " ++ s ++ " declares field " ++ name f ++ " twice"
  | .tableRepeatsAction t a => "table " ++ t ++ " lists action " ++ name a ++ " twice"
  | .argumentTwice x callee => "argument " ++ name x ++ " of " ++ name callee ++ " given twice"
  | .undeclared x => name x ++ " is not declared"
  | .noParameter callee x => name callee ++ " has no parameter " ++ name x
  | .noField t f => "struct " ++ t.text ++ " has no field " ++ name f
  | .notType x kind => isA x kind ++ ", not a type"
  | .notValue x kind => isA x kind ++ ", not a value"
  | .notVariable x kind => isA x kind ++ ", not a variable"
  | .notAction x kind => isA x kind ++ ", not an action"
  | .notCallable x kind => isA x kind ++ " and cannot be called"
  | .fieldOfScalar f t => "field access '." ++ f ++ "' on non-struct value of type " ++ t.text
  | .operandNotBool op t => "operator " ++ name op ++ " requires bool operands, got " ++ t.text
  | .operandsDiffer op l r =>
    "operands of " ++ name op ++ " have different types (" ++ l.text ++ " vs " ++ r.text ++ ")"
  | .literalFields given t =>
    "struct literal fields " ++ Text.quotedList given ++ " do not match " ++ t.text ++ " fields " ++
      Text.quotedList t.fieldNames
  | .literalField f t want got =>
    "field " ++ name f ++ " of " ++ t.text ++ " expects " ++ want.text ++ ", got " ++ got.text
  | .literalForScalar t => "struct literal where " ++ t.text ++ " is expected"
  | .notAssignable got want => "cannot assign " ++ got.text ++ " to " ++ want.text
  | .conditionNotBool t => "if condition must be bool, got " ++ t.text
  | .assertionNotBool kind t => kind.text ++ "() condition must be bool, got " ++ t.text
  | .argumentType d p got want =>
    "argument for " ++ d.text ++ " parameter " ++ name p ++ " has type " ++ got.text ++
      ", expected " ++ want.text
  | .bugArguments => "bug() takes no arguments"
  | .assertionArguments kind => kind.text ++ "() takes exactly one condition argument"
  | .assertionParameter kind x => kind.text ++ "() has no parameter " ++ name x
  | .tableArguments t => "table " ++ name t ++ " takes no arguments"
  | .tooManyArguments callee params given =>
    name callee ++ " takes " ++ toString params ++ " argument(s), " ++ toString given ++ " given"
  | .missingArgument p callee =>
    "missing argument for parameter " ++ name p ++ " of " ++ name callee
  | .mixedArguments callee => "call of " ++ name callee ++ " mixes positional and named arguments"
  | .invalidType x why => "type " ++ name x ++ " is invalid: " ++ why.message
  | .unelaboratedType x => "type " ++ name x ++ " is used before it is elaborated"
  | .typedefCycle x => "typedef cycle through " ++ name x
  | .recursiveStruct x => "recursive struct type " ++ name x
  | .unknownTypeRef t => "unrecognized type reference " ++ t
  | .unknownExpression t => "unrecognized expression " ++ t
  | .callAsValue call => "call " ++ name call ++ " in value position has no modeled result"
  | .unknownTopLevel t => "top-level " ++ t ++ " is not supported"
  | .unknownLocal t => "local " ++ t ++ " is not supported"
  | .unknownStatement t => "statement " ++ t ++ " is not supported"
  | .instanceOf kind t => "instantiation of " ++ kind.text ++ " " ++ name t ++ " is not modeled"
  | .constructorArguments t => "constructor arguments for " ++ name t ++ " are not modeled"
  | .notLocation e => name e ++ " is not an assignable location"
  | .assignConstant x => "cannot assign to constant " ++ name x
  | .assignReadOnly x => "cannot assign to read-only parameter " ++ name x
  | .method f kind x =>
    "method " ++ name f ++ " of " ++ kind.text ++ " " ++ name x ++ " is not modeled"
  | .applyOn kind x => "apply() on " ++ kind.text ++ " " ++ name x ++ " is not modeled"
  | .callOf callee => "call of " ++ name callee ++ " is not modeled"
  | .directionless p c =>
    "directionless parameter " ++ name p ++ " of applied control " ++ name c ++ " is not modeled"
  | .recursion cycle =>
    "recursive call cycle " ++ Text.join " -> " cycle ++ " cannot be inlined"
  | .cyclicGraph c => "control flow graph of " ++ name c ++ " contains a cycle"
  | .unrolling c =>
    "control flow graph of " ++ name c ++ " has a cycle; unrolling is not supported"
  | .undefinedRead x => name x ++ " is read before it is defined"
  | .branching block c => "block " ++ toString block ++ " of " ++ name c ++ " branches"

end Cause

/-- A rejection: its cause, where it arose, and the control it belongs to, if any. -/
structure Diagnostic where
  cause : Cause
  loc : Option Location
  control : Option String

namespace Diagnostic

def of (cause : Cause) (loc : Option Location) : Diagnostic := ⟨cause, loc, none⟩

def kind (d : Diagnostic) : DiagnosticKind := d.cause.kind

def message (d : Diagnostic) : String := d.cause.message

def text (d : Diagnostic) : String :=
  (match d.loc with
    | some l => l.text ++ ": "
    | none => "") ++ d.kind.text ++ ": " ++ d.message

/-- Attach a control, unless there is one already. -/
def within (control : String) (d : Diagnostic) : Diagnostic :=
  { d with control := d.control.or (some control) }

def same (a b : Diagnostic) : Bool :=
  a.kind == b.kind && a.message == b.message && a.loc == b.loc

/-- Keep the first of rejections that read the same. -/
def distinct (l : List Diagnostic) : List Diagnostic :=
  (l.foldl (fun kept d => if kept.any (same d) then kept else d :: kept) []).reverse

end Diagnostic

/-- A result, or the reason for which there is none. -/
abbrev Checked (α : Type) := Except Diagnostic α

def reject {α : Type} (cause : Cause) (loc : Option Location) : Checked α :=
  .error (Diagnostic.of cause loc)

end ControlReach
