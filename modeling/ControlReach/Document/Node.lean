import ControlReach.Data.Value
import ControlReach.Document.Schema
import ControlReach.Syntax.Program

/-!
# Document nodes

The first step of decoding checks a document's shape only: every object names a known kind, has that
kind's fields and no others, and writes locations, directions, blocks and the fields of struct
literals in their own forms.
-/

namespace ControlReach.Document

/-- A checked part of a document. -/
inductive Node where
  | leaf (v : Value)
  | list (items : List Node)
  | place (loc : Location)
  | direction (d : Direction)
  | pairs (fields : List (Value × Node))
  | tree (kind : Kind) (fields : List (String × Node))
  deriving Inhabited

namespace Node

/-- The name of what stands here, as messages give it. -/
def typeName : Node → String
  | .leaf v => v.typeName
  | .list _ => "list"
  | .place _ => "SourceLocation"
  | .direction _ => "Direction"
  | .pairs _ => "list"
  | .tree kind _ => kind.name

/-- Every part counts as true but an empty list and the leaves that do not. -/
def isTrue : Node → Bool
  | .leaf v => v.isTrue
  | .list items => !items.isEmpty
  | .pairs fields => !fields.isEmpty
  | _ => true

def placeValue (l : Location) : Value := .list [.text l.file, .int l.line, .int l.column]

mutual

def toValue : Node → Value
  | .leaf v => v
  | .list items => .list (itemValues items)
  | .place loc => placeValue loc
  | .direction d => .text d.text
  | .pairs fields => .list (pairValues fields)
  | .tree kind fields => .object (("kind", .text kind.name) :: fieldValues fields)

def itemValues : List Node → List Value
  | [] => []
  | n :: rest => toValue n :: itemValues rest

/-- The fields of a struct literal as two-element lists. -/
def pairValues : List (Value × Node) → List Value
  | [] => []
  | (name, n) :: rest => .list [name, toValue n] :: pairValues rest

def fieldValues : List (String × Node) → List (String × Value)
  | [] => []
  | (key, n) :: rest => (key, toValue n) :: fieldValues rest

end

def directionName : Direction → String
  | .input => "IN"
  | .output => "OUT"
  | .inout => "INOUT"
  | .data => "NONE"

mutual

def quoted : Node → String
  | .leaf v => v.quoted
  | .list items => "[" ++ Text.commaList (quotedItems items) ++ "]"
  | .place l => "SourceLocation(file=" ++ Text.quote l.file ++ ", line=" ++ toString l.line ++
      ", column=" ++ toString l.column ++ ")"
  | .direction d => "<Direction." ++ directionName d ++ ": " ++ Text.quote d.text ++ ">"
  | .pairs fields => "[" ++ Text.commaList (quotedPairs fields) ++ "]"
  | .tree kind fields => kind.name ++ "(" ++ Text.commaList (quotedFields fields) ++ ")"

def quotedItems : List Node → List String
  | [] => []
  | n :: rest => quoted n :: quotedItems rest

def quotedPairs : List (Value × Node) → List String
  | [] => []
  | (name, n) :: rest => ("(" ++ name.quoted ++ ", " ++ quoted n ++ ")") :: quotedPairs rest

def quotedFields : List (String × Node) → List String
  | [] => []
  | (key, n) :: rest => (key ++ "=" ++ quoted n) :: quotedFields rest

end

def display : Node → String
  | .leaf v => v.display
  | .place l => l.text
  | n => n.quoted

end Node

/-- Why a part of a document is refused. -/
inductive LoadFault where
  | noKind
  | kindNotScalar
  | unknownKind (kind : Value)
  | unknownField (kind : Kind) (key : String)
  | missingFields (kind : Kind) (names : List String)
  | locationNotObject
  | badLocation (fault : Value.IntegerFault)
  | unknownDirection (v : Value)
  | notBlock (typeName : String)
  | fieldsNotList
  | notPair
  | notProgram (typeName : String)

/-- A refused part and its place in the document. -/
structure LoadError where
  path : String
  fault : LoadFault

/-- Names as an enumeration ends: `'a'`, `'a' and 'b'`, `'a', 'b', and 'c'`. -/
def enumeration : List String → String
  | [] => ""
  | [a] => "'" ++ a ++ "'"
  | [a, b] => "'" ++ a ++ "' and '" ++ b ++ "'"
  | names =>
    let shown := names.map fun n => "'" ++ n ++ "'"
    Text.commaList shown.dropLast ++ ", and " ++ shown.getLastD ""

def LoadFault.message : LoadFault → String
  | .noKind => ": object without a 'kind'"
  | .kindNotScalar => ": a kind cannot be a list or an object"
  | .unknownKind kind => ": unknown node kind '" ++ kind.display ++ "'"
  | .unknownField kind key => ": " ++ kind.name ++ " has no field '" ++ key ++ "'"
  | .missingFields kind names =>
    ": " ++ kind.name ++ ": " ++ kind.name ++ ".__init__() missing " ++ toString names.length ++
      " required positional argument" ++ (if names.length = 1 then "" else "s") ++ ": " ++
      enumeration names
  | .locationNotObject => ": location must be an object"
  | .badLocation fault => ": bad location: " ++ fault.message
  | .unknownDirection v => ": unknown direction '" ++ v.display ++ "'"
  | .notBlock typeName => ": expected a BlockStatement, got " ++ typeName
  | .fieldsNotList => ": struct literal fields must be a list"
  | .notPair => ": expected \x7b'name', 'value'\x7d"
  | .notProgram typeName => ": expected a Program, got " ++ typeName

def LoadError.message (e : LoadError) : String := e.path ++ e.fault.message

/-- The error is reported to the user; the others end the program. -/
def LoadError.isReported (e : LoadError) : Bool :=
  match e.fault with
  | .kindNotScalar | .badLocation .infinite => false
  | _ => true

variable (path : String)

def refuse {α : Type} (fault : LoadFault) : Except LoadError α :=
  .error ⟨path, fault⟩

def itemPath (i : Nat) : String := path ++ "[" ++ toString i ++ "]"

/-- A block of the given statements, as if it had been written out. -/
def blockNode (statements : Node) : Node :=
  .tree .blockStatement [("statements", statements), ("location", .leaf .null)]

/-- What stands for a field that is left out, unless it is required. -/
def Default.node? : Default → Option Node
  | .required => none
  | .absent => some (.leaf .null)
  | .emptyList => some (.list [])
  | .emptyBlock => some (blockNode (.list []))
  | .text s => some (.leaf (.text s))

/-- The fields of a node in the order of its kind, the defaults filled in. -/
def complete (given : List (String × Node)) : List (String × Default) → List (String × Node)
  | [] => []
  | (key, default) :: rest =>
    (key, ((given.lookup key).or default.node?).getD (.leaf .null)) :: complete given rest

def missing (given : List (String × Node)) (fields : List (String × Default)) : List String :=
  (fields.filter fun f => f.2 == .required && (given.lookup f.1).isNone).map Prod.fst

def buildNode (kind : Kind) (given : List (String × Node)) : Except LoadError Node :=
  match missing given kind.schema with
  | [] => .ok (.tree kind (complete given kind.schema))
  | names => refuse path (.missingFields kind names)

def placeNumber (path key : String) (fields : List (String × Value)) : Except LoadError Int :=
  match fields.lookup key with
  | none => .ok 0
  | some v =>
    match v.toInteger with
    | .ok n => .ok n
    | .error fault => refuse path (.badLocation fault)

/-- A location: nothing, or an object with a file, a line and a column, each optional. -/
def decodePlace : Value → Except LoadError Node
  | .null => .ok (.leaf .null)
  | .object fields => do
    let file := ((fields.lookup "file").map Value.display).getD "<input>"
    let line ← placeNumber path "line" fields
    let column ← placeNumber path "column" fields
    return .place ⟨file, line, column⟩
  | _ => refuse path .locationNotObject

/-- A direction: a keyword, or anything that counts as false for none. -/
def decodeDirection (v : Value) : Except LoadError Node :=
  if v.isTrue then
    match v with
    | .text s =>
      match Direction.ofText? s with
      | some d => .ok (.direction d)
      | none => refuse path (.unknownDirection v)
    | _ => refuse path (.unknownDirection v)
  else .ok (.direction .data)

def kindOf (fields : List (String × Value)) : Except LoadError Kind :=
  match fields.lookup "kind" with
  | none => refuse path .noKind
  | some .null => refuse path .noKind
  | some (.list _) => refuse path .kindNotScalar
  | some (.object _) => refuse path .kindNotScalar
  | some (.text s) =>
    match Kind.ofName? s with
    | some kind => .ok kind
    | none => refuse path (.unknownKind (.text s))
  | some v => refuse path (.unknownKind v)

/-- Take a decoded part for a block: a block, a bare list of statements, or nothing. -/
def asBlock : Node → Except LoadError Node
  | .tree .blockStatement fields => .ok (.tree .blockStatement fields)
  | .list statements => .ok (blockNode (.list statements))
  | .leaf .null => .ok (.leaf .null)
  | n => refuse path (.notBlock n.typeName)

/-- How the value of a field is written. -/
inductive FieldForm where
  | place
  | direction
  | structFields
  | block
  | any
  deriving DecidableEq, Repr

def fieldForm (kind : Kind) (key : String) : FieldForm :=
  if key = "location" then .place
  else if key = "direction" then .direction
  else if kind = .structLiteral && key = "fields" then .structFields
  else if key = "then_block" || key = "else_block" || key = "body" then .block
  else .any

mutual

def decode (path : String) : Value → Except LoadError Node
  | .list items => do return .list (← decodeItems path 0 items)
  | .object fields => do
    let kind ← kindOf path fields
    let given ← decodeFields path kind fields
    buildNode path kind given
  | v => .ok (.leaf v)

def decodeItems (path : String) (i : Nat) : List Value → Except LoadError (List Node)
  | [] => .ok []
  | v :: rest => do
    let n ← decode (itemPath path i) v
    return n :: (← decodeItems path (i + 1) rest)

/-- Check the fields of a node of a kind, in document order, each in its form. -/
def decodeFields (path : String) (kind : Kind) :
    List (String × Value) → Except LoadError (List (String × Node))
  | [] => .ok []
  | (key, v) :: rest =>
    if key = "kind" then decodeFields path kind rest
    else if kind.hasField key then do
      let inner := path ++ "." ++ key
      let n ← match fieldForm kind key with
        | .place => decodePlace inner v
        | .direction => decodeDirection inner v
        | .structFields =>
          match v with
          | .list items => (decodePairs inner 0 items).map Node.pairs
          | _ => refuse inner .fieldsNotList
        | .block => (decode inner v).bind (asBlock inner)
        | .any => decode inner v
      return (key, n) :: (← decodeFields path kind rest)
    else refuse path (.unknownField kind key)

/-- Check the fields of a struct literal, the first of them at index `i`. -/
def decodePairs (path : String) (i : Nat) : List Value → Except LoadError (List (Value × Node))
  | [] => .ok []
  | item :: rest => do
    let pair ← decodePair (itemPath path i) item
    return pair :: (← decodePairs path (i + 1) rest)

/-- Check one field of a struct literal: an object, or a list of a name and a value. -/
def decodePair (path : String) : Value → Except LoadError (Value × Node)
  | .list [name, v] => do return (name, ← decode (path ++ "[1]") v)
  | .object fields =>
    match fields.lookup "name" with
    | none => refuse path .notPair
    | some name => do return (name, ← decodeValueField path fields)
  | _ => refuse path .notPair

def decodeValueField (path : String) : List (String × Value) → Except LoadError Node
  | [] => refuse path .notPair
  | (key, v) :: rest =>
    if key = "value" then decode (path ++ ".value") v else decodeValueField path rest

end

def setSource (source : String) : List (String × Node) → List (String × Node)
  | [] => []
  | (key, n) :: rest =>
    match n with
    | .leaf (.text "<input>") =>
      if key = "source" then (key, .leaf (.text source)) :: rest
      else (key, n) :: setSource source rest
    | _ => (key, n) :: setSource source rest

/-- Check a whole program; a bare list of declarations is one. -/
def decodeProgram (source : String) (v : Value) : Except LoadError Node := do
  let v := match v with
    | .list items => .object [("kind", .text "Program"), ("declarations", .list items)]
    | v => v
  match ← decode "$" v with
  | .tree .program fields => return .tree .program (setSource source fields)
  | n => refuse "$" (.notProgram n.typeName)

end ControlReach.Document
