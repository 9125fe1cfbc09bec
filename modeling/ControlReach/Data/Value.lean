import ControlReach.Number.Binary
import ControlReach.Number.Integer
import ControlReach.Number.Moment

/-!
# Document values

What program documents and settings are made of. An object keeps its keys in the order in which
they were written. Bytes, moments and sets occur in settings only.
-/

namespace ControlReach

open Number (Binary Moment)

/-- What a JSON or YAML text stands for. -/
inductive Value where
  | null
  | bool (b : Bool)
  | int (n : Int)
  | real (r : Binary)
  | text (s : String)
  | bytes (bs : List UInt8)
  | moment (m : Moment)
  | list (items : List Value)
  | set (members : List Value)
  | object (fields : List (String × Value))
  deriving Inhabited

namespace Value

def typeName : Value → String
  | .null => "NoneType"
  | .bool _ => "bool"
  | .int _ => "int"
  | .real _ => "float"
  | .text _ => "str"
  | .bytes _ => "bytes"
  | .moment m => if m.clock.isSome then "datetime.datetime" else "datetime.date"
  | .list _ => "list"
  | .set _ => "set"
  | .object _ => "dict"

/-- Every value counts as true but null, false, zero, and what is empty. -/
def isTrue : Value → Bool
  | .null => false
  | .bool b => b
  | .int n => n != 0
  | .real r => !r.isZero
  | .text s => s != ""
  | .bytes bs => !bs.isEmpty
  | .moment _ => true
  | .list items => !items.isEmpty
  | .set members => !members.isEmpty
  | .object fields => !fields.isEmpty

def get? : Value → String → Option Value
  | .object fields, key => fields.lookup key
  | _, _ => none

mutual

/-- The form of a value inside a message, texts between quotes. -/
def quoted : Value → String
  | .null => "None"
  | .bool b => if b then "True" else "False"
  | .int n => toString n
  | .real r => r.text
  | .text s => Text.quote s
  | .bytes bs => Text.quoteBytes bs
  | .moment m => m.text
  | .list items => "[" ++ Text.commaList (quotedItems items) ++ "]"
  | .set [] => "set()"
  | .set members => "\x7b" ++ Text.commaList (quotedItems members) ++ "\x7d"
  | .object fields => "\x7b" ++ Text.commaList (quotedFields fields) ++ "\x7d"

def quotedItems : List Value → List String
  | [] => []
  | v :: rest => quoted v :: quotedItems rest

def quotedFields : List (String × Value) → List String
  | [] => []
  | (k, v) :: rest => (Text.quote k ++ ": " ++ quoted v) :: quotedFields rest

end

/-- The form of a value inside a message, a text standing for itself. -/
def display : Value → String
  | .text s => s
  | v => quoted v

/-- Why a value stands for no integer. -/
inductive IntegerFault where
  | notLiteral (s : String)
  | notByteLiteral (bs : List UInt8)
  | tooLong (digits : Nat)
  | wrongType (typeName : String)
  | undefined
  | infinite
  deriving DecidableEq, Repr

/-- The wording for something that is no numeral. It is cut after 200 characters. -/
def noLiteralMessage (base : Nat) (quoted : String) : String :=
  "invalid literal for int() with base " ++ toString base ++ ": " ++
    String.ofList (quoted.toList.take 200)

def IntegerFault.message : IntegerFault → String
  | .notLiteral s => noLiteralMessage 10 (Text.quote s)
  | .notByteLiteral bs => noLiteralMessage 10 (Text.quoteBytes bs)
  | .tooLong digits => Number.tooLongMessage digits
  | .wrongType t =>
    "int() argument must be a string, a bytes-like object or a real number, not '" ++ t ++ "'"
  | .undefined => "cannot convert float NaN to integer"
  | .infinite => "cannot convert float infinity to integer"

/-- The integer a value stands for: booleans are zero and one, fractions are cut off. -/
def toInteger : Value → Except IntegerFault Int
  | .int n => .ok n
  | .bool b => .ok (if b then 1 else 0)
  | .real (.undefined) => .error .undefined
  | .real (.infinite _) => .error .infinite
  | .real r => .ok (r.truncate?.getD 0)
  | .text s =>
    match Number.ofText s with
    | .ok n => .ok n
    | .error .malformed => .error (.notLiteral s)
    | .error (.tooLong digits) => .error (.tooLong digits)
  | .bytes bs =>
    match Number.ofBytes bs with
    | .ok n => .ok n
    | .error .malformed => .error (.notByteLiteral bs)
    | .error (.tooLong digits) => .error (.tooLong digits)
  | v => .error (.wrongType v.typeName)

end Value

end ControlReach
