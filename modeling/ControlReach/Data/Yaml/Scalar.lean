import ControlReach.Data.Base64
import ControlReach.Data.JsonReader
import ControlReach.Data.Yaml.Fault
import ControlReach.Number.Real
import ControlReach.Text.Lowercase
import ControlReach.Text.Parts

/-!
# Scalars

A scalar without quotes stands for a truth value, a number, a moment or null if it has the form of
one, and for a text otherwise. A tag names such a form, and the text of a scalar is read as its tag
says.
-/

namespace ControlReach.Yaml

open Number (Binary Moment)

/-- The form of a scalar. -/
inductive Kind where
  | null
  | bool
  | int
  | real
  | moment
  | merge
  | default
  | text
  deriving DecidableEq, Repr

variable (s : String)

/-- The words for truth values, in small letters, with a capital, or in capitals. -/
def truth? : Option Bool :=
  if s ∈ ["yes", "Yes", "YES", "true", "True", "TRUE", "on", "On", "ON"] then some true
  else if s ∈ ["no", "No", "NO", "false", "False", "FALSE", "off", "Off", "OFF"] then some false
  else none

def isNull : Bool := s ∈ ["", "~", "null", "Null", "NULL"]

/-! ### Numbers -/

def signOf : List Char → Bool × List Char
  | '-' :: rest => (true, rest)
  | '+' :: rest => (false, rest)
  | cs => (false, cs)

/-- All characters are digits of a base, or underscores, which separate digits. -/
def areDigits (base : Nat) (cs : List Char) : Bool :=
  cs.all fun c => c == '_' || (Json.hexDigit? c).any (· < base)

/-- Digits with underscores, the first of them a digit. -/
def isWhole : List Char → Bool
  | c :: rest => c.isDigit && areDigits 10 rest
  | [] => false

/-- A number below sixty, of one or two digits. -/
def isSixtieth : List Char → Bool
  | [a] => a.isDigit
  | [a, b] => '0' ≤ a && a ≤ '5' && b.isDigit
  | _ => false

variable (cs : List Char)

/-- A decimal integer without a sign that does not start with zero, sixtieths after it. -/
def isDecimal : Bool :=
  match Text.pieces ':' cs with
  | whole :: sixtieths => isWhole whole && whole.head? != some '0' && sixtieths.all isSixtieth
  | [] => false

/-- An integer: binary, octal, hexadecimal, or decimal with or without sixtieths. -/
def isInteger : Bool :=
  match (signOf cs).2 with
  | ['0'] => true
  | '0' :: 'b' :: c :: rest => areDigits 2 (c :: rest)
  | '0' :: 'x' :: c :: rest => areDigits 16 (c :: rest)
  | '0' :: rest => areDigits 8 rest
  | cs => isDecimal cs

/-- An exponent, which may be left out; its sign is not optional. -/
def isExponent : List Char → Bool
  | [] => true
  | mark :: sign :: rest =>
    (mark == 'e' || mark == 'E') && (sign == '+' || sign == '-') && !rest.isEmpty &&
      rest.all Char.isDigit
  | _ => false

def spanFraction : List Char × List Char :=
  cs.span fun c => c.isDigit || c == '_'

/-- A number with a point; with sixtieths it has no exponent. -/
def isReal : Bool :=
  let (_, rest) := signOf cs
  let (whole, rest') := rest.span (· != '.')
  match rest', Text.pieces ':' whole with
  | _ :: rest', [[]] =>
    let (fraction, rest') := spanFraction rest'
    rest.length == cs.length && isWhole fraction && isExponent rest'
  | _ :: rest', [whole] => isWhole whole && isExponent (spanFraction rest').2
  | _ :: rest', whole :: sixtieths =>
    isWhole whole && sixtieths.all isSixtieth && (spanFraction rest').2.isEmpty
  | _, _ => false

/-- A name for an infinity, or for the undefined number. -/
def isSpecial : Bool :=
  String.ofList (signOf cs).2 ∈ [".inf", ".Inf", ".INF"] ||
    String.ofList cs ∈ [".nan", ".NaN", ".NAN"]

/-! ### The form of a scalar -/

/-- A text without the line break that may end it, unless it is nothing else. -/
def dropBreak : List Char :=
  if 1 < cs.length && cs.getLast? == some '\n' then cs.dropLast else cs

/-- The form of a scalar; a line break at its end does not matter. -/
def kindOf (text : String) : Kind :=
  let cs := dropBreak text.toList
  let s := String.ofList cs
  if isNull s then .null
  else if s = "<<" then .merge
  else if s = "=" then .default
  else if (truth? s).isSome then .bool
  else if (Moment.ofText? cs).isSome then .moment
  else if isSpecial cs || isReal cs then .real
  else if isInteger cs then .int
  else .text

def languageTag (name : String) : String := "tag:yaml.org,2002:" ++ name

def Kind.name : Kind → String
  | .null => "null"
  | .bool => "bool"
  | .int => "int"
  | .real => "float"
  | .moment => "timestamp"
  | .merge => "merge"
  | .default => "value"
  | .text => "str"

def Kind.tag (kind : Kind) : String := languageTag kind.name

/-! ### Values -/

def withSign (negative : Bool) (n : Int) : Int := if negative then -n else n

def ofBase (base : Nat) (cs : List Char) : Except Fault Int :=
  match Number.ofTextIn? base (String.ofList cs) with
  | some n => .ok n
  | none => .error (.notInteger base (String.ofList cs))

def ofDecimal : Except Fault Int :=
  match Number.ofText (String.ofList cs) with
  | .ok n => .ok n
  | .error .malformed => .error (.notInteger 10 (String.ofList cs))
  | .error (.tooLong digits) => .error (.tooLong digits)

/-- The value of an integer without its sign; a part after a colon counts a sixtieth. -/
def ofDigits : List Char → Except Fault Int
  | [] => .error .noNumber
  | '0' :: 'b' :: rest => ofBase 2 rest
  | '0' :: 'x' :: rest => ofBase 16 rest
  | '0' :: rest => ofBase 8 ('0' :: rest)
  | cs => do return (← (Text.pieces ':' cs).mapM ofDecimal).foldl (fun n d => 60 * n + d) 0

def integer : Except Fault Int :=
  let (negative, cs) := signOf (cs.filter (· != '_'))
  (ofDigits cs).map (withSign negative)

def ofPointed : Except Fault Binary :=
  match Binary.ofText? (String.ofList cs) with
  | some r => .ok r
  | none => .error (.notReal (String.ofList cs))

/-- A sum of parts, each sixty times as much worth as the part before it. -/
def sixtyfold (base : Nat) (sum : Binary) : List Binary → Except Fault Binary
  | [] => .ok sum
  | part :: rest =>
    match Binary.ofDecimal false base 0 with
    | .infinite _ => .error .overflow
    | b => sixtyfold (60 * base) (sum.plus (part.times b)) rest

/-- The value of a number that may have a point, without its sign. -/
def magnitude : Except Fault Binary :=
  if String.ofList cs = ".inf" then .ok (.infinite false)
  else if String.ofList cs = ".nan" then .ok .undefined
  else
    match Text.pieces ':' cs with
    | [cs] => ofPointed cs
    | parts => do sixtyfold 1 (Binary.ofDecimal false 0 0) (← parts.mapM ofPointed).reverse

/-- The value of a number with a point; a part after a colon counts a sixtieth. -/
def real : Except Fault Binary :=
  match Text.lowered (cs.filter (· != '_')) with
  | [] => .error .noNumber
  | cs =>
    let (negative, cs) := signOf cs
    (magnitude cs).map fun r => if negative then r.opposite else r

def truth : Except Fault Bool :=
  match truth? (String.ofList (Text.lowered s.toList)) with
  | some b => .ok b
  | none => .error .notTruth

def moment : Except Fault Moment :=
  match Moment.ofLooseText? (dropBreak s.toList) with
  | none => .error .notMoment
  | some m =>
    match m.fault? with
    | some why => .error (.noMoment why)
    | none => .ok m

/-- Bytes, of which three are written as four characters. -/
def bytes : Except Fault (List UInt8) :=
  match Base64.decode? s.toList with
  | some bs => .ok bs
  | none => .error .malformed

def scalarValue (tag s : String) : Except Fault Value :=
  if tag = Kind.text.tag then .ok (.text s)
  else if tag = Kind.null.tag then .ok .null
  else if tag = Kind.bool.tag then (truth s).map .bool
  else if tag = Kind.int.tag then (integer s.toList).map .int
  else if tag = Kind.real.tag then (real s.toList).map .real
  else if tag = Kind.moment.tag then (moment s).map .moment
  else if tag = languageTag "binary" then (bytes s).map .bytes
  else .error .malformed

end ControlReach.Yaml
