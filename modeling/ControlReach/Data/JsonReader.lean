import ControlReach.Assoc
import ControlReach.Data.Value

/-!
# Reading JSON

The JSON grammar, with the number names `NaN`, `Infinity` and `-Infinity`. A repeated key keeps its
first place and its last value. The depth of the recursion is bounded by the length of the text.
-/

namespace ControlReach.Json

open Number (Binary)

/-- Why a text is no document. -/
inductive Fault where
  | malformed
  | tooLong (digits : Nat)
  deriving DecidableEq, Repr

def isSpace (c : Char) : Bool := c == ' ' || c == '\t' || c == '\n' || c == '\r'

variable (cs : List Char)

def skip : List Char := cs.dropWhile isSpace

def hexDigit? (c : Char) : Option Nat :=
  if '0' ≤ c && c ≤ '9' then some (c.toNat - 48)
  else if 'a' ≤ c && c ≤ 'f' then some (c.toNat - 87)
  else if 'A' ≤ c && c ≤ 'F' then some (c.toNat - 55)
  else none

def hex4? (a b c d : Char) : Option Nat := do
  let a ← hexDigit? a
  let b ← hexDigit? b
  let c ← hexDigit? c
  let d ← hexDigit? d
  return ((a * 16 + b) * 16 + c) * 16 + d

def escape? : Char → Option Char
  | '"' => some '"'
  | '\\' => some '\\'
  | '/' => some '/'
  | 'b' => some '\x08'
  | 'f' => some '\x0c'
  | 'n' => some '\n'
  | 'r' => some '\r'
  | 't' => some '\t'
  | _ => none

/-- A string literal after its opening quote: its characters and what follows the closing quote. -/
def readText : List Char → Option (List Char × List Char)
  | [] => none
  | '"' :: rest => some ([], rest)
  | '\\' :: 'u' :: a :: b :: c :: d :: '\\' :: 'u' :: a' :: b' :: c' :: d' :: rest =>
    match hex4? a b c d, hex4? a' b' c' d' with
    | some hi, some lo =>
      if 0xd800 ≤ hi && hi < 0xdc00 && 0xdc00 ≤ lo && lo < 0xe000 then
        let code := 0x10000 + (hi - 0xd800) * 0x400 + (lo - 0xdc00)
        (readText rest).map fun p => (Text.ofCode code ++ p.1, p.2)
      else
        (readText ('\\' :: 'u' :: a' :: b' :: c' :: d' :: rest)).map
          fun p => (Text.ofCode hi ++ p.1, p.2)
    | _, _ => none
  | '\\' :: 'u' :: a :: b :: c :: d :: rest =>
    (hex4? a b c d).bind fun n => (readText rest).map fun p => (Text.ofCode n ++ p.1, p.2)
  | '\\' :: c :: rest =>
    (escape? c).bind fun e => (readText rest).map fun p => (e :: p.1, p.2)
  | c :: rest =>
    if c.toNat < 0x20 then none
    else (readText rest).map fun p => (Text.ofCode c.toNat ++ p.1, p.2)

def spanDigits : List Char × List Char := cs.span Char.isDigit

def natOf (ds : List Char) : Nat := ds.foldl (fun n c => 10 * n + (c.toNat - 48)) 0

def readFraction : List Char → List Char × List Char
  | '.' :: rest =>
    match spanDigits rest with
    | ([], _) => ([], '.' :: rest)
    | (ds, rest) => (ds, rest)
  | cs => ([], cs)

def readExponentDigits (negative : Bool) (cs : List Char) : Option (Int × List Char) :=
  match spanDigits cs with
  | ([], _) => none
  | (ds, rest) => some (if negative then -(natOf ds : Int) else natOf ds, rest)

def readExponent : List Char → Option (Int × List Char)
  | c :: rest =>
    if c == 'e' || c == 'E' then
      match rest with
      | '-' :: rest => readExponentDigits true rest
      | '+' :: rest => readExponentDigits false rest
      | rest => readExponentDigits false rest
    else none
  | [] => none

/-- An integer part without superfluous zeros. -/
def readWhole : List Char → Option (List Char × List Char)
  | '0' :: rest => some (['0'], rest)
  | cs =>
    match spanDigits cs with
    | ([], _) => none
    | r => some r

def readNumber (negative : Bool) (cs : List Char) : Except Fault (Value × List Char) :=
  match readWhole cs with
  | none => .error .malformed
  | some (whole, rest) =>
    let (fraction, rest) := readFraction rest
    match readExponent rest with
    | some (e, rest) =>
      let value := Binary.ofDecimal negative (natOf (whole ++ fraction)) (e - fraction.length)
      .ok (.real value, rest)
    | none =>
      if !fraction.isEmpty then
        let value := Binary.ofDecimal negative (natOf (whole ++ fraction)) (-fraction.length)
        .ok (.real value, rest)
      else if Number.digitLimit < whole.length then .error (.tooLong whole.length)
      else .ok (.int (if negative then -(natOf whole : Int) else natOf whole), rest)

def after? : List Char → List Char → Option (List Char)
  | [], cs => some cs
  | w :: ws, c :: cs => if w == c then after? ws cs else none
  | _ :: _, [] => none

def readScalar : Except Fault (Value × List Char) :=
  match after? "null".toList cs with
  | some rest => .ok (.null, rest)
  | none =>
  match after? "true".toList cs with
  | some rest => .ok (.bool true, rest)
  | none =>
  match after? "false".toList cs with
  | some rest => .ok (.bool false, rest)
  | none =>
  match after? "NaN".toList cs with
  | some rest => .ok (.real .undefined, rest)
  | none =>
  match after? "Infinity".toList cs with
  | some rest => .ok (.real (.infinite false), rest)
  | none =>
  match after? "-Infinity".toList cs with
  | some rest => .ok (.real (.infinite true), rest)
  | none =>
  match cs with
  | '-' :: rest => readNumber true rest
  | cs => readNumber false cs

def readKey : Option (String × List Char) :=
  match skip cs with
  | '"' :: rest =>
    match readText rest with
    | some (key, rest) =>
      match skip rest with
      | ':' :: rest => some (String.ofList key, rest)
      | _ => none
    | none => none
  | _ => none

mutual

def readValue : Nat → List Char → Except Fault (Value × List Char)
  | 0, _ => .error .malformed
  | fuel + 1, cs =>
    match skip cs with
    | '"' :: rest =>
      match readText rest with
      | some (text, rest) => .ok (.text (String.ofList text), rest)
      | none => .error .malformed
    | '[' :: rest =>
      match skip rest with
      | ']' :: rest => .ok (.list [], rest)
      | rest => (readItems fuel rest).map fun p => (.list p.1, p.2)
    | '\x7b' :: rest =>
      match skip rest with
      | '\x7d' :: rest => .ok (.object [], rest)
      | rest => (readFields fuel [] rest).map fun p => (.object p.1, p.2)
    | rest => readScalar rest

def readItems : Nat → List Char → Except Fault (List Value × List Char)
  | 0, _ => .error .malformed
  | fuel + 1, cs =>
    match readValue fuel cs with
    | .error fault => .error fault
    | .ok (v, rest) =>
      match skip rest with
      | ',' :: rest => (readItems fuel rest).map fun p => (v :: p.1, p.2)
      | ']' :: rest => .ok ([v], rest)
      | _ => .error .malformed

def readFields : Nat → List (String × Value) → List Char →
    Except Fault (List (String × Value) × List Char)
  | 0, _, _ => .error .malformed
  | fuel + 1, done, cs =>
    match readKey cs with
    | none => .error .malformed
    | some (key, rest) =>
      match readValue fuel rest with
      | .error fault => .error fault
      | .ok (v, rest) =>
        let done := Assoc.set key v done
        match skip rest with
        | ',' :: rest => readFields fuel done rest
        | '\x7d' :: rest => .ok (done, rest)
        | _ => .error .malformed

end

def ofText (s : String) : Except Fault Value :=
  match readValue (s.length + 1) s.toList with
  | .ok (v, rest) => if (skip rest).isEmpty then .ok v else .error .malformed
  | .error fault => .error fault

def ofText? (s : String) : Option Value := (ofText s).toOption

end ControlReach.Json
