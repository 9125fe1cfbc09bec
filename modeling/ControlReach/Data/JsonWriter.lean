import ControlReach.Data.Value

/-!
# Writing JSON

Values are written in ASCII: every other character by the escapes of its UTF-16 code units.
-/

namespace ControlReach.Json

def unitEscape (n : Nat) : List Char := '\\' :: 'u' :: Text.hexPadded 4 n

def letterEscape? : Char → Option Char
  | '"' => some '"'
  | '\\' => some '\\'
  | '\n' => some 'n'
  | '\r' => some 'r'
  | '\t' => some 't'
  | '\x08' => some 'b'
  | '\x0c' => some 'f'
  | _ => none

def writeCode (n : Nat) : List Char :=
  if n < 0x7f then
    match letterEscape? (Char.ofNat n) with
    | some e => ['\\', e]
    | none => if 0x20 ≤ n then [Char.ofNat n] else unitEscape n
  else if n < 0x10000 then unitEscape n
  else unitEscape (0xd800 + (n - 0x10000) / 0x400) ++ unitEscape (0xdc00 + (n - 0x10000) % 0x400)

def quoteText (s : String) : String :=
  String.ofList ('"' :: (Text.codes s.toList).flatMap writeCode ++ ['"'])

def writeScalar : Value → String
  | .null => "null"
  | .bool b => if b then "true" else "false"
  | .int n => toString n
  | .real .undefined => "NaN"
  | .real (.infinite negative) => if negative then "-Infinity" else "Infinity"
  | .real r => r.text
  | .text s => quoteText s
  | .moment m => quoteText m.text
  | .bytes bs => quoteText (Text.quoteBytes bs)
  | .set members => quoteText (Value.set members).quoted
  | .list _ => "[]"
  | .object _ => "\x7b\x7d"

mutual

def compact : Value → String
  | .list items => "[" ++ Text.commaList (compactItems items) ++ "]"
  | .object fields => "\x7b" ++ Text.commaList (compactFields fields) ++ "\x7d"
  | v => writeScalar v

def compactItems : List Value → List String
  | [] => []
  | v :: rest => compact v :: compactItems rest

def compactFields : List (String × Value) → List String
  | [] => []
  | (k, v) :: rest => (quoteText k ++ ": " ++ compact v) :: compactFields rest

end

def margin (level : Nat) : String := String.ofList ('\n' :: List.replicate (2 * level) ' ')

def bracketed (opening closing : String) (level : Nat) (entries : List String) : String :=
  if entries.isEmpty then opening ++ closing
  else
    opening ++ margin (level + 1) ++ Text.join ("," ++ margin (level + 1)) entries ++
      margin level ++ closing

mutual

def indented (level : Nat) : Value → String
  | .list items => bracketed "[" "]" level (indentedItems (level + 1) items)
  | .object fields => bracketed "\x7b" "\x7d" level (indentedFields (level + 1) fields)
  | v => writeScalar v

def indentedItems (level : Nat) : List Value → List String
  | [] => []
  | v :: rest => indented level v :: indentedItems level rest

def indentedFields (level : Nat) : List (String × Value) → List String
  | [] => []
  | (k, v) :: rest => (quoteText k ++ ": " ++ indented level v) :: indentedFields level rest

end

end ControlReach.Json
