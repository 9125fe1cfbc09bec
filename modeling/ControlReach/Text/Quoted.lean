import ControlReach.Text.Code
import ControlReach.Text.Printable

/-!
# Quoted texts

A text inside a message is shown between single quotes, or double ones when it holds a single quote
and no double one. The quote in use and the backslash are escaped by a backslash, the common
controls by their letter, and every other character without a printed form by its code.
-/

namespace ControlReach.Text

def hexPadded (width n : Nat) : List Char :=
  let digits := Nat.toDigits 16 n
  List.replicate (width - digits.length) '0' ++ digits

def quoteCode (q : Char) (n : Nat) : List Char :=
  if n = q.toNat || n = '\\'.toNat then ['\\', Char.ofNat n]
  else if n = '\n'.toNat then ['\\', 'n']
  else if n = '\r'.toNat then ['\\', 'r']
  else if n = '\t'.toNat then ['\\', 't']
  else if isPrintable n then [Char.ofNat n]
  else if n < 0x100 then '\\' :: 'x' :: hexPadded 2 n
  else if n < 0x10000 then '\\' :: 'u' :: hexPadded 4 n
  else '\\' :: 'U' :: hexPadded 8 n

def quoteMark (s : String) : Char :=
  if s.toList.contains '\'' && !s.toList.contains '"' then '"' else '\''

def quote (s : String) : String :=
  let q := quoteMark s
  String.ofList (q :: (codes s.toList).flatMap (quoteCode q) ++ [q])

def quoteByte (q : Char) (b : UInt8) : List Char :=
  let n := b.toNat
  if n < 0x7f then quoteCode q n else '\\' :: 'x' :: hexPadded 2 n

/-- Bytes between quotes, after the letter that tells them from a text. -/
def quoteBytes (bs : List UInt8) : String :=
  let q := if 0x27 ∈ bs && 0x22 ∉ bs then '"' else '\''
  String.ofList ('b' :: q :: bs.flatMap (quoteByte q) ++ [q])

def join (sep : String) : List String → String
  | [] => ""
  | [s] => s
  | s :: rest => s ++ sep ++ join sep rest

def commaList (items : List String) : String := join ", " items

def quotedList (items : List String) : String := "[" ++ commaList (items.map quote) ++ "]"

end ControlReach.Text
