import ControlReach.Text.Quoted

/-!
# String values

A constant is read through an escape syntax: `\u{h}` with one to five hexadecimal digits and
`\uhhhh` with exactly four stand for one character, if its code is at most `0x2ffff`; everything
else stands for itself. A value is shown in the same syntax.
-/

namespace ControlReach

/-- A sequence of character codes. -/
abbrev StringValue := List Nat

namespace StringValue

def maxCode : Nat := 0x2ffff

def escape (n : Nat) : List Char := '\\' :: 'u' :: '\x7b' :: Nat.toDigits 16 n ++ ['\x7d']

/-- A character as the solver receives it: printable ASCII as it is, all else escaped. -/
def submit (n : Nat) : List Char :=
  if 32 ≤ n && n < 127 then [Char.ofNat n] else escape n

def digit? (c : Char) : Option Nat :=
  if '0' ≤ c && c ≤ '9' then some (c.toNat - 48)
  else if 'a' ≤ c && c ≤ 'f' then some (c.toNat - 87)
  else if 'A' ≤ c && c ≤ 'F' then some (c.toNat - 55)
  else none

/-- The value of some hexadecimal digits, if all are digits and there is at least one. -/
def number? (ds : List Char) : Option Nat :=
  if ds.isEmpty then none
  else ds.foldl (fun n c => n.bind fun n => (digit? c).map fun d => 16 * n + d) (some 0)

/-- A braced escape after its opening brace: the code and the number of characters. -/
def braced? (cs : List Char) : Option (Nat × Nat) :=
  let ds := (cs.take 6).takeWhile (· ≠ '\x7d')
  if ds.length < 6 && ds.length < cs.length then
    (number? ds).bind fun n => if n ≤ maxCode then some (n, ds.length + 1) else none
  else none

/-- An escape after its backslash: the code and the number of characters after the backslash. -/
def escape? : List Char → Option (Nat × Nat)
  | 'u' :: '\x7b' :: rest => (braced? rest).map fun (n, k) => (n, k + 2)
  | 'u' :: a :: b :: c :: d :: _ => (number? [a, b, c, d]).map fun n => (n, 5)
  | _ => none

/-- Read the submitted characters; `skip` of them belong to an escape already read. -/
def read : Nat → List Char → StringValue
  | _, [] => []
  | skip + 1, _ :: rest => read skip rest
  | 0, c :: rest =>
    if c = '\\' then
      match escape? rest with
      | some (n, k) => n :: read k rest
      | none => c.toNat :: read 0 rest
    else c.toNat :: read 0 rest

def ofText (s : String) : StringValue := read 0 ((Text.codes s.toList).flatMap submit)

/-- The characters that show a value: codes up to 255 as they are, except zero and a backslash that
would start an escape. -/
def write : StringValue → List Char
  | [] => []
  | n :: rest =>
    if n = 0 || 255 < n || (n = 92 && rest.head? == some 117) then escape n ++ write rest
    else Char.ofNat n :: write rest

def toText (v : StringValue) : String := String.ofList (write v)

end StringValue

end ControlReach
