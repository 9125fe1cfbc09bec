import ControlReach.Text.Blank

/-!
# Integers in texts

An optional sign followed by decimal digits, where one underscore may stand between two digits and
blanks at both ends. More than `digitLimit` digits are refused, whatever follows them.
-/

namespace ControlReach.Number

/-- Digits at the front of a text: their value, how many there are, and what follows. -/
structure Numeral where
  value : Nat
  count : Nat
  rest : List Char
  deriving DecidableEq, Repr

/-- The digits that follow some digits; an underscore has to stand before a digit. -/
def digitsFrom (value count : Nat) : List Char → Option Numeral
  | [] => some ⟨value, count, []⟩
  | '_' :: c :: rest =>
    (Text.digitValue? c).bind fun d => digitsFrom (10 * value + d) (count + 1) rest
  | c :: rest =>
    match Text.digitValue? c with
    | some d => digitsFrom (10 * value + d) (count + 1) rest
    | none => if c = '_' then none else some ⟨value, count, c :: rest⟩

def numeral? : List Char → Option Numeral
  | [] => none
  | c :: rest => (Text.digitValue? c).bind fun d => digitsFrom d 1 rest

/-- The number of digits that a number may have. -/
def digitLimit : Nat := 4300

/-- Why a text denotes no integer. -/
inductive NumeralFault where
  | malformed
  | tooLong (digits : Nat)
  deriving DecidableEq, Repr

def tooLongMessage (digits : Nat) : String :=
  "Exceeds the limit (" ++ toString digitLimit ++ " digits) for integer string conversion: " ++
    "value has " ++ toString digits ++
    " digits; use sys.set_int_max_str_digits() to increase the limit"

/-- The value of digits, with blanks after them. -/
def unsigned (cs : List Char) : Except NumeralFault Nat :=
  match numeral? cs with
  | none => .error .malformed
  | some n =>
    if digitLimit < n.count then .error (.tooLong n.count)
    else if n.rest.all Text.isBlank then .ok n.value
    else .error .malformed

/-- The value of an optional sign and digits, with blanks after them. -/
def signed : List Char → Except NumeralFault Int
  | '-' :: rest => (unsigned rest).map fun n => -(n : Int)
  | '+' :: rest => (unsigned rest).map Int.ofNat
  | cs => (unsigned cs).map Int.ofNat

def ofText (s : String) : Except NumeralFault Int := signed (s.toList.dropWhile Text.isBlank)

def ofText? (s : String) : Option Int := (ofText s).toOption

/-- The integer that bytes denote as the characters with their codes; only the first 128 count. -/
def ofBytes (bs : List UInt8) : Except NumeralFault Int :=
  ofText (String.ofList (bs.map fun b => if b < 0x80 then Char.ofNat b.toNat else '?'))

/-! ### Other bases -/

/-- The value of a digit; letters go on after nine. -/
def digitIn? (base : Nat) (c : Char) : Option Nat :=
  let n := c.toLower.toNat
  let d := (Text.digitValue? c).or (if 97 ≤ n && n ≤ 122 then some (n - 87) else none)
  d.filter (· < base)

def digitsIn? (base : Nat) (cs : List Char) : Option Nat :=
  if cs.isEmpty then none
  else (cs.mapM (digitIn? base)).map fun ds => ds.foldl (fun n d => base * n + d) 0

/-- The letter that may announce a base, after a zero. -/
def baseMark : Nat → Option Char
  | 2 => some 'b'
  | 8 => some 'o'
  | 16 => some 'x'
  | _ => none

def dropMark (base : Nat) : List Char → List Char
  | '0' :: c :: rest => if baseMark base = some c.toLower then rest else '0' :: c :: rest
  | cs => cs

def trimmed (cs : List Char) : List Char :=
  ((cs.dropWhile Text.isBlank).reverse.dropWhile Text.isBlank).reverse

/-- The integer that a text denotes in a base, which may be announced. -/
def ofTextIn? (base : Nat) (s : String) : Option Int :=
  match trimmed s.toList with
  | '-' :: rest => (digitsIn? base (dropMark base rest)).map fun n => -(n : Int)
  | '+' :: rest => (digitsIn? base (dropMark base rest)).map Int.ofNat
  | cs => (digitsIn? base (dropMark base cs)).map Int.ofNat

example : ofText? " +1_0 " = some 10 := by decide
example : ofText? "1__0" = none := by decide
example : ofText? "1_" = none := by decide
example : ofText? "--1" = none := by decide
example : ofTextIn? 8 "0o17" = some 15 := by decide
example : ofTextIn? 16 " -1F " = some (-31) := by decide
example : ofTextIn? 2 "0b" = none := by decide

end ControlReach.Number
