import ControlReach.Number.Binary
import ControlReach.Number.Integer

/-!
# Numbers with fractions in texts

An optional sign followed by digits, among which there may be a point, and perhaps an exponent; or a
word for infinity or the undefined number.
-/

namespace ControlReach.Number

def spanDigits : List Char → List Nat × List Char
  | [] => ([], [])
  | c :: rest =>
    match Text.digitValue? c with
    | some d => (d :: (spanDigits rest).1, (spanDigits rest).2)
    | none => ([], c :: rest)

def decimalValue (ds : List Nat) : Nat := ds.foldl (fun n d => 10 * n + d) 0

def spanSign : List Char → Bool × List Char
  | '-' :: rest => (true, rest)
  | '+' :: rest => (false, rest)
  | cs => (false, cs)

/-- The value of an exponent through the end of a text; without one it is zero. -/
def exponent? : List Char → Option Int
  | [] => some 0
  | 'e' :: rest =>
    let (negative, rest) := spanSign rest
    match spanDigits rest with
    | ([], _) => none
    | (ds, []) => some (if negative then -(decimalValue ds : Int) else decimalValue ds)
    | _ => none
  | _ => none

def spanPoint : List Char → List Nat × List Char
  | '.' :: rest => spanDigits rest
  | cs => ([], cs)

/-- The value of digits with a point and an exponent, or without them. -/
def Binary.ofDigits? (negative : Bool) (cs : List Char) : Option Binary := do
  let (whole, rest) := spanDigits cs
  let (fraction, rest) := spanPoint rest
  let e ← exponent? rest
  if whole.isEmpty && fraction.isEmpty then none
  else return ofDecimal negative (decimalValue (whole ++ fraction)) (e - fraction.length)

def Binary.ofText? (s : String) : Option Binary :=
  let (negative, cs) := spanSign ((trimmed s.toList).map Char.toLower)
  if String.ofList cs ∈ ["inf", "infinity"] then some (.infinite negative)
  else if String.ofList cs = "nan" then some .undefined
  else ofDigits? negative cs

example : Binary.ofText? " 1e3 " = Binary.ofText? "1000" := by decide +kernel
example : Binary.ofText? "-.5E+1" = some (Binary.ofDecimal true 5 0) := by decide +kernel
example : Binary.ofText? "." = none := by decide +kernel
example : Binary.ofText? "1e" = none := by decide +kernel

end ControlReach.Number
