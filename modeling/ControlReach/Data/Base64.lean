/-!
# Bytes in 64 characters

Each character stands for six bits, and equals signs fill up the last group of four. Other
characters are passed over, and so is everything after a group that is filled up.
-/

namespace ControlReach.Base64

def sextet? (c : Char) : Option Nat :=
  if 'A' ≤ c && c ≤ 'Z' then some (c.toNat - 65)
  else if 'a' ≤ c && c ≤ 'z' then some (c.toNat - 97 + 26)
  else if '0' ≤ c && c ≤ '9' then some (c.toNat - 48 + 52)
  else if c = '+' then some 62
  else if c = '/' then some 63
  else none

/-- An incomplete group: how many characters, the bits left of them, and the equals signs at its
end. -/
structure Group where
  size : Nat := 0
  left : Nat := 0
  fill : Nat := 0

/-- The bytes of the characters after those of a group, if the last group is complete or filled up.
-/
def decodeFrom (g : Group) : List Char → Option (List UInt8)
  | [] => if g.size = 0 then some [] else none
  | c :: rest =>
    if c = '=' then
      if g.size < 2 then decodeFrom g rest
      else if 4 ≤ g.size + g.fill + 1 then some []
      else decodeFrom { g with fill := g.fill + 1 } rest
    else
      match sextet? c with
      | none => decodeFrom g rest
      | some b =>
        match g.size with
        | 0 => decodeFrom ⟨1, b, 0⟩ rest
        | 1 => (decodeFrom ⟨2, b % 16, 0⟩ rest).map (UInt8.ofNat (4 * g.left + b / 16) :: ·)
        | 2 => (decodeFrom ⟨3, b % 4, 0⟩ rest).map (UInt8.ofNat (16 * g.left + b / 4) :: ·)
        | _ => (decodeFrom {} rest).map (UInt8.ofNat (64 * g.left + b) :: ·)

def decode? (cs : List Char) : Option (List UInt8) :=
  if cs.all (·.toNat < 128) then decodeFrom {} cs else none

example : decode? "aGk=".toList = some [104, 105] := by decide
example : decode? "a G\nk=zz".toList = some [104, 105] := by decide
example : decode? "aGk".toList = none := by decide

end ControlReach.Base64
