/-!
# Character codes

A text is a sequence of character codes. A character beyond the first 65536 is also written as a
pair of code units, and a document may hold half of such a pair alone; a half is held as two
characters, a mark and one for the half. Where a text has the mark itself, it is held twice.
-/

namespace ControlReach.Text

def isHalf (n : Nat) : Bool := 0xd800 ≤ n && n < 0xe000

/-- The code of the mark, which is the last of all codes. -/
def markCode : Nat := 0x10ffff

def mark : Char := Char.ofNat markCode

/-- The first of the characters that stand for halves after a mark. -/
def halfBase : Nat := 0x10f000

/-- The half that a character stands for after a mark. -/
def half? (c : Char) : Option Nat :=
  if halfBase ≤ c.toNat && c.toNat < halfBase + 0x800 then some (c.toNat - halfBase + 0xd800)
  else none

def ofCode (n : Nat) : List Char :=
  if isHalf n then [mark, Char.ofNat (halfBase + (n - 0xd800))]
  else if n = markCode then [mark, mark]
  else [Char.ofNat n]

def ofCodes (ns : List Nat) : List Char := ns.flatMap ofCode

def codes : List Char → List Nat
  | [] => []
  | [c] => [c.toNat]
  | c :: d :: rest =>
    if c = mark then
      if d = mark then markCode :: codes rest
      else
        match half? d with
        | some n => n :: codes rest
        | none => markCode :: codes (d :: rest)
    else c.toNat :: codes (d :: rest)

def ofChars (cs : List Char) : String := String.ofList (ofCodes (cs.map Char.toNat))

def hold (s : String) : String := ofChars s.toList

/-- The characters of a text that holds no halves. -/
def plain? (s : String) : Option String :=
  let ns := codes s.toList
  if ns.any isHalf then none else some (String.ofList (ns.map Char.ofNat))

end ControlReach.Text
