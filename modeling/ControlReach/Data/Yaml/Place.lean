import ControlReach.Data.Yaml.Fault

/-!
# Places in a text

Columns and lines decide what a YAML text means, so reading goes from place to place. To ask for a
character after the last one is to meet the fault that stands there, if any.
-/

namespace ControlReach.Yaml

def isBreak (c : Char) : Bool := c == '\n' || c == '\u2028' || c == '\u2029'

/-- A text in which other ways to end a line have become the usual one. -/
def plainBreaks : List Char → List Char
  | [] => []
  | '\r' :: '\n' :: rest => '\n' :: plainBreaks rest
  | c :: rest => (if c == '\r' || c == '\x85' then '\n' else c) :: plainBreaks rest

def isAllowed (c : Char) : Bool :=
  let n := c.toNat
  n == 9 || n == 10 || n == 13 || (0x20 ≤ n && n ≤ 0x7e) || n == 0x85 || (0xa0 ≤ n && n ≤ 0xd7ff) ||
    (0xe000 ≤ n && n ≤ 0xfffd) || 0x10000 ≤ n

def isSpace (c : Char) : Bool := c == ' ' || c == '\t'

/-- A blank, a tab, a line break or the end of the text. -/
def endsWord : Option Char → Bool
  | none => true
  | some c => isSpace c || isBreak c

def endsLine : Option Char → Bool
  | none => true
  | some c => isBreak c

/-- Three hyphens or three dots that stand alone. -/
def startsMarker : List Char → Bool
  | '-' :: '-' :: '-' :: rest => endsWord rest.head?
  | '.' :: '.' :: '.' :: rest => endsWord rest.head?
  | _ => false

/-- A position in a text, with the characters that are left. -/
structure Place where
  rest : List Char
  /-- The fault that comes after them. -/
  ending : Option Fault := none
  /-- The number of characters in the text. -/
  size : Nat := rest.length
  index : Nat := 0
  line : Nat := 0
  column : Nat := 0

namespace Place

variable (p : Place)

def room : Nat := p.size - p.index

def peek? : Option Char := p.rest.head?

/-- The place after the next character. A byte order mark takes no room on its line. -/
def next : Place :=
  match p.rest with
  | [] => p
  | c :: rest =>
    let column := if isBreak c then 0 else if c == '\ufeff' then p.column else p.column + 1
    let line := if isBreak c then p.line + 1 else p.line
    { p with rest, index := p.index + 1, line, column }

def skip (p : Place) : Nat → Place
  | 0 => p
  | n + 1 => p.next.skip n

/-- The characters that come first and have a property, and the place after them. -/
def span (has : Char → Bool) : List Char × Place :=
  let taken := p.rest.takeWhile has
  (taken, p.skip taken.length)

def skipWhile (has : Char → Bool) : Place := (p.span has).2

/-- A line starts here with a mark between documents. -/
def atMarker : Bool := p.column == 0 && startsMarker p.rest

/-- The fault that comes before there are as many characters as asked for. -/
def unread? (count : Nat) : Option Fault :=
  if (p.rest.take count).length < count then p.ending else none

def demand (count : Nat) : Except Fault Unit :=
  match p.unread? count with
  | some fault => .error fault
  | none => .ok ()

/-- Ask for the start of a line, as far as a mark between documents could go. -/
def demandLine : Except Fault Unit := do
  p.demand (3 - p.column)
  if p.atMarker then p.demand 4

def refuse : Fault := (p.unread? 1).getD .malformed

/-- The place after a comment, if one starts here; its line is not left. -/
def skipComment : Place :=
  if p.peek? = some '#' then p.skipWhile (!isBreak ·) else p

end Place

end ControlReach.Yaml
