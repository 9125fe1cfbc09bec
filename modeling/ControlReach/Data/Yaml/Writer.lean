import ControlReach.Data.JsonWriter
import ControlReach.Data.Yaml.Scalar

/-!
# Writing YAML scalars

A text is written as it is if it then reads back as that text, else between single quotes, and
between double quotes if it holds characters that need an escape.
-/

namespace ControlReach.Yaml

/-- How a text is written. -/
inductive Style where
  | plain
  | single
  | double
  deriving DecidableEq, Repr

def isGap (c : Char) : Bool := c ∈ [' ', '\t', '\n', '\r', '\x00', '\x85', '\u2028', '\u2029']

def startsMark : List Char → Bool
  | '-' :: '-' :: '-' :: _ => true
  | '.' :: '.' :: '.' :: _ => true
  | _ => false

/-- A text is no plain scalar if it goes on like this; `before` is the character before. -/
def breaksPlain (before : Option Char) : List Char → Bool
  | [] => false
  | c :: rest =>
    let gapAfter := match rest with
      | [] => true
      | d :: _ => isGap d
    let here := match before with
      | none =>
        c ∈ ['#', ',', '[', ']', '\x7b', '\x7d', '&', '*', '!', '|', '>', '\'', '"', '%', '@',
          '\x60'] || (c ∈ ['?', ':', '-'] && gapAfter)
      | some b => (c == ':' && gapAfter) || (c == '#' && isGap b)
    here || breaksPlain (some c) rest

/-- A character that needs an escape; among these are all that hold codes of another kind. -/
def needsEscape (c : Char) : Bool := !(c == '\n' || (0x20 ≤ c.toNat && c.toNat ≤ 0x7e))

/-- A blank and a line break stand side by side. -/
def blankAtBreak : List Char → Bool
  | a :: b :: rest => (a == ' ' && b == '\n') || (a == '\n' && b == ' ') || blankAtBreak (b :: rest)
  | _ => false

def styleOf (s : String) : Style :=
  let cs := s.toList
  let opening := cs.head?.any fun c => c == ' ' || c == '\n'
  let closing := cs.getLast?.any fun c => c == ' ' || c == '\n'
  if cs.any needsEscape || blankAtBreak cs then .double
  else if opening || closing || '\n' ∈ cs || startsMark cs || breaksPlain none cs ||
      kindOf s != .text then .single
  else .plain

def letterFor? : Nat → Option Char
  | 0x00 => some '0'
  | 0x07 => some 'a'
  | 0x08 => some 'b'
  | 0x09 => some 't'
  | 0x0a => some 'n'
  | 0x0b => some 'v'
  | 0x0c => some 'f'
  | 0x0d => some 'r'
  | 0x1b => some 'e'
  | 0x22 => some '"'
  | 0x5c => some '\\'
  | 0x85 => some 'N'
  | 0xa0 => some '_'
  | 0x2028 => some 'L'
  | 0x2029 => some 'P'
  | _ => none

/-- The escape of a code between double quotes, if it needs one. -/
def escapeOf? (n : Nat) : Option (List Char) :=
  match letterFor? n with
  | some letter => some ['\\', letter]
  | none =>
    if 0x20 ≤ n && n ≤ 0x7e then none
    else
      let (mark, width) := if n ≤ 0xff then ('x', 2) else if n ≤ 0xffff then ('u', 4) else ('U', 8)
      some ('\\' :: mark :: (Text.hexPadded width n).map Char.toUpper)

def lineWidth : Nat := 80

def below (margin : Nat) : List Char := '\n' :: List.replicate margin ' '

/-- Write characters at a column, breaking lines at single blanks past the width. -/
def fill (quoted : Bool) (margin : Nat) (before : Option Char) (column : Nat) :
    List Char → List Char
  | [] => []
  | c :: rest =>
    if c = ' ' then
      let single := before.any (· != ' ') && rest.head?.any (· != ' ')
      if single && lineWidth < column then below margin ++ fill quoted margin (some c) margin rest
      else c :: fill quoted margin (some c) (column + 1) rest
    else if c = '\n' then
      let first := if before.all (· != '\n') then ['\n'] else []
      let last := if rest.head?.all (· != '\n') then below margin else ['\n']
      first ++ last ++ fill quoted margin (some c) margin rest
    else if quoted && c = '\'' then '\'' :: '\'' :: fill quoted margin (some c) (column + 2) rest
    else c :: fill quoted margin (some c) (column + 1) rest

/-- A line that goes on below: its end is marked, and so is a blank that comes first below. -/
def goesOn (margin : Nat) (next : Option Nat) : List Char :=
  '\\' :: below margin ++ if next = some 0x20 then ['\\'] else []

def columnBelow (margin : Nat) (next : Option Nat) : Nat :=
  if next = some 0x20 then margin + 1 else margin

/-- Write codes at a column between double quotes, breaking lines past the width at blanks and
beside escapes. `first`: nothing is written yet; `fresh`: an escape was written last. -/
def fillEscaped (margin : Nat) (first fresh : Bool) (column : Nat) : List Nat → List Char
  | [] => []
  | n :: rest =>
    let inside := !first && !rest.isEmpty
    match escapeOf? n with
    | some escape =>
      let column := column + escape.length
      if inside && lineWidth + 1 < column then
        escape ++ goesOn margin rest.head? ++
          fillEscaped margin false true (columnBelow margin rest.head?) rest
      else escape ++ fillEscaped margin false true column rest
    | none =>
      if inside && (n == 0x20 || fresh) && lineWidth < column then
        goesOn margin (some n) ++
          Char.ofNat n :: fillEscaped margin false false (columnBelow margin (some n) + 1) rest
      else Char.ofNat n :: fillEscaped margin false false (column + 1) rest

def writeText (margin column : Nat) (s : String) : String :=
  match styleOf s with
  | .plain => String.ofList (fill false margin none column s.toList)
  | .single => String.ofList ('\'' :: fill true margin none (column + 1) s.toList ++ ['\''])
  | .double =>
    String.ofList
      ('"' :: fillEscaped margin true false (column + 1) (Text.codes s.toList) ++ ['"'])

/-- The digits of a number with an exponent always have a point. -/
def pointedText (s : String) : String :=
  if s.toList.contains '.' then s
  else String.ofList (s.toList.flatMap fun c => if c = 'e' then ['.', '0', 'e'] else [c])

def writeScalar (margin column : Nat) : Value → String
  | .text s => writeText margin column s
  | .moment m => m.text
  | .real .undefined => ".nan"
  | .real (.infinite negative) => if negative then "-.inf" else ".inf"
  | .real r => pointedText r.text
  | v => Json.writeScalar v

end ControlReach.Yaml
