import ControlReach.Data.JsonReader
import ControlReach.Data.Yaml.Place
import ControlReach.Data.Yaml.Token

/-!
# Scalars and names in a text

Every reader starts at a place and gives the place after what it has read.
-/

namespace ControlReach.Yaml

/-! ### Line breaks -/

/-- Go over blanks and line breaks, from the start of a line, but over no mark between documents. -/
def lineBreaks (blank : Char → Bool) : Nat → Place → List Char × Place
  | 0, p => ([], p)
  | fuel + 1, p =>
    if p.atMarker then ([], p)
    else
      let p := p.skipWhile blank
      match p.peek? with
      | some c =>
        if isBreak c then
          let (more, p) := lineBreaks blank fuel p.next
          (c :: more, p)
        else ([], p)
      | none => ([], p)

/-- What line breaks inside a scalar stand for: one for a blank, several for all but the first. -/
def folded (first : Char) (more : List Char) : List Char :=
  if first != '\n' then first :: more else if more.isEmpty then [' '] else more

/-! ### Quoted scalars -/

def escape? : Char → Option Char
  | '0' => some '\x00'
  | 'a' => some '\x07'
  | 'b' => some '\x08'
  | 't' => some '\t'
  | '\t' => some '\t'
  | 'n' => some '\n'
  | 'v' => some '\x0b'
  | 'f' => some '\x0c'
  | 'r' => some '\r'
  | 'e' => some '\x1b'
  | ' ' => some ' '
  | '"' => some '"'
  | '\\' => some '\\'
  | '/' => some '/'
  | 'N' => some '\x85'
  | '_' => some '\xa0'
  | 'L' => some '\u2028'
  | 'P' => some '\u2029'
  | _ => none

/-- How many hexadecimal digits follow the letter of an escape. -/
def codeWidth? : Char → Option Nat
  | 'x' => some 2
  | 'u' => some 4
  | 'U' => some 8
  | _ => none

/-- The value of as many hexadecimal digits as asked for, and the place after them. -/
def readCode : Nat → Nat → Place → Except Fault (Nat × Place)
  | 0, done, p => .ok (done, p)
  | width + 1, done, p =>
    match p.peek?.bind Json.hexDigit? with
    | some d => readCode width (16 * done + d) p.next
    | none => .error p.refuse

def character (code : Nat) : Except Fault (List Char) :=
  if code < 0x110000 then .ok (Text.ofCode code)
  else if code < 0x80000000 then .error .noCharacter
  else .error .overflow

def readEscape (fuel : Nat) (p : Place) : Except Fault (List Char × Place) :=
  match p.peek? with
  | none => .error p.refuse
  | some c =>
    match escape? c with
    | some e => .ok ([e], p.next)
    | none =>
      match codeWidth? c with
      | some width => do
        let (code, p) ← readCode width 0 p.next
        return (← character code, p)
      | none =>
        if isBreak c then do
          let (breaks, p) := lineBreaks isSpace fuel p.next
          p.demandLine
          if p.atMarker then .error .malformed else .ok (breaks, p)
        else .error .malformed

/-- A scalar between quotes, after the opening one; what is read comes last character first. -/
def readQuoted (double : Bool) : Nat → List Char → Place → Except Fault (String × Place)
  | 0, _, _ => .error .malformed
  | fuel + 1, done, p =>
    match p.rest with
    | [] => .error p.refuse
    | c :: rest =>
      if isSpace c || isBreak c then
        let (blanks, p) := p.span isSpace
        match p.peek? with
        | none => .error p.refuse
        | some d =>
          if isBreak d then do
            let (more, p) := lineBreaks isSpace p.room p.next
            p.demandLine
            if p.atMarker then .error .malformed
            else readQuoted double fuel ((folded d more).reverse ++ done) p
          else readQuoted double fuel (blanks.reverse ++ done) p
      else if c = (if double then '"' else '\'') then
        if !double && rest.head? = some '\'' then readQuoted double fuel ('\'' :: done) (p.skip 2)
        else .ok (String.ofList done.reverse, p.next)
      else if double && c = '\\' then
        match readEscape p.room p.next with
        | .ok (meant, p) => readQuoted double fuel (meant.reverse ++ done) p
        | .error fault => .error fault
      else readQuoted double fuel ((Text.ofCode c.toNat).reverse ++ done) p.next

/-! ### Plain scalars -/

/-- Brackets and commas mean something inside brackets. -/
def isFlowMark (c : Char) : Bool := c ∈ [',', '[', ']', '\x7b', '\x7d']

/-- The characters at the front that can stand in a plain scalar. -/
def plainRun (flow : Bool) : List Char → List Char
  | [] => []
  | c :: rest =>
    if isSpace c || isBreak c || (flow && (isFlowMark c || c == '?')) ||
        (c == ':' && (endsWord rest.head? || flow && rest.head?.any isFlowMark)) then []
    else c :: plainRun flow rest

def startsPlain (flow : Bool) : List Char → Bool
  | [] => false
  | c :: rest =>
    if c ∈ ['-', '?', ':', ',', '[', ']', '\x7b', '\x7d', '#', '&', '*', '!', '|', '>', '\'', '"',
        '%', '@', '\x60'] || isSpace c || isBreak c then
      !endsWord rest.head? && (c == '-' || !flow && (c == '?' || c == ':'))
    else true

variable (p : Place)

/-- What stands between two parts of a plain scalar; nothing if the scalar ends. -/
def plainGap : Except Fault (List Char × Place × Bool) :=
  let (blanks, p) := p.span (· == ' ')
  if p.peek?.any isBreak then do
    let (more, next) := lineBreaks (· == ' ') p.room p.next
    next.demandLine
    return (if next.atMarker then [] else folded (p.peek?.getD '\n') more, next, true)
  else .ok (blanks, p, false)

/-- A plain scalar, of which `done` is read, last character first, and `gap` stands before the
place. -/
def readPlain (flow : Bool) (margin : Nat) :
    Nat → List Char → List Char → Bool → Place → Except Fault (String × Place × Bool)
  | 0, done, _, crossed, p => .ok (Text.ofChars done.reverse, p, crossed)
  | fuel + 1, done, gap, crossed, p => do
    let run := plainRun flow p.rest
    let after := p.skip run.length
    if after.peek? = some ':' then after.demand 2
    if run.isEmpty then return (Text.ofChars done.reverse, p, crossed)
    else
      let done := run.reverse ++ (gap.reverse ++ done)
      let (gap, p, crossed) ← plainGap after
      if gap.isEmpty || p.peek? = some '#' || (!flow && p.column < margin) then
        return (Text.ofChars done.reverse, p, crossed)
      else readPlain flow margin fuel done gap crossed p

/-! ### Block scalars -/

/-- What becomes of the line breaks at the end of a block scalar. -/
inductive Chomp where
  | strip
  | clip
  | keep
  deriving DecidableEq, Repr

def chomp? : Option Char → Option Chomp
  | some '+' => some .keep
  | some '-' => some .strip
  | _ => none

/-- A mark for the indentation of a block scalar. -/
def increment? : Option Char → Option Nat
  | some c => if c.isDigit then some (c.toNat - 48) else none
  | none => none

def readMarks : Chomp × Option Nat × Place :=
  match chomp? p.peek? with
  | some chomp =>
    match increment? p.next.peek? with
    | some n => (chomp, some n, p.skip 2)
    | none => (chomp, none, p.next)
  | none =>
    match increment? p.peek? with
    | some n =>
      match chomp? p.next.peek? with
      | some chomp => (chomp, some n, p.skip 2)
      | none => (.clip, some n, p.next)
    | none => (.clip, none, p)

/-- The rest of a line that holds nothing more but a comment, and its end. -/
def readLineEnd : Except Fault Place :=
  let p := (p.skipWhile (· == ' ')).skipComment
  if endsLine p.peek? then .ok p.next else .error p.refuse

def indentTo (column : Nat) : Nat → Place → Place
  | 0, p => p
  | fuel + 1, p =>
    if p.column < column && p.peek? = some ' ' then indentTo column fuel p.next else p

/-- The empty lines of a block scalar, and the place of the next line at the column. -/
def emptyLines (column : Nat) : Nat → Place → List Char × Place
  | 0, p => ([], p)
  | fuel + 1, p =>
    let p := indentTo column column p
    match p.peek? with
    | some c =>
      if isBreak c then
        let (more, p) := emptyLines column fuel p.next
        (c :: more, p)
      else ([], p)
    | none => ([], p)

/-- The empty lines at the start of a block scalar, the greatest column, and the first line. -/
def leadingLines (deepest : Nat) : Nat → Place → List Char × Nat × Place
  | 0, p => ([], deepest, p)
  | fuel + 1, p =>
    match p.peek? with
    | some c =>
      if c = ' ' then leadingLines (max deepest p.next.column) fuel p.next
      else if isBreak c then
        let (more, deepest, p) := leadingLines deepest fuel p.next
        (c :: more, deepest, p)
      else ([], deepest, p)
    | none => ([], deepest, p)

/-- The lines of a block scalar: `done` is read, last character first, after `breaks` comes the
place. -/
def blockLines (fold : Bool) (column : Nat) : Nat → List Char → List Char → Place →
    List Char × List Char × List Char × Place
  | 0, done, breaks, p => (done.reverse, [], breaks, p)
  | fuel + 1, done, breaks, p =>
    let (line, after) := p.span (!isBreak ·)
    let done := line.reverse ++ (breaks.reverse ++ done)
    let ending := after.peek?.toList
    let (breaks, next) := emptyLines column after.room after.next
    if next.column = column && !next.rest.isEmpty then
      let joins := fold && ending == ['\n'] && !line.head?.any isSpace && !next.peek?.any isSpace
      let between := if !joins then ending else if breaks.isEmpty then [' '] else []
      blockLines fold column fuel (between ++ done) breaks next
    else (done.reverse, ending, breaks, next)

/-- A block scalar after its first mark, inside a block at a column if there is one. -/
def readBlockText (fold : Bool) (outer : Option Nat) (p : Place) :
    Except Fault (String × Place) := do
  let (chomp, increment, p) := readMarks p
  if increment = some 0 || !(endsLine p.peek? || p.peek? = some ' ') then .error .malformed
  else
    let p ← readLineEnd p
    let least := max 1 ((outer.map (· + 1)).getD 0)
    let (breaks, column, p) :=
      match increment with
      | some n =>
        let column := least + n - 1
        let (breaks, p) := emptyLines column p.room p
        (breaks, column, p)
      | none =>
        let (breaks, deepest, p) := leadingLines 0 p.room p
        (breaks, max least deepest, p)
    let (done, ending, breaks, p) :=
      if p.column = column && !p.rest.isEmpty then blockLines fold column p.room [] breaks p
      else ([], [], breaks, p)
    let tail := match chomp with
      | .strip => []
      | .clip => ending
      | .keep => ending ++ breaks
    return (Text.ofChars (done ++ tail), p)

/-! ### Names, tags and instructions -/

def isNameChar (c : Char) : Bool := c.isAlphanum || c == '-' || c == '_'

def readName : Except Fault (String × Place) :=
  let (name, p) := p.span isNameChar
  let ends := endsWord p.peek? || p.peek?.any (· ∈ ['?', ':', ',', ']', '\x7d', '%', '@', '\x60'])
  if name.isEmpty || !ends then .error p.refuse else .ok (String.ofList name, p)

def isTagChar (c : Char) : Bool :=
  isNameChar c || c ∈ [';', '/', '?', ':', '@', '&', '=', '+', '$', ',', '.', '!', '~', '*', '\'',
    '(', ')', '[', ']']

def readBytes : Nat → Place → Except Fault (List UInt8 × Place)
  | 0, p => .ok ([], p)
  | fuel + 1, p =>
    if p.peek? = some '%' then do
      let (byte, p) ← readCode 2 0 p.next
      let (more, p) ← readBytes fuel p
      return (UInt8.ofNat byte :: more, p)
    else .ok ([], p)

def readTagText : Nat → List Char → Place → Except Fault (String × Place)
  | 0, _, _ => .error .malformed
  | fuel + 1, done, p =>
    let (run, p) := p.span isTagChar
    let done := done ++ run
    if p.peek? = some '%' then do
      let (bytes, p) ← readBytes p.room p
      match String.fromUTF8? ⟨bytes.toArray⟩ with
      | none => .error p.refuse
      | some text => readTagText fuel (done ++ text.toList) p
    else if done.isEmpty then .error p.refuse
    else .ok (String.ofList done, p)

def readHandle : Except Fault (String × Place) :=
  if p.peek? != some '!' then .error p.refuse
  else if p.next.peek? = some ' ' then .ok ("!", p.next)
  else
    let (name, p) := p.next.span isNameChar
    if p.peek? = some '!' then .ok (String.ofList ('!' :: name ++ ['!']), p.next)
    else .error p.refuse

def readVerbatim : Except Fault (Token × Place) := do
  let (text, p) ← readTagText (p.room + 1) [] p
  if p.peek? = some '>' then return (.tag none text, p.next) else .error p.refuse

/-- A tag after a handle, which may be an exclamation mark alone. -/
def readSuffix (handle : String) (p : Place) : Except Fault (Token × Place) := do
  let (text, p) ← readTagText (p.room + 1) [] p
  return (.tag (some handle) text, p)

def readTagParts : Except Fault (Token × Place) :=
  let next := p.next
  if next.peek? = some '<' then readVerbatim next.next
  else if endsWord next.peek? then .ok (.tag none "!", next)
  else do
    let after := next.skipWhile fun c => c != ' ' && c != '!' && !isBreak c
    after.demand 1
    if after.peek? = some '!' then
      let (handle, p) ← readHandle p
      readSuffix handle p
    else readSuffix "!" next

/-- A tag, after which a blank or the end of the line follows. -/
def readTag : Except Fault (Token × Place) := do
  let (token, p) ← readTagParts p
  if p.peek? = some ' ' || endsLine p.peek? then return (token, p) else .error p.refuse

def readVersionNumber : Except Fault (Nat × Place) := do
  let (digits, p) := p.span Char.isDigit
  p.demand 1
  if digits.isEmpty then .error .malformed
  else if Number.digitLimit < digits.length then .error (.tooLong digits.length)
  else .ok (Json.natOf digits, p)

def endsInstruction : Bool := p.peek? = some ' ' || endsLine p.peek?

def readInstruction : Except Fault (Token × Place) := do
  let (name, p) := p.next.span isNameChar
  if name.isEmpty || !endsInstruction p then .error p.refuse
  else
    let (token, p) ← (
      if name = ['Y', 'A', 'M', 'L'] then do
        let (major, p) ← readVersionNumber (p.skipWhile (· == ' '))
        if p.peek? != some '.' then .error p.refuse
        else
          let (minor, p) ← readVersionNumber p.next
          if endsInstruction p then .ok (Token.version major minor, p) else .error p.refuse
      else if name = ['T', 'A', 'G'] then do
        let (handle, p) ← readHandle (p.skipWhile (· == ' '))
        if p.peek? != some ' ' then .error p.refuse
        else
          let (start, p) ← readTagText (p.room + 1) [] (p.skipWhile (· == ' '))
          if endsInstruction p then .ok (Token.handle handle start, p) else .error p.refuse
      else .ok (Token.instruction, p.skipWhile (!isBreak ·)))
    return (token, ← readLineEnd p)

end ControlReach.Yaml
