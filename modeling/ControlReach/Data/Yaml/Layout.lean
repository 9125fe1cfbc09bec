import ControlReach.Data.Yaml.Lexeme
import ControlReach.Data.Yaml.Stream

/-!
# From text to tokens

A block starts where something stands further to the right than the block around it, and ends where
something stands further to the left. Whether a scalar is a key shows only at the colon after it,
so the place before everything that may be a key is kept open until then.
-/

namespace ControlReach.Yaml

/-- Something that may turn out to be a key. -/
structure Key where
  slot : Nat
  /-- It has to be one, since it stands where the keys of a block stand. -/
  required : Bool
  index : Nat
  line : Nat
  column : Nat

/-- Tokens in places of their own, so that one can be put before others later. -/
structure Slots where
  latest : List (List Token) := []
  count : Nat := 0

namespace Slots

def push (s : Slots) (ts : List Token) : Slots := ⟨ts :: s.latest, s.count + 1⟩

def set (s : Slots) (slot : Nat) (ts : List Token) : Slots :=
  { s with latest := s.latest.set (s.count - 1 - slot) ts }

def take (s : Slots) (count : Nat) : Slots := ⟨s.latest.drop (s.count - count), min s.count count⟩

def tokens (s : Slots) : List Token := s.latest.reverse.flatten

end Slots

/-- The tokens read so far, the columns of open blocks, and what may become a key. -/
structure Layout where
  place : Place
  slots : Slots := {}
  columns : List Nat := []
  /-- What may become a key, for each open bracket and outside of all, the innermost first. -/
  keys : List (Option Key) := [none]
  allowsKey : Bool := true

namespace Layout

variable (l : Layout)

def inFlow : Bool := 1 < l.keys.length

variable (t : Token)

def emit : Layout := { l with slots := l.slots.push [t] }

def goto (p : Place) : Layout := { l with place := p }

def keyLimit : Nat := 1024

def isStale (k : Key) : Bool :=
  k.line != l.place.line || keyLimit < l.place.index - k.index

def giveUp : Option Key → Except Fault (Option Key)
  | none => .ok none
  | some k => if k.required then .error .malformed else .ok none

def dropStale : Except Fault Layout := do
  let keys ← l.keys.mapM fun k => if k.any l.isStale then giveUp k else .ok k
  return { l with keys }

def dropKey : Except Fault Layout :=
  match l.keys with
  | [] => .ok l
  | k :: rest => do return { l with keys := (← giveUp k) :: rest }

def openKey : Except Fault Layout :=
  if l.allowsKey then do
    let l ← l.dropKey
    let required := !l.inFlow && l.columns.head? == some l.place.column
    let key : Key := ⟨l.slots.count, required, l.place.index, l.place.line, l.place.column⟩
    return { l with slots := l.slots.push [], keys := some key :: l.keys.drop 1 }
  else .ok l

def isDeeper (column : Nat) : Bool := l.columns.head?.all (· < column)

/-- Start a block at a column, if it is a new one: the token for that, and the columns. -/
def deepen (start : Token) (column : Nat) : List Token × Layout :=
  if l.isDeeper column then ([start], { l with columns := column :: l.columns }) else ([], l)

/-- End the blocks whose columns satisfy a condition; between brackets no block ends. -/
def close (leaves : Nat → Bool) : Layout :=
  if l.inFlow then l
  else
    let ended := l.columns.takeWhile leaves
    let slots := ended.foldl (fun slots _ => slots.push [.blockEnd]) l.slots
    { l with slots, columns := l.columns.dropWhile leaves }

/-- End the blocks that the place is to the left of. -/
def unwind : Layout := l.close (l.place.column < ·)

def unwindAll : Layout := l.close fun _ => true

/-- Go over blanks, comments and line breaks. -/
def skipGaps : Nat → Layout → Layout
  | 0, l => l
  | fuel + 1, l =>
    let p := (l.place.skipWhile (· == ' ')).skipComment
    if p.peek?.any isBreak then
      skipGaps fuel { l with place := p.next, allowsKey := l.allowsKey || !l.inFlow }
    else l.goto p

/-! ### Tokens -/

def single (allowsKey : Bool) : Layout :=
  { l.emit t with place := l.place.next, allowsKey }

def readMarker : Except Fault Layout := do
  let l ← l.unwindAll.dropKey
  return { l.emit t with place := l.place.skip 3, allowsKey := false }

def readPercent : Except Fault Layout := do
  let l ← l.unwindAll.dropKey
  let (t, p) ← readInstruction l.place
  return { l.emit t with place := p, allowsKey := false }

def openBracket : Except Fault Layout := do
  let l ← l.openKey
  let l := l.single t true
  return { l with keys := none :: l.keys }

def closeBracket : Except Fault Layout := do
  let l ← l.dropKey
  if !l.inFlow then .error l.place.next.refuse
  else
    let l := l.single t false
    return { l with keys := l.keys.drop 1 }

def readComma : Except Fault Layout := do
  let l ← l.dropKey
  return l.single .comma true

/-- A dash or a question mark, which starts an item or a key. -/
def readLead (block t : Token) (keyAfter : Bool) : Except Fault Layout := do
  if l.inFlow then
    let l ← l.dropKey
    return l.single t keyAfter
  else if !l.allowsKey then .error .malformed
  else
    let (start, l) := l.deepen block l.place.column
    let l ← { l with slots := l.slots.push start }.dropKey
    return l.single t true

/-- A colon: what was kept open becomes a key, or the value of a key that was announced starts. -/
def readColon : Except Fault Layout := do
  match l.keys with
  | some k :: rest =>
    let (start, l) := if l.inFlow then ([], l) else l.deepen .blockMapping k.column
    let slots := l.slots.set k.slot (start ++ [Token.key])
    let l := { l with slots, keys := none :: rest }
    return l.single .value false
  | _ =>
    if l.inFlow then
      let l ← l.dropKey
      return l.single .value false
    else if !l.allowsKey then .error .malformed
    else
      let (start, l) := l.deepen .blockMapping l.place.column
      let l ← { l with slots := l.slots.push start }.dropKey
      return l.single .value true

def readKeyed (read : Place → Except Fault (Token × Place)) : Except Fault Layout := do
  let l ← l.openKey
  let (t, p) ← read l.place
  return { l.emit t with place := p, allowsKey := false }

def readNamed (t : String → Token) : Except Fault Layout :=
  l.readKeyed fun p => do
    let (name, p) ← readName p.next
    return (t name, p)

def readQuote (double : Bool) : Except Fault Layout :=
  l.readKeyed fun p => do
    let (text, p) ← readQuoted double p.room [] p.next
    return (.scalar false text, p)

/-- A plain scalar. A key can start after it if that is on another line. -/
def readWord : Except Fault Layout := do
  let l ← l.openKey
  let margin := (l.columns.head?.map (· + 1)).getD 0
  let (text, p, crossed) ← readPlain l.inFlow margin l.place.room [] [] false l.place
  return { l.emit (.scalar true text) with place := p, allowsKey := crossed }

def readBar (fold : Bool) : Except Fault Layout := do
  let l ← l.dropKey
  let (text, p) ← readBlockText fold l.columns.head? l.place.next
  return { l.emit (.scalar false text) with place := p, allowsKey := true }

def demandStart (c : Char) : Except Fault Unit := do
  if l.place.column = 0 && (c = '-' || c = '.') then l.place.demandLine
  if c = '-' || !l.inFlow && (c = '?' || c = ':') then l.place.demand 2

def readToken (c : Char) (rest : List Char) : Except Fault Layout := do
  l.demandStart c
  let wordEnds := endsWord rest.head?
  if c = '%' && l.place.column = 0 then l.readPercent
  else if l.place.atMarker then l.readMarker (if c = '-' then .documentStart else .documentEnd)
  else if c = '[' then l.openBracket .openList
  else if c = '\x7b' then l.openBracket .openMapping
  else if c = ']' then l.closeBracket .closeList
  else if c = '\x7d' then l.closeBracket .closeMapping
  else if c = ',' then l.readComma
  else if c = '-' && wordEnds then l.readLead .blockList .dash true
  else if c = '?' && (l.inFlow || wordEnds) then l.readLead .blockMapping .key false
  else if c = ':' && (l.inFlow || wordEnds) then l.readColon
  else if c = '*' then l.readNamed .alias
  else if c = '&' then l.readNamed .anchor
  else if c = '!' then l.readKeyed readTag
  else if c = '|' && !l.inFlow then l.readBar false
  else if c = '>' && !l.inFlow then l.readBar true
  else if c = '\'' then l.readQuote false
  else if c = '"' then l.readQuote true
  else if startsPlain l.inFlow (c :: rest) then l.readWord
  else .error l.place.next.refuse

/-- The first of the slots that are kept open. -/
def firstOpen? : Option Nat := ((l.keys.filterMap id).map (·.slot)).min?

/-- Reading ends with a fault. What may still become a key has not been passed on. -/
def fail (fault : Fault) : Layout :=
  let slots := match l.firstOpen? with
    | some slot => l.slots.take slot
    | none => l.slots
  { l with slots := slots.push [.fault fault] }

def goOn (step : Except Fault Layout) (next : Layout → Layout) : Layout :=
  match step with
  | .error fault => l.fail fault
  | .ok l => next l

def finish : Except Fault Layout := do
  l.place.demand 1
  let l ← l.dropStale
  let l ← l.unwindAll.dropKey
  return l.emit .streamEnd

/-- Read the token that starts with a character, and ask for what comes after it. -/
def advance (c : Char) (rest : List Char) : Except Fault Layout := do
  let l ← l.dropStale
  let l ← l.unwind.readToken c rest
  l.place.demand 1
  return l

/-- Read tokens to the end of the text, or up to a fault. -/
def readAll : Nat → Layout → Layout
  | 0, l => l.fail .malformed
  | fuel + 1, l =>
    l.goOn l.dropStale fun l =>
      let next := skipGaps l.place.room l
      match next.place.rest with
      | [] => l.goOn next.finish id
      | c :: rest => l.goOn (next.advance c rest) (readAll fuel)

end Layout

def tokens (source : Source) : List Token :=
  let start : Place := { rest := source.chars, ending := source.fault }
  let start := if start.peek? = some '\ufeff' then start.next else start
  let l := Layout.readAll (source.chars.length + 1) { place := start }
  l.slots.tokens

end ControlReach.Yaml
