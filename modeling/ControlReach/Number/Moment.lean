import ControlReach.Text.Quoted

/-!
# Moments

A day of the calendar, with or without a time of day and a distance from universal time.
-/

namespace ControlReach.Number

/-- A distance from universal time, in minutes. -/
structure Offset where
  negative : Bool
  minutes : Nat
  deriving DecidableEq, Repr

/-- A time of day. -/
structure Clock where
  hour : Nat
  minute : Nat
  second : Nat
  /-- The digits of the second's fraction. -/
  fraction : List Char
  offset : Option Offset
  deriving DecidableEq, Repr

/-- A day, perhaps with a time. -/
structure Moment where
  year : Nat
  month : Nat
  day : Nat
  clock : Option Clock
  deriving DecidableEq, Repr

/-- Why there is no such moment. -/
inductive MomentFault where
  | year (n : Nat)
  | month
  | day
  | hour
  | minute
  | second
  | offset (o : Offset)
  deriving DecidableEq, Repr

/-! ### Reading -/

def digitsValue (ds : List Char) : Nat := ds.foldl (fun n c => 10 * n + (c.toNat - 48)) 0

def oneOrTwo? : List Char → Option (Nat × List Char)
  | a :: b :: rest =>
    if !a.isDigit then none
    else if b.isDigit then some (digitsValue [a, b], rest)
    else some (digitsValue [a], b :: rest)
  | [a] => if a.isDigit then some (digitsValue [a], []) else none
  | [] => none

def two? : List Char → Option (Nat × List Char)
  | a :: b :: rest => if a.isDigit && b.isDigit then some (digitsValue [a, b], rest) else none
  | _ => none

def after? (c : Char) : List Char → Option (List Char)
  | d :: rest => if d = c then some rest else none
  | [] => none

def isGap (c : Char) : Bool := c == ' ' || c == '\t'

/-- What stands between a day and a time: a letter or some blanks. -/
def afterDay? : List Char → Option (List Char)
  | c :: rest =>
    if c = 'T' || c = 't' then some rest else if isGap c then some (rest.dropWhile isGap) else none
  | [] => none

/-- A distance from universal time at the end of a text: hours, and perhaps minutes. -/
def offset? (negative : Bool) (cs : List Char) : Option Offset := do
  let (hours, rest) ← oneOrTwo? cs
  match rest with
  | [] => return ⟨negative, 60 * hours⟩
  | ':' :: rest =>
    let (minutes, rest) ← two? rest
    if rest.isEmpty then return ⟨negative, 60 * hours + minutes⟩ else none
  | _ => none

variable (cs : List Char)

/-- The end of a time: nothing, or a distance from universal time after blanks. -/
def zone? : Option (Option Offset) :=
  match cs with
  | [] => some none
  | cs =>
    match cs.dropWhile isGap with
    | ['Z'] => some (some ⟨false, 0⟩)
    | '+' :: rest => (offset? false rest).map some
    | '-' :: rest => (offset? true rest).map some
    | _ => none

/-- The digits after a point, if there is one. -/
def fractionDigits : List Char → List Char × List Char
  | '.' :: rest => rest.span Char.isDigit
  | cs => ([], cs)

def clock? : Option Clock := do
  let (hour, rest) ← oneOrTwo? cs
  let (minute, rest) ← two? (← after? ':' rest)
  let (second, rest) ← two? (← after? ':' rest)
  let (fraction, rest) := fractionDigits rest
  return ⟨hour, minute, second, fraction, ← zone? rest⟩

/-- A moment, where month and day may have one digit. -/
def Moment.ofLooseText? : Option Moment := do
  let (century, rest) ← two? cs
  let (year, rest) ← two? rest
  let (month, rest) ← oneOrTwo? (← after? '-' rest)
  let (day, rest) ← oneOrTwo? (← after? '-' rest)
  let year := 100 * century + year
  if rest.isEmpty then return ⟨year, month, day, none⟩
  else return ⟨year, month, day, some (← clock? (← afterDay? rest))⟩

/-- A moment. Without a time, month and day have two digits. -/
def Moment.ofText? : Option Moment :=
  (Moment.ofLooseText? cs).filter fun m => m.clock.isSome || cs.length == 10

/-! ### Faults -/

def isLeap (year : Nat) : Bool := year % 4 == 0 && (year % 100 != 0 || year % 400 == 0)

def daysIn (year month : Nat) : Nat :=
  if month = 2 then (if isLeap year then 29 else 28)
  else if month ∈ [4, 6, 9, 11] then 30
  else 31

def dayMinutes : Nat := 1440

def Clock.fault? (c : Clock) : Option MomentFault :=
  if 23 < c.hour then some .hour
  else if 59 < c.minute then some .minute
  else if 59 < c.second then some .second
  else none

def Clock.offsetFault? (c : Clock) : Option MomentFault :=
  c.offset.bind fun o => if dayMinutes ≤ o.minutes then some (.offset o) else none

def Moment.dayFault? (m : Moment) : Option MomentFault :=
  if m.year = 0 then some (.year m.year)
  else if m.month < 1 || 12 < m.month then some .month
  else if m.day < 1 || daysIn m.year m.month < m.day then some .day
  else none

def Moment.fault? (m : Moment) : Option MomentFault :=
  (m.clock.bind Clock.offsetFault?).or (m.dayFault?.or (m.clock.bind Clock.fault?))

/-- The wording of a distance from universal time, in whole days and the seconds that remain. -/
def Offset.text (o : Offset) : String :=
  let minutes : Int := if o.negative then -(o.minutes : Int) else o.minutes
  let seconds := 60 * minutes.emod dayMinutes
  "datetime.timedelta(days=" ++ toString (minutes.ediv dayMinutes) ++
    (if seconds = 0 then "" else ", seconds=" ++ toString seconds) ++ ")"

def MomentFault.message : MomentFault → String
  | .year n => "year " ++ toString n ++ " is out of range"
  | .month => "month must be in 1..12"
  | .day => "day is out of range for month"
  | .hour => "hour must be in 0..23"
  | .minute => "minute must be in 0..59"
  | .second => "second must be in 0..59"
  | .offset o =>
    "offset must be a timedelta strictly between -timedelta(hours=24) and timedelta(hours=24), " ++
      "not " ++ o.text ++ "."

/-! ### Writing -/

/-- A number with zeros in front, up to a width. -/
def padded (width n : Nat) : List Char :=
  let digits := Nat.toDigits 10 n
  List.replicate (width - digits.length) '0' ++ digits

def Offset.suffix (o : Offset) : List Char :=
  (if o.negative && o.minutes != 0 then '-' else '+') ::
    (padded 2 (o.minutes / 60) ++ ':' :: padded 2 (o.minutes % 60))

/-- A time of day, as it is written; the fraction has no digits or six. -/
def Clock.written (c : Clock) : List Char :=
  let micros := (c.fraction ++ List.replicate 6 '0').take 6
  padded 2 c.hour ++ ':' :: padded 2 c.minute ++ ':' :: padded 2 c.second ++
    (if micros.all (· == '0') then [] else '.' :: micros) ++ (c.offset.map Offset.suffix).getD []

def Moment.text (m : Moment) : String :=
  String.ofList (padded 4 m.year ++ '-' :: padded 2 m.month ++ '-' :: padded 2 m.day ++
    (m.clock.map fun c => ' ' :: c.written).getD [])

end ControlReach.Number
