import ControlReach.Text.Quoted

/-!
# Bytes of texts

Halves of pairs have no encoding, but in the name of a file some of them stand for bytes that are no
encoding of anything.
-/

namespace ControlReach.Text

/-! ### Encoding -/

/-- Consecutive halves in a text that cannot be encoded. -/
structure HalfRun where
  /-- The first of them. -/
  code : Nat
  /-- The number of codes before it. -/
  start : Nat
  length : Nat
  deriving DecidableEq, Repr

def HalfRun.message (r : HalfRun) : String :=
  "'utf-8' codec can't encode character" ++
    (if r.length = 1 then
      " '" ++ String.ofList ('\\' :: 'u' :: hexPadded 4 r.code) ++ "' in position " ++
        toString r.start
    else "s in position " ++ toString r.start ++ "-" ++ toString (r.start + r.length - 1)) ++
    ": surrogates not allowed"

/-- The first halves in codes, of which those with a property can be encoded if they come first. -/
def firstHalves? (encodable : Nat → Bool) (start : Nat) : List Nat → Option HalfRun
  | [] => none
  | n :: rest =>
    if isHalf n && !encodable n then some ⟨n, start, 1 + (rest.takeWhile isHalf).length⟩
    else firstHalves? encodable (start + 1) rest

def codeBytes (n : Nat) : List UInt8 :=
  let tail (k : Nat) : UInt8 := UInt8.ofNat (0x80 + n / Nat.pow 64 k % 64)
  if n < 0x80 then [UInt8.ofNat n]
  else if n < 0x800 then [UInt8.ofNat (0xc0 + n / 64), tail 0]
  else if n < 0x10000 then [UInt8.ofNat (0xe0 + n / 4096), tail 1, tail 0]
  else [UInt8.ofNat (0xf0 + n / 262144), tail 2, tail 1, tail 0]

def encode (s : String) : Except HalfRun (List UInt8) :=
  let ns := codes s.toList
  match firstHalves? (fun _ => false) 0 ns with
  | some run => .error run
  | none => .ok (ns.flatMap codeBytes)

def isByteHalf (n : Nat) : Bool := 0xdc80 ≤ n && n ≤ 0xdcff

def nameBytes (s : String) : Except HalfRun (List UInt8) :=
  let ns := codes s.toList
  match firstHalves? isByteHalf 0 ns with
  | some run => .error run
  | none => .ok (ns.flatMap fun n => if isHalf n then [UInt8.ofNat (n - 0xdc00)] else codeBytes n)

/-! ### Decoding -/

/-- Why bytes encode nothing. -/
inductive DecodeReason where
  | badStart
  | badContinuation
  | cutOff
  deriving DecidableEq, Repr

/-- Bytes that encode nothing. -/
structure DecodeFault where
  reason : DecodeReason
  /-- The first of them. -/
  byte : UInt8
  /-- The number of bytes before it. -/
  start : Nat
  length : Nat
  deriving DecidableEq, Repr

def DecodeReason.text : DecodeReason → String
  | .badStart => "invalid start byte"
  | .badContinuation => "invalid continuation byte"
  | .cutOff => "unexpected end of data"

def DecodeFault.message (f : DecodeFault) : String :=
  "'utf-8' codec can't decode byte" ++
    (if f.length = 1 then
      " 0x" ++ String.ofList (hexPadded 2 f.byte.toNat) ++ " in position " ++ toString f.start
    else "s in position " ++ toString f.start ++ "-" ++ toString (f.start + f.length - 1)) ++
    ": " ++ f.reason.text

def isTail (b : UInt8) : Bool := 0x80 ≤ b && b < 0xc0

/-- How many bytes follow a first byte; it may be no first byte at all. -/
def tailLength? (b : UInt8) : Option Nat :=
  if b < 0x80 then some 0
  else if b < 0xc2 then none
  else if b < 0xe0 then some 1
  else if b < 0xf0 then some 2
  else if b < 0xf5 then some 3
  else none

/-- The second byte can follow the first, so that each character has one encoding and a half has
none. -/
def canFollow (first second : UInt8) : Bool :=
  isTail second && (first != 0xe0 || 0xa0 ≤ second) && (first != 0xed || second < 0xa0) &&
    (first != 0xf0 || 0x90 ≤ second) && (first != 0xf4 || second < 0x90)

/-- The bytes that go on with a character, as far as they can. -/
def goodTail (first : UInt8) : List UInt8 → List UInt8
  | [] => []
  | second :: rest => if canFollow first second then second :: rest.takeWhile isTail else []

def codeOf (first : UInt8) (tail : List UInt8) : Nat :=
  let top := match tail.length with
    | 0 => first.toNat
    | 1 => first.toNat - 0xc0
    | 2 => first.toNat - 0xe0
    | _ => first.toNat - 0xf0
  tail.foldl (fun n b => 64 * n + (b.toNat - 0x80)) top

/-- One character at the front of bytes: the code and the number of bytes, or why there is none. -/
def decodeOne (start : Nat) (first : UInt8) (rest : List UInt8) : Except DecodeFault (Nat × Nat) :=
  match tailLength? first with
  | none => .error ⟨.badStart, first, start, 1⟩
  | some length =>
    let tail := goodTail first (rest.take length)
    if tail.length = length then .ok (codeOf first tail, 1 + length)
    else if tail.length = rest.length then .error ⟨.cutOff, first, start, 1 + tail.length⟩
    else .error ⟨.badContinuation, first, start, 1 + tail.length⟩

/-- The characters of bytes up to a fault; `skip` of the bytes belong to the character before. -/
def decodeFrom : Nat → Nat → List UInt8 → List Char × Option DecodeFault
  | _, _, [] => ([], none)
  | start, skip + 1, _ :: rest => decodeFrom (start + 1) skip rest
  | start, 0, b :: rest =>
    match decodeOne start b rest with
    | .error fault => ([], some fault)
    | .ok (n, length) =>
      let (cs, fault) := decodeFrom (start + 1) (length - 1) rest
      (Char.ofNat n :: cs, fault)

def decode (bytes : List UInt8) : Except DecodeFault (List Char) :=
  match decodeFrom 0 0 bytes with
  | (cs, none) => .ok cs
  | (_, some fault) => .error fault

example : decodeFrom 0 0 [0x41, 0xc3, 0xa9] = (['A', 'é'], none) := by decide
example : decodeFrom 0 0 [0xed, 0xa0, 0x80] = ([], some ⟨.badContinuation, 0xed, 0, 1⟩) := by decide
example : decodeFrom 0 0 [0x41, 0xf0, 0x9f] = (['A'], some ⟨.cutOff, 0xf0, 1, 2⟩) := by decide
example : decodeFrom 0 0 [0xf0, 0x9f, 0x41] = ([], some ⟨.badContinuation, 0xf0, 0, 2⟩) := by decide

end ControlReach.Text
