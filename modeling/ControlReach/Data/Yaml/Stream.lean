import ControlReach.Data.Yaml.Place

/-!
# The characters of a file

The bytes of a file are decoded in blocks, and the characters are taken in pieces of a fixed size,
the first two at once. So a byte that cannot be decoded, or a character that may not occur, is a
fault only where reading comes to its piece.
-/

namespace ControlReach.Yaml

open Text (DecodeFault)

/-- How many bytes are decoded at once, if no more are likely to be needed. -/
def blockSize : Nat := 8192

def pieceSize : Nat := 4096

/-- Where the piece of a character starts; the first two pieces are one. -/
def pieceStart (index : Nat) : Nat :=
  if index < 2 * pieceSize then 0 else index / pieceSize * pieceSize

/-- The bytes from a fault on are held over: they may be the start of a character. -/
def isHeldOver (fault : DecodeFault) (bs : List UInt8) : Bool :=
  fault.reason == .cutOff || fault.byte == 0xed && (bs.drop (fault.start + 1)).length == 1 &&
    (bs.drop (fault.start + 1)).all Text.isTail

/-- The bytes and the characters of a block. -/
structure Density where
  bytes : Nat := 0
  chars : Nat := 0

/-- How many bytes are likely to have as many characters as are wanted. -/
def Density.bytesFor (d : Density) (wanted : Nat) : Nat :=
  if d.chars = 0 then wanted
  else
    let ratio := Number.Binary.ofRatio false d.bytes d.chars
    ((ratio.times (.ofRatio false wanted 1)).truncate?.getD 0).toNat

/-- What is known when a block is about to be decoded. -/
structure Progress where
  /-- How many characters came before. -/
  count : Nat := 0
  /-- The block before. -/
  last : Density := {}
  /-- Bytes held over from it. -/
  held : List UInt8 := []
  /-- A carriage return at its end, which may be the first half of the end of a line. -/
  waiting : List Char := []

/-- The size of the next block: the piece that has begun is to be filled by it. -/
def Progress.size (p : Progress) : Nat :=
  max blockSize (p.last.bytesFor (pieceSize - p.count % pieceSize))

/-- The characters of a block up to a carriage return at its end, and this return. -/
def holdReturn (cs : List Char) : List Char × List Char :=
  if cs.getLast? = some '\r' then (cs.dropLast, ['\r']) else (cs, [])

/-- The characters of blocks of bytes, with plain ends of lines. -/
def decodeBlocks : Nat → Progress → List UInt8 → List Char × Option DecodeFault
  | 0, _, _ => ([], none)
  | fuel + 1, p, bs =>
    if bs.isEmpty then
      match (Text.decodeFrom 0 0 p.held).2 with
      | some fault => ([], some fault)
      | none => (plainBreaks p.waiting, none)
    else
      let fresh := bs.take p.size
      let block := p.held ++ fresh
      let (cs, fault) := Text.decodeFrom 0 0 block
      let held := match fault with
        | some fault => if isHeldOver fault block then some (block.drop fault.start) else none
        | none => some []
      match held with
      | none => ([], fault)
      | some held =>
        let (cs, waiting) := holdReturn (p.waiting ++ cs)
        let cs := plainBreaks cs
        let next := ⟨p.count + cs.length, ⟨fresh.length, cs.length⟩, held, waiting⟩
        let (more, fault) := decodeBlocks fuel next (bs.drop p.size)
        (cs ++ more, fault)

/-- What can be read of a file, and the fault that comes after it, if any. -/
structure Source where
  chars : List Char
  fault : Option Fault := none

def Source.ofChars (cs : List Char) (fault : Option Fault) : Source :=
  let limit := fault.map fun why => (pieceStart cs.length, why)
  let odd := (cs.findIdx? (!isAllowed ·)).map fun i => (pieceStart i, Fault.malformed)
  let first := match limit, odd with
    | some l, some o => some (if l.1 ≤ o.1 then l else o)
    | some l, none => some l
    | none, o => o
  match first with
  | some (start, why) => ⟨cs.take start, some why⟩
  | none => ⟨cs, none⟩

def Source.ofBytes (bs : List UInt8) : Source :=
  let (cs, fault) := decodeBlocks (bs.length + 2) {} bs
  Source.ofChars cs (fault.map .undecodable)

end ControlReach.Yaml
