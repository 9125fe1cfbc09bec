import ControlReach.Text.Bytes
import ControlReach.Text.Parts

/-!
# Paths

A path is a root and the names that follow it. Empty names and single dots are left out; two dots
are kept, because what they stand for depends on the directories on the way. Exactly two slashes
are a root of their own.
-/

namespace ControlReach

/-- A path without empty parts and single dots. -/
structure Path where
  root : String
  parts : List String
  deriving DecidableEq, Repr

namespace Path

def rootOf : List Char → String
  | ['/', '/'] => "//"
  | '/' :: '/' :: c :: _ => if c = '/' then "/" else "//"
  | '/' :: _ => "/"
  | _ => ""

def ofText (s : String) : Path where
  root := rootOf s.toList
  parts := ((Text.pieces '/' s.toList).map String.ofList).filter fun p => p != "" && p != "."

variable (p : Path)

def text : String :=
  if p.root = "" && p.parts.isEmpty then "." else p.root ++ Text.join "/" p.parts

def isAbsolute : Bool := p.root != ""

def parent : Path := { p with parts := p.parts.dropLast }

def child (name : String) : Path := { p with parts := p.parts ++ [name] }

def under (base p : Path) : Path :=
  if p.isAbsolute then p else { base with parts := base.parts ++ p.parts }

/-- Follow names down from a directory, two dots leading up again. -/
def walk (base : List String) : List String → List String
  | [] => base
  | ".." :: rest => walk base.dropLast rest
  | name :: rest => walk (base ++ [name]) rest

/-- The same path from the common root, without dots. -/
def normal : Path := ⟨"/", walk [] p.parts⟩

/-- The names that remain of a list after a first part. -/
def remaining? : List String → List String → Option (List String)
  | names, [] => some names
  | [], _ :: _ => none
  | a :: as, b :: bs => if a = b then remaining? as bs else none

def relativeTo? (p dir : Path) : Option Path :=
  if p.root = dir.root then (remaining? p.parts dir.parts).map (⟨"", ·⟩) else none

end Path

/-! ### Texts that name no file -/

/-- Why a text is no name of a file. -/
inductive NameFault where
  | unencodable (run : Text.HalfRun)
  /-- It holds the character that ends names. -/
  | nullByte
  deriving DecidableEq, Repr

def NameFault.message : NameFault → String
  | .unencodable run => run.message
  | .nullByte => "embedded null byte"

def nameBytes (s : String) : Except NameFault (List UInt8) :=
  match Text.nameBytes s with
  | .error run => .error (.unencodable run)
  | .ok bytes => if 0 ∈ bytes then .error .nullByte else .ok bytes

namespace Path

/-- The names on the way to a directory, after one step up from it. -/
def stepUp (root : String) (names : List String) : List String :=
  if root = "" && names.all (· == "..") then names ++ [".."] else names.dropLast

/-- Why some entry on the way of a path cannot be named. -/
def faultFrom (root : String) (base : List String) : List String → Option NameFault
  | [] => none
  | ".." :: rest => faultFrom root (stepUp root base) rest
  | name :: rest =>
    match nameBytes (⟨root, base ++ [name]⟩ : Path).text with
    | .error fault => some fault
    | .ok _ => faultFrom root (base ++ [name]) rest

/-- Why some entry on the way of a path cannot be named. -/
def fault? (p : Path) : Option NameFault :=
  faultFrom (if p.isAbsolute then "/" else "") [] p.parts

end Path

end ControlReach
