import ControlReach.Assoc
import ControlReach.Command.Host

/-!
# File trees

A tree of files held as a value, and a machine made of it. An entry is known by the bytes of its
name.
-/

namespace ControlReach

/-- The name of a file as the system has it. -/
abbrev NameBytes := List UInt8

def Path.names (p : Path) : List NameBytes := p.parts.map fun s => (nameBytes s).toOption.getD []

/-- Files and directories by the names that lead to them from the root. -/
structure FileTree where
  files : List (List NameBytes × ByteArray) := []
  directories : List (List NameBytes) := []

namespace FileTree

variable (t : FileTree)

def entryAt (names : List NameBytes) : Entry :=
  if names.isEmpty || names ∈ t.directories then .directory
  else if (t.files.lookup names).isSome then .file
  else .missing

def nameLimit : Nat := 255

def pathLimit : Nat := 4096

def upward : NameBytes := [46, 46]

/-- Follow names from a directory; every entry on the way has to be a directory. -/
def locateFrom (t : FileTree) (base : List NameBytes) :
    List NameBytes → Except FileFault (List NameBytes)
  | [] => .ok base
  | name :: rest =>
    match t.entryAt base with
    | .missing => .error .notFound
    | .file => .error .notDirectory
    | .directory =>
      if nameLimit < name.length then .error .nameTooLong
      else t.locateFrom (if name = upward then base.dropLast else base ++ [name]) rest

variable (directory p : Path)

def locate : Except FileFault (List NameBytes) :=
  match nameBytes p.text with
  | .error why => .error (.badName why)
  | .ok bytes =>
    if pathLimit ≤ bytes.length then .error .nameTooLong
    else t.locateFrom (if p.isAbsolute then [] else directory.names) p.names

def entry : Except FileFault Entry :=
  Entry.ofAttempt ((t.locate directory p).map t.entryAt)

def read : Except FileFault ByteArray := do
  let names ← t.locate directory p
  match t.entryAt names, t.files.lookup names with
  | .directory, _ => .error .isDirectory
  | _, some bytes => .ok bytes
  | _, none => .error .notFound

def write (bytes : ByteArray) : Except FileFault FileTree := do
  let names ← t.locate directory p
  match t.entryAt names with
  | .directory => .error .isDirectory
  | _ => .ok { t with files := Assoc.set names bytes t.files }

def makeOne : Except FileFault FileTree := do
  let names ← t.locate directory p
  match t.entryAt names with
  | .missing => .ok { t with directories := names :: t.directories }
  | _ => .error .exists

def makeMissing : FileTree × Except FileFault Unit :=
  match t.makeOne directory p with
  | .ok t => (t, .ok ())
  | .error fault =>
    match t.entry directory p with
    | .ok .directory => (t, .ok ())
    | _ => (t, .error fault)

/-- Make a directory, its names given last to first, and those above it if they are missing. -/
def makeAll (t : FileTree) (directory : Path) (root : String) :
    List String → FileTree × Except FileFault Unit
  | [] => t.makeMissing directory ⟨root, []⟩
  | name :: above =>
    let p : Path := ⟨root, (name :: above).reverse⟩
    match t.makeOne directory p with
    | .error .notFound =>
      match t.makeAll directory root above with
      | (t, .ok ()) => t.makeMissing directory p
      | (t, .error fault) => (t, .error fault)
    | _ => t.makeMissing directory p

def makeDirectory : FileTree × Except FileFault Unit :=
  t.makeAll directory p.root p.parts.reverse

def place (bytes : ByteArray) : Except FileFault FileTree :=
  match t.makeDirectory directory p.parent with
  | (_, .error fault) => .error fault
  | (made, .ok ()) => made.write directory p bytes

end FileTree

/-- A file tree, and what was printed. -/
structure World where
  tree : FileTree
  output : String := ""
  errors : String := ""

namespace World

def update (change : FileTree → FileTree × Except FileFault Unit) :
    StateM World (Except FileFault Unit) :=
  fun w =>
    let (tree, result) := change w.tree
    (result, { w with tree })

def orKept (t : FileTree) : Except FileFault FileTree → FileTree × Except FileFault Unit
  | .ok t => (t, .ok ())
  | .error fault => (t, .error fault)

/-- The machine made of a tree, started in a directory. -/
def host (directory : Path) : Host (StateM World) where
  directory := directory
  entry p := return (← get).tree.entry directory p
  read p := return (← get).tree.read directory p
  write p text := update fun t => orKept t (t.write directory p text.toUTF8)
  makeDirectory p := update fun t => t.makeDirectory directory p
  print text := modify fun w => { w with output := w.output ++ text }
  warn text := modify fun w => { w with errors := w.errors ++ text }

end World

end ControlReach
