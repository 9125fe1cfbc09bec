import ControlReach.Data.Path

/-!
# Hosts

What a command needs of its machine: files, a directory it was started in, and two streams.
-/

namespace ControlReach

/-- What stands at a path. -/
inductive Entry where
  | missing
  | file
  | directory
  deriving DecidableEq, Repr

/-- Why a file cannot be used. -/
inductive FileFault where
  | notFound
  | denied
  | exists
  | notDirectory
  | isDirectory
  | nameTooLong
  /-- The path can name no file. -/
  | badName (why : NameFault)
  | other
  deriving DecidableEq, Repr

namespace FileFault

def text : FileFault → String
  | .notFound => "[Errno 2] No such file or directory"
  | .denied => "[Errno 13] Permission denied"
  | .exists => "[Errno 17] File exists"
  | .notDirectory => "[Errno 20] Not a directory"
  | .isDirectory => "[Errno 21] Is a directory"
  | .nameTooLong => "[Errno 36] File name too long"
  | .badName why => why.message
  | .other => "[Errno 5] Input/output error"

def message (fault : FileFault) (p : Path) : String :=
  match fault with
  | .badName why => why.message
  | fault => fault.text ++ ": " ++ Text.quote p.text

/-- The fault is reported to the user where files may be missing; the others end the program. -/
def isReported : FileFault → Bool
  | .badName _ => false
  | _ => true

/-- The fault says no more than that nothing stands at the path. -/
def isAbsence : FileFault → Bool
  | .notFound | .notDirectory | .badName _ => true
  | _ => false

end FileFault

/-- What stands at a path, after an attempt to get there. -/
def Entry.ofAttempt : Except FileFault Entry → Except FileFault Entry
  | .ok e => .ok e
  | .error fault => if fault.isAbsence then .ok .missing else .error fault

/-- What a command needs of its machine. -/
structure Host (m : Type → Type) where
  directory : Path
  entry : Path → m (Except FileFault Entry)
  read : Path → m (Except FileFault ByteArray)
  write : Path → String → m (Except FileFault Unit)
  makeDirectory : Path → m (Except FileFault Unit)
  print : String → m Unit
  warn : String → m Unit

end ControlReach
