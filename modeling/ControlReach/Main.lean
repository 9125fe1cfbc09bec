import ControlReach.Command.Run

/-!
# The program

The machine that the program really runs on, and its entry point.
-/

namespace ControlReach

def FileFault.ofError : IO.Error → FileFault
  | .noFileOrDirectory _ _ _ => .notFound
  | .noSuchThing _ _ _ => .notFound
  | .permissionDenied _ _ _ => .denied
  | .alreadyExists _ _ _ => .exists
  | .inappropriateType _ code _ => if code = 21 then .isDirectory else .notDirectory
  | .invalidArgument _ code _ => if code = 36 then .nameTooLong else .other
  | _ => .other

def attempt {α : Type} (p : Path) (action : String → IO α) : IO (Except FileFault α) := do
  match nameBytes p.text, Text.plain? p.text with
  | .error why, _ => return .error (.badName why)
  | .ok _, none => return .error .other
  | .ok _, some name =>
    try
      return .ok (← action name)
    catch e =>
      return .error (FileFault.ofError e)

def visible (s : String) : String := (Text.plain? s).getD s

def probe (p : String) : IO Entry := do
  let handle ← IO.FS.Handle.mk p .read
  let _ ← handle.read 1
  return .file

/-- What an attempt to read a file says about it. -/
def entryOf : Except FileFault Entry → Except FileFault Entry
  | .error .isDirectory => .ok .directory
  | .error .denied => .ok .file
  | r => Entry.ofAttempt r

def machine (directory : Path) : Host IO where
  directory := directory
  entry p := return entryOf (← attempt p probe)
  read p := attempt p fun name => IO.FS.readBinFile name
  write p text := attempt p fun name => IO.FS.writeFile name text
  makeDirectory p := attempt p fun name => IO.FS.createDirAll name
  print text := IO.print (visible text)
  warn text := IO.eprint (visible text)

def conclude : Ending → IO UInt32
  | .exit code => return code.toUInt32
  | .stopped why => do
    match why.reason? with
    | none => IO.print (help why.program)
    | some _ => IO.eprint (visible (usage why.program ++ why.message))
    return why.exitCode.toUInt32
  | .crashed crash => do
    IO.eprintln (visible crash.message)
    return 1

end ControlReach

def main (arguments : List String) : IO UInt32 := do
  let directory := ControlReach.Path.ofText (ControlReach.Text.hold (toString (← IO.currentDir)))
  let words := arguments.map ControlReach.Text.hold
  ControlReach.conclude (← ControlReach.run (ControlReach.machine directory) words)
