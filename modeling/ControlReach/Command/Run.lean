import ControlReach.Command.Arguments
import ControlReach.Command.Host
import ControlReach.Document.Interpret
import ControlReach.Report.Analysis
import ControlReach.Report.Listing
import ControlReach.Report.Sarif
import ControlReach.Settings.File

/-!
# Running commands

`scan` analyzes a program and writes its report; `init` writes a settings file.
-/

namespace ControlReach

/-- A fault that is not reported to the user but ends the program. -/
inductive Crash where
  | settings (fault : SettingsFault)
  /-- A setting that names an output file is no text. -/
  | notPath
  | longNumber (digits : Nat)
  | program (fault : ProgramFault)
  | analysis (fault : AnalysisFault)
  | file (fault : FileFault) (path : Path)

def Crash.message : Crash → String
  | .settings fault => fault.message
  | .notPath => "an output file has to be named by a text"
  | .longNumber digits => Number.tooLongMessage digits
  | .program (.refused e) => e.message
  | .program (.malformed _) => "malformed document"
  | .analysis fault => fault.message
  | .file fault p => fault.message p

/-- How a command ends. -/
inductive Ending where
  | exit (code : Nat)
  | stopped (why : Stop)
  | crashed (crash : Crash)

/-- A command that may end early. -/
abbrev Command (m : Type → Type) := ExceptT Ending m

namespace Command

variable {m : Type → Type} [Monad m]

def use {α : Type} (action : m α) : Command m α := ExceptT.lift action

def crash {α : Type} (why : Crash) : Command m α := throw (.crashed why)

variable (host : Host m)

def fail {α : Type} (message : String) : Command m α := do
  use (host.warn ("Error: " ++ message ++ "\n"))
  throw (.exit 3)

def useFile {α : Type} (p : Path) (action : m (Except FileFault α)) :
    Command m α := do
  match ← use action with
  | .ok a => return a
  | .error fault =>
    if fault.isReported then fail host (fault.message p) else crash (.file fault p)

def needFile {α : Type} (p : Path) (action : m (Except FileFault α)) : Command m α := do
  match ← use action with
  | .ok a => return a
  | .error fault => crash (.file fault p)

/-! ### Settings -/

def findSettings (host : Host m) (directory : Path) : List String → Command m (Option Path)
  | [] => return none
  | name :: rest => do
    let p := directory.child name
    match ← useFile host p (host.entry p) with
    | .missing => findSettings host directory rest
    | _ => return some p

def readSettings (p : Path) : Command m Settings := do
  let bytes ← useFile host p (host.read p)
  match Settings.ofBytes p.text bytes.toList with
  | .ok settings => return settings
  | .error fault =>
    if fault.isReported then fail host fault.message else crash (.settings fault)

/-- The settings for a scan: of the file that is named, or of the one beside the program. -/
def settingsFor (options : ScanOptions) : Command m Settings := do
  match options.config with
  | some (.value p) => readSettings host p
  | _ =>
    let directory := (host.directory.under options.target).normal.parent
    match ← findSettings host directory Settings.fileNames with
    | some p => readSettings host p
    | none => return {}

end Command

def OptionValue.getD {α : Type} (default : α) : Option (OptionValue α) → α
  | some (.value a) => a
  | _ => default

/-- An output file: the one of the option, else the one of the settings, if it does not count as
false. -/
def outputPath (option : Option (OptionValue Path)) (setting : Value) :
    Except Crash (Option Path) :=
  match option with
  | some (.value p) => .ok (some p)
  | some .blank => .ok none
  | none =>
    if setting.isTrue then
      match setting with
      | .text s => .ok (some (Path.ofText s))
      | _ => .error .notPath
    else .ok none

/-- What a scan runs under, after its options. -/
structure ScanSettings where
  analysis : AnalysisSettings
  blanks : BlankLimits
  json : Option Path
  sarif : Option Path

namespace ScanOptions

/-- The analysis settings after the options of a scan. -/
def override (options : ScanOptions) (settings : AnalysisSettings) : AnalysisSettings :=
  { settings with
    solverTimeoutMs := OptionValue.getD settings.solverTimeoutMs options.timeoutMs
    maxWorkers := OptionValue.getD settings.maxWorkers options.workers
    parallel := settings.parallel && !options.noParallel }

/-- The limits that options have left without a number. -/
def blanks (options : ScanOptions) : BlankLimits where
  timeout := options.timeoutMs == some .blank
  workers := options.workers == some .blank

def apply (options : ScanOptions) (settings : Settings) : Except Crash ScanSettings := do
  let json ← outputPath options.outputJson settings.output.jsonFile
  let sarif ← outputPath options.outputSarif settings.output.sarifFile
  return ⟨options.override settings.analysis, options.blanks, json, sarif⟩

end ScanOptions

namespace Command

variable {m : Type → Type} [Monad m] (host : Host m)

def scanSettings (options : ScanOptions) : Command m ScanSettings := do
  match options.apply (← settingsFor host options) with
  | .ok settings => return settings
  | .error why => crash why

def readProgram (p : Path) : Command m Program := do
  let bytes ← useFile host p (host.read p)
  match Text.decode bytes.toList with
  | .error _ => fail host (p.text ++ ": not UTF-8 text")
  | .ok text =>
    match Json.ofText (String.ofList text) with
    | .error .malformed => fail host (p.text ++ ": invalid JSON")
    | .error (.tooLong digits) => crash (.longNumber digits)
    | .ok document =>
      match Program.load p.text document with
      | .ok program => return program
      | .error (.refused e) =>
        if e.isReported then fail host e.message else crash (.program (.refused e))
      | .error fault => crash (.program fault)

def writeDocument (p : Path) (document : Value) (what : String) :
    Command m Unit := do
  needFile p.parent (host.makeDirectory p.parent)
  needFile p (host.write p (Json.indented 0 document))
  use (host.print (what ++ " written to " ++ p.text ++ "\n"))

def scan (options : ScanOptions) : Command m Nat := do
  if (← needFile options.target (host.entry options.target)) = .missing then
    fail host ("Target not found: " ++ options.target.text)
  let settings ← scanSettings host options
  let program ← readProgram host options.target
  match program.analyze settings.analysis Token.never settings.blanks with
  | .error fault => crash (.analysis fault)
  | .ok report =>
    use (host.print report.listing)
    if let some p := settings.json then
      writeDocument host p report.toValue "JSON report"
    if let some p := settings.sarif then
      writeDocument host p (report.toSarif ⟨host.directory, host.directory⟩) "SARIF"
    return report.exitCode

def initialSettings (options : InitOptions) : Command m Nat := do
  if (← needFile options.directory (host.entry options.directory)) != .directory then
    fail host ("not a directory: " ++ options.directory.text)
  let p := options.directory.child Settings.fileName
  if (← needFile p (host.entry p)) != .missing && !options.overwrite then
    use (host.warn (p.text ++ " already exists (use --overwrite to replace it)\n"))
    return 3
  needFile p (host.write p (Settings.toText {}))
  use (host.print ("wrote " ++ p.text ++ "\n"))
  return 0

end Command

/-! ### Help -/

def usage (program : String) : String :=
  if program = scanShape.program then
    "usage: p4reach scan [-h] [--verbose] [--config CONFIG]\n" ++
    "                    [--timeout-ms TIMEOUT_MS] [--workers WORKERS]\n" ++
    "                    [--no-parallel] [--output-json OUTPUT_JSON]\n" ++
    "                    [--output-sarif OUTPUT_SARIF]\n" ++
    "                    target\n"
  else if program = initShape.program then "usage: p4reach init [-h] [--overwrite] [repo]\n"
  else "usage: p4reach [-h] \x7bscan,init\x7d ...\n"

def help (program : String) : String :=
  usage program ++
  if program = scanShape.program then
    "\npositional arguments:\n" ++
    "  target                JSON AST file of the program to analyze\n\n" ++
    "options:\n" ++
    "  -h, --help            show this help message and exit\n" ++
    "  --verbose             Verbose output\n" ++
    "  --config CONFIG       Path to a .p4reach.yml (default: look next to the\n" ++
    "                        program)\n" ++
    "  --timeout-ms TIMEOUT_MS\n" ++
    "                        Per-query solver timeout in milliseconds (default:\n" ++
    "                        5000)\n" ++
    "  --workers WORKERS     Worker threads for CFG construction and solving\n" ++
    "                        (default: 4)\n" ++
    "  --no-parallel         Run every control and target sequentially\n" ++
    "  --output-json OUTPUT_JSON\n" ++
    "                        Write the full report as JSON to this path\n" ++
    "  --output-sarif OUTPUT_SARIF\n" ++
    "                        Write results as SARIF 2.1.0 to this path\n"
  else if program = initShape.program then
    "\npositional arguments:\n" ++
    "  repo         Directory to write the configuration into\n\n" ++
    "options:\n" ++
    "  -h, --help   show this help message and exit\n" ++
    "  --overwrite  Replace an existing configuration file\n"
  else
    "\np4reach: SMT-based reachability checking for P4-style controls\n\n" ++
    "positional arguments:\n" ++
    "  \x7bscan,init\x7d\n" ++
    "    scan       Check every bug()/assert() target of a program\n" ++
    "    init       Write a default .p4reach.yml\n\n" ++
    "options:\n" ++
    "  -h, --help   show this help message and exit\n"

/-! ### Invocations -/

def Invocation.perform {m : Type → Type} [Monad m] (host : Host m) : Invocation → Command m Nat
  | .nothing => do
    Command.use (host.print (help mainShape.program))
    return 0
  | .scan options => Command.scan host options
  | .init options => Command.initialSettings host options

def run {m : Type → Type} [Monad m] (host : Host m) (arguments : List String) : m Ending := do
  match Invocation.ofArguments arguments with
  | .error why => return .stopped why
  | .ok invocation =>
    match ← (invocation.perform host).run with
    | .ok code => return .exit code
    | .error ending => return ending

end ControlReach
