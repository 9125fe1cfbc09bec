import ControlReach.Data.Yaml.Fault
import ControlReach.Text.Parts

/-!
# Settings

A missing, null or otherwise void section is an empty one, and a missing setting has its default
value. Words of a setting's name are joined by hyphens or by underscores; the hyphens win.
-/

namespace ControlReach

/-- How programs are analyzed. -/
structure AnalysisSettings where
  solverTimeoutMs : Int := 5000
  solverRlimit : Int := 0
  maxWorkers : Int := 4
  exclusiveTableActions : Bool := true
  parallel : Bool := true
  deriving DecidableEq, Repr

/-- Where reports are written. A value that counts as false names no file. -/
structure OutputSettings where
  jsonFile : Value := .null
  sarifFile : Value := .null

/-- What a settings file says. -/
structure Settings where
  analysis : AnalysisSettings := {}
  output : OutputSettings := {}

namespace Settings

/-- Why a section cannot be asked for a setting. -/
inductive LookupFault where
  | notIterable (typeName : String)
  | textIndex
  | listIndex
  | setIndex
  | byteSearch
  /-- The section is a text, a list or a set that does not contain it. -/
  | noEntries
  deriving DecidableEq, Repr

def LookupFault.message : LookupFault → String
  | .notIterable t => "argument of type '" ++ t ++ "' is not iterable"
  | .textIndex => "string indices must be integers, not 'str'"
  | .listIndex => "list indices must be integers or slices, not str"
  | .setIndex => "'set' object is not subscriptable"
  | .byteSearch => "a bytes-like object is required, not 'str'"
  | .noEntries => "no entries"

def isText (key : String) : Value → Bool
  | .text s => s == key
  | _ => false

def underscored (key : String) : String :=
  String.ofList (key.toList.map fun c => if c = '-' then '_' else c)

/-- A setting in a section, by its name with hyphens. -/
def lookup (part : Value) (key : String) (default : Value) : Except LookupFault Value :=
  match part with
  | .object fields =>
    match fields.lookup key with
    | some v => .ok v
    | none => .ok ((fields.lookup (underscored key)).getD default)
  | .list items => .error (if items.any (isText key) then .listIndex else .noEntries)
  | .set members => .error (if members.any (isText key) then .setIndex else .noEntries)
  | .text s => .error (if Text.contains s.toList key.toList then .textIndex else .noEntries)
  | .bytes _ => .error .byteSearch
  | v => .error (.notIterable v.typeName)

end Settings

/-- Why a settings file gives no settings. -/
inductive SettingsFault where
  | unreadable (path : String)
  /-- The file is a document with a scalar that stands for nothing. -/
  | scalar (why : Yaml.Fault)
  | notMapping (path : String)
  | unusable (why : Settings.LookupFault)
  | notInteger (why : Value.IntegerFault)
  | notPositive (key : String)
  | output (why : Settings.LookupFault)
  deriving DecidableEq, Repr

def SettingsFault.message : SettingsFault → String
  | .unreadable path => path ++ ": invalid YAML"
  | .scalar why => why.message
  | .notMapping path => path ++ ": top level must be a mapping"
  | .unusable why => "invalid analysis setting: " ++ why.message
  | .notInteger why => "invalid analysis setting: " ++ why.message
  | .notPositive key => key ++ " must be positive"
  | .output why => why.message

/-- The fault is reported to the user; the others end the program. -/
def SettingsFault.isReported : SettingsFault → Bool
  | .scalar _ | .unusable .noEntries | .notInteger .infinite | .output _ => false
  | _ => true

namespace Settings

/-- A section of a document, empty if it counts as false. -/
def sectionOf (document : Value) (key : String) : Value :=
  match document.get? key with
  | some v => if v.isTrue then v else .object []
  | none => .object []

variable (part : Value) (key : String)

def setting (default : Value) : Except SettingsFault Value :=
  match lookup part key default with
  | .ok v => .ok v
  | .error why => .error (.unusable why)

def integer (default : Int) : Except SettingsFault Int := do
  match (← setting part key (.int default)).toInteger with
  | .ok n => .ok n
  | .error why => .error (.notInteger why)

def outputFile : Except SettingsFault Value :=
  match lookup part key .null with
  | .ok v => .ok v
  | .error why => .error (.output why)

def requirePositive (n : Int) : Except SettingsFault Unit :=
  if n ≤ 0 then .error (.notPositive key) else .ok ()

def analysisOf : Except SettingsFault AnalysisSettings := do
  let defaults : AnalysisSettings := {}
  let solverTimeoutMs ← integer part "solver-timeout-ms" defaults.solverTimeoutMs
  let solverRlimit ← integer part "solver-rlimit" defaults.solverRlimit
  let maxWorkers ← integer part "max-workers" defaults.maxWorkers
  let exclusive ← setting part "exclusive-table-actions" (.bool defaults.exclusiveTableActions)
  let parallel ← setting part "parallel" (.bool defaults.parallel)
  requirePositive "solver-timeout-ms" solverTimeoutMs
  requirePositive "max-workers" maxWorkers
  return ⟨solverTimeoutMs, solverRlimit, maxWorkers, exclusive.isTrue, parallel.isTrue⟩

def outputOf : Except SettingsFault OutputSettings := do
  return ⟨← outputFile part "json-file", ← outputFile part "sarif-file"⟩

def ofValue (document : Value) : Except SettingsFault Settings := do
  return ⟨← analysisOf (sectionOf document "analysis"), ← outputOf (sectionOf document "output")⟩

end Settings

end ControlReach
