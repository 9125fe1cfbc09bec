import ControlReach.Data.Yaml.Block
import ControlReach.Data.Yaml.Document
import ControlReach.Settings.Basic

/-!
# Settings files
-/

namespace ControlReach

namespace Settings

def fileName : String := ".p4reach.yml"

/-- The names of settings files; the first that exists is read. -/
def fileNames : List String := [fileName, ".p4reach.yaml"]

/-- The settings in a file. A document that counts as false holds none. -/
def ofBytes (path : String) (content : List UInt8) : Except SettingsFault Settings :=
  match Yaml.ofBytes content with
  | .error .malformed => .error (.unreadable path)
  | .error why => .error (.scalar why)
  | .ok document =>
    if !document.isTrue then ofValue (.object [])
    else
      match document with
      | .object _ => ofValue document
      | _ => .error (.notMapping path)

end Settings

def AnalysisSettings.entries (a : AnalysisSettings) : List (String × Value) :=
  [("solver-timeout-ms", .int a.solverTimeoutMs), ("solver-rlimit", .int a.solverRlimit),
    ("max-workers", .int a.maxWorkers),
    ("exclusive-table-actions", .bool a.exclusiveTableActions), ("parallel", .bool a.parallel)]

def OutputSettings.entries (o : OutputSettings) : List (String × Value) :=
  [("json-file", o.jsonFile), ("sarif-file", o.sarifFile)].filter fun p => p.2.isTrue

/-- A file with the given entries; a section of the output is left out if it is empty. -/
def Settings.fileText (analysis output : List (String × Value)) : String :=
  "# " ++ fileName ++ "\n" ++ Yaml.writeMapping
    (("analysis", .object analysis) ::
      if output.isEmpty then [] else [("output", .object output)])

def Settings.toText (s : Settings) : String := fileText s.analysis.entries s.output.entries

end ControlReach
