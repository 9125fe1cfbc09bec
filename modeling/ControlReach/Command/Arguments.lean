import ControlReach.Data.Path
import ControlReach.Number.Integer

/-!
# Command line arguments

A command has options and at most one operand. A word that starts with a hyphen is an option,
except a lone hyphen, a negative number, and a word that holds a blank. An option may be cut short
if no other starts in the same way, and its value may follow an equals sign. After the word `--`
there are no options; as a value it stands for none.
-/

namespace ControlReach

/-- What an option sets. -/
inductive OptionName where
  | help
  | verbose
  | config
  | timeoutMs
  | workers
  | noParallel
  | outputJson
  | outputSarif
  | overwrite
  deriving DecidableEq, Repr

/-- What follows an option. -/
inductive Arity where
  | nothing
  | text
  | integer
  deriving DecidableEq, Repr

/-- An option, how it is spelled and whether a value follows it. -/
structure OptionSpec where
  name : OptionName
  spellings : List String
  arity : Arity
  deriving DecidableEq, Repr

def OptionSpec.text (o : OptionSpec) : String := Text.join "/" o.spellings

/-- A word of a command that belongs to no option. -/
structure Operand where
  name : String
  required : Bool
  deriving DecidableEq, Repr

/-- What a command takes. -/
structure Shape where
  program : String
  options : List OptionSpec
  operand : Operand
  deriving DecidableEq, Repr

/-- Why arguments are no invocation. -/
inductive Stop where
  | help (program : String)
  | ambiguous (program option : String) (candidates : List String)
  | noValue (program : String) (option : OptionSpec)
  | unwantedValue (program : String) (option : OptionSpec) (value : String)
  | notInteger (program : String) (option : OptionSpec) (value : String)
  | missing (program operand : String)
  | unknownCommand (program word : String) (commands : List String)
  | unrecognized (program : String) (words : List String)

namespace Stop

def program : Stop → String
  | .help p | .ambiguous p _ _ | .noValue p _ | .unwantedValue p _ _ | .notInteger p _ _
  | .missing p _ | .unknownCommand p _ _ | .unrecognized p _ => p

def reason? : Stop → Option String
  | .help _ => none
  | .ambiguous _ o candidates =>
    some ("ambiguous option: " ++ o ++ " could match " ++ Text.commaList candidates)
  | .noValue _ o => some ("argument " ++ o.text ++ ": expected one argument")
  | .unwantedValue _ o v =>
    some ("argument " ++ o.text ++ ": ignored explicit argument " ++ Text.quote v)
  | .notInteger _ o v => some ("argument " ++ o.text ++ ": invalid int value: " ++ Text.quote v)
  | .missing _ operand => some ("the following arguments are required: " ++ operand)
  | .unknownCommand _ word commands =>
    some ("argument command: invalid choice: " ++ Text.quote word ++ " (choose from " ++
      Text.commaList (commands.map Text.quote) ++ ")")
  | .unrecognized _ words => some ("unrecognized arguments: " ++ Text.join " " words)

/-- The line that says why, with a line break; empty if help was asked for. -/
def message (s : Stop) : String :=
  match s.reason? with
  | some why => s.program ++ ": error: " ++ why ++ "\n"
  | none => ""

def exitCode (s : Stop) : Nat := if s.reason?.isSome then 2 else 0

end Stop

/-! ### What each word is -/

def separator : String := "--"

/-- What a word is: an option, known or not, with its attached value; the separator; or anything
else. -/
inductive Mark where
  | operand
  | separator
  | known (option : OptionSpec) (spelling : String) (attached : Option String)
  | unknown
  deriving DecidableEq, Repr

def splitEquals (word : String) : String × Option String :=
  match word.toList.span (· != '=') with
  | (before, _ :: after) => (String.ofList before, some (String.ofList after))
  | (_, []) => (word, none)

/-- A hyphen and digits, with or without a point; a line break may follow. -/
def isNegativeNumber (word : String) : Bool :=
  match word.toList with
  | '-' :: rest =>
    let (whole, rest) := rest.span isDigit
    if ends rest then !whole.isEmpty
    else
      match rest with
      | '.' :: fraction =>
        let (fraction, rest) := fraction.span isDigit
        !fraction.isEmpty && ends rest
      | _ => false
  | _ => false
where
  ends (cs : List Char) : Bool := cs.isEmpty || cs == ['\n']
  /-- A decimal digit of any script. -/
  isDigit (c : Char) : Bool := (Text.digitValue? c).isSome

namespace Shape

def spellings (shape : Shape) : List (String × OptionSpec) :=
  shape.options.flatMap fun o => o.spellings.map (·, o)

/-- The options that a shortened word can stand for: long ones that start so, or the one of its
first letter. -/
def candidates (shape : Shape) (word : String) : List (String × OptionSpec × Option String) :=
  match word.toList with
  | '-' :: '-' :: _ =>
    let (start, attached) := splitEquals word
    (shape.spellings.filter fun s => Text.beginsWith s.1.toList start.toList).map
      fun (s, o) => (s, o, attached)
  | '-' :: c :: rest =>
    shape.spellings.filterMap fun (s, o) =>
      if s.toList = ['-', c] then some (s, o, some (String.ofList rest))
      else if Text.beginsWith s.toList word.toList then some (s, o, none)
      else none
  | _ => []

def mark (shape : Shape) (word : String) : Except Stop Mark :=
  match word.toList with
  | '-' :: _ :: _ =>
    match shape.spellings.lookup word with
    | some o => .ok (.known o word none)
    | none =>
      let (start, attached) := splitEquals word
      match attached.bind fun _ => shape.spellings.lookup start with
      | some o => .ok (.known o start attached)
      | none =>
        match shape.candidates word with
        | [(s, o, attached)] => .ok (.known o s attached)
        | [] =>
          .ok (if isNegativeNumber word || ' ' ∈ word.toList then .operand else .unknown)
        | several => .error (.ambiguous shape.program word (several.map (·.1)))
  | _ => .ok .operand

def classify (shape : Shape) : List String → Except Stop (List (String × Mark))
  | [] => .ok []
  | word :: rest =>
    if word = separator then .ok ((word, .separator) :: rest.map (·, .operand))
    else do
      let m ← shape.mark word
      return (word, m) :: (← shape.classify rest)

end Shape

/-! ### Options and operand -/

/-- What follows an option. -/
inductive OptionValue (α : Type) where
  | value (a : α)
  /-- The separator, which leaves the option without a value. -/
  | blank
  deriving DecidableEq, Repr

/-- The words put to use so far. -/
structure Given where
  options : List (OptionName × String) := []
  /-- The operand; `none` inside if its place was taken without a word. -/
  operand : Option (Option String) := none
  unused : List String := []
  deriving DecidableEq, Repr

namespace Given

variable (g : Given) (o : OptionName)

def addOption (value : String) : Given :=
  { g with options := (o, value) :: g.options }

def addUnused (word : String) : Given := { g with unused := g.unused ++ [word] }

def has : Bool := (g.options.lookup o).isSome

def read? {α : Type} (read : String → Option α) : Option (OptionValue α) :=
  (g.options.lookup o).bind fun text =>
    if text = separator then some .blank else (read text).map .value

def path? : Option (OptionValue Path) :=
  g.read? o fun text => some (Path.ofText text)

def integer? : Option (OptionValue Int) := g.read? o Number.ofText?

end Given

namespace Shape

variable (shape : Shape) (o : OptionSpec)

def useValue (value : String) (g : Given) : Except Stop Given :=
  if o.arity = .integer && value != separator && (Number.ofText? value).isNone then
    .error (.notInteger shape.program o value)
  else .ok (g.addOption o.name value)

def useFlag (g : Given) : Except Stop Given :=
  if o.name = .help then .error (.help shape.program) else .ok (g.addOption o.name "")

/-- An option that takes no value has one attached. Letters attached to `-h` are options. -/
def refuseAttached (spelling value : String) : Stop :=
  let rest := if spelling = "-h" then value.toList.dropWhile (· == 'h') else value.toList
  if rest.isEmpty && value != "" then .help shape.program
  else .unwantedValue shape.program o (String.ofList rest)

def useAttached (spelling value : String) (g : Given) : Except Stop Given :=
  if o.arity = .nothing then .error (shape.refuseAttached o spelling value)
  else shape.useValue o value g

def consume (shape : Shape) : List (String × Mark) → Given → Except Stop Given
  | [], g => .ok g
  | (word, .unknown) :: rest, g => shape.consume rest (g.addUnused word)
  | (_, .known o spelling (some value)) :: rest, g => do
    shape.consume rest (← shape.useAttached o spelling value g)
  | (_, .known o _ none) :: rest, g =>
    if o.arity = .nothing then do shape.consume rest (← shape.useFlag o g)
    else
      match rest with
      | (value, .operand) :: rest => do shape.consume rest (← shape.useValue o value g)
      | _ => .error (.noValue shape.program o)
  | (word, .operand) :: rest, g =>
    match g.operand, rest with
    | none, (_, .separator) :: rest => shape.consume rest { g with operand := some (some word) }
    | none, rest => shape.consume rest { g with operand := some (some word) }
    | some _, rest => shape.consume rest (g.addUnused word)
  | (word, .separator) :: rest, g =>
    match g.operand, rest with
    | none, (value, .operand) :: rest =>
      shape.consume rest { g with operand := some (some value) }
    | none, rest =>
      if shape.operand.required then shape.consume rest (g.addUnused word)
      else shape.consume rest { g with operand := some none }
    | some _, rest => shape.consume rest (g.addUnused word)

def read (words : List String) : Except Stop Given := do
  let g ← shape.consume (← shape.classify words) {}
  if shape.operand.required && g.operand.isNone then
    .error (.missing shape.program shape.operand.name)
  else .ok g

end Shape

/-! ### Commands -/

def helpOption : OptionSpec := ⟨.help, ["-h", "--help"], .nothing⟩

def mainShape : Shape := ⟨"p4reach", [helpOption], ⟨"command", false⟩⟩

def scanShape : Shape where
  program := "p4reach scan"
  options := [helpOption, ⟨.verbose, ["--verbose"], .nothing⟩, ⟨.config, ["--config"], .text⟩,
    ⟨.timeoutMs, ["--timeout-ms"], .integer⟩, ⟨.workers, ["--workers"], .integer⟩,
    ⟨.noParallel, ["--no-parallel"], .nothing⟩, ⟨.outputJson, ["--output-json"], .text⟩,
    ⟨.outputSarif, ["--output-sarif"], .text⟩]
  operand := ⟨"target", true⟩

def initShape : Shape where
  program := "p4reach init"
  options := [helpOption, ⟨.overwrite, ["--overwrite"], .nothing⟩]
  operand := ⟨"repo", false⟩

/-- The command line of a scan. -/
structure ScanOptions where
  target : Path
  config : Option (OptionValue Path) := none
  timeoutMs : Option (OptionValue Int) := none
  workers : Option (OptionValue Int) := none
  noParallel : Bool := false
  outputJson : Option (OptionValue Path) := none
  outputSarif : Option (OptionValue Path) := none
  deriving DecidableEq, Repr

/-- The command line that writes a settings file. -/
structure InitOptions where
  directory : Path
  overwrite : Bool
  deriving DecidableEq, Repr

/-- What the program is to do. -/
inductive Invocation where
  | nothing
  | scan (options : ScanOptions)
  | init (options : InitOptions)
  deriving DecidableEq, Repr

namespace Invocation

def commands : List String := ["scan", "init"]

def operandPath (g : Given) : Path := Path.ofText ((g.operand.bind id).getD ".")

/-- The invocation of a command with its words, and the words for which there is no use. -/
def ofCommand (command : String) (words : List String) :
    Except Stop (Invocation × List String) := do
  if command = "scan" then
    let g ← scanShape.read words
    return (.scan {
      target := operandPath g
      config := g.path? .config
      timeoutMs := g.integer? .timeoutMs
      workers := g.integer? .workers
      noParallel := g.has .noParallel
      outputJson := g.path? .outputJson
      outputSarif := g.path? .outputSarif }, g.unused)
  else if command = "init" then
    let g ← initShape.read words
    return (.init ⟨operandPath g, g.has .overwrite⟩, g.unused)
  else .error (.unknownCommand mainShape.program command commands)

/-- The first word that is no option is the command, and all after it are the command's. -/
def ofMarked : List (String × Mark) → Given → Except Stop (Invocation × List String)
  | [], g => .ok (.nothing, g.unused)
  | (word, .unknown) :: rest, g => ofMarked rest (g.addUnused word)
  | (_, .known o spelling (some value)) :: rest, g => do
    ofMarked rest (← mainShape.useAttached o spelling value g)
  | (_, .known o _ none) :: rest, g => do ofMarked rest (← mainShape.useFlag o g)
  | (word, .operand) :: rest, g => do
    let (invocation, unused) ← ofCommand word (rest.map (·.1))
    return (invocation, g.unused ++ unused)
  | (word, .separator) :: rest, g =>
    if rest.isEmpty then .ok (.nothing, g.unused ++ [word])
    else .error (.unknownCommand mainShape.program word commands)

def withCommand (arguments : List String) : List String :=
  match arguments with
  | word :: _ =>
    if word ∈ commands || word.toList.head? = some '-' then arguments else "scan" :: arguments
  | [] => []

def ofArguments (arguments : List String) : Except Stop Invocation := do
  let (invocation, unused) ← ofMarked (← mainShape.classify (withCommand arguments)) {}
  if unused.isEmpty then .ok invocation else .error (.unrecognized mainShape.program unused)

end Invocation

end ControlReach
