import ControlReach.Solver.Problem
import Std.Data.TreeMap.AdditionalOperations

/-!
# Choices

Values for finitely many unknowns.
-/

namespace ControlReach

/-- Values for some unknowns. -/
structure Choice where
  flags : Std.TreeMap String Bool
  texts : Std.TreeMap String StringValue

/-- A value of either sort. -/
inductive Denotation where
  | flag (b : Bool)
  | text (v : StringValue)
  deriving DecidableEq, Repr

namespace Choice

def empty : Choice := ⟨∅, ∅⟩

variable (c : Choice)

/-- Values for all unknowns; what is not listed is false or empty. -/
def valuation : Valuation StringValue :=
  ⟨fun x => c.flags.getD x false, fun x => c.texts.getD x []⟩

def satisfies (p : Problem) : Bool := p.holds c.valuation

def setFlag (x : String) (b : Bool) : Choice := { c with flags := c.flags.insert x b }

def setText (x : String) (v : StringValue) : Choice :=
  { c with texts := c.texts.insert x v }

def value (s : Symbol) : Denotation :=
  match s.sort with
  | .bool => .flag (c.valuation.flag (knownName s.name))
  | .string => .text (c.valuation.text (knownName s.name))

def longer (constants : List StringValue) : StringValue :=
  List.replicate ((constants.map List.length).foldl max 0 + 1) 97

/-- Give other strings to all unknowns that do not have one of the given strings. -/
def vary (constants : List StringValue) (c : Choice) : Choice :=
  { c with texts := c.texts.map fun _ v => if v ∈ constants then v else v ++ longer constants }

end Choice

/-- The literal that says that an unknown does not have a value. -/
def Wiring.differs (s : Symbol) (d : Denotation) : Wiring Literal :=
  let x := knownName s.name
  match d with
  | .flag b => do
    let l ← Wiring.flag x
    return if b then l.opposite else l
  | .text v => do return (← Wiring.same (.sym x) (.const v)).opposite

/-- The problem to find a choice in which some of the unknowns do not have their values in `c`. -/
def Problem.exclude (p : Problem) (c : Choice) (unknowns : List Symbol) : Problem :=
  p.require do Wiring.disjunction (← unknowns.mapM fun s => Wiring.differs s (c.value s))

end ControlReach
