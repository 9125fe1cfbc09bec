import ControlReach.Solver.Choice
import ControlReach.Solver.Encode
import ControlReach.Solver.Learn

/-!
# Satisfiability

A search among clauses answers whether some choice of values makes all literals true. What it finds
is tried on the circuit; should it end without an answer, all choices are tried that can make a
difference: besides the constants, one more string for each unknown is enough.
-/

namespace ControlReach

/-! ### From clauses to choices -/

namespace Circuit

def isMarked (marks : Array Status) (n : Nat) : Bool :=
  marks.getD (Literal.ofIndex n).code .undecided = .holds

/-- Classes of strings that are equal, each named by one of its members. -/
def classes (c : Circuit) (marks : Array Status) : Array Nat :=
  (List.range c.strings.size).foldl
    (fun names i =>
      (c.links.getD i []).foldl
        (fun names (j, n) =>
          if isMarked marks n then
            let old := names.getD j j
            let new := names.getD i i
            names.map fun k => if k = old then new else k
          else names)
        names)
    (Array.range c.strings.size)

def choice (c : Circuit) (marks : Array Status) : Choice :=
  let names := c.classes marks
  let constants := c.strings.toList.zipIdx.filterMap fun (s, i) =>
    s.constant?.map fun v => (names.getD i i, v)
  let long := Choice.longer (constants.map Prod.snd)
  { flags := c.flags.map fun _ n => isMarked marks n
    texts := c.strings.toList.zipIdx.foldl
      (fun texts (s, i) =>
        match s with
        | .const _ => texts
        | .sym x =>
          let name := names.getD i i
          texts.insert x ((constants.lookup name).getD (long ++ List.replicate name 97)))
      ∅ }

end Circuit

/-! ### All choices -/

namespace Problem

/-- The strings to try: the constants, and as many others as there are unknowns. -/
def strings (p : Problem) : List StringValue :=
  let constants := p.circuit.constants
  let others := (List.range p.circuit.unknowns.length).map fun i =>
    Choice.longer constants ++ List.replicate i 97
  constants ++ others

def trials (p : Problem) : List (Choice → List Choice) :=
  p.circuit.flags.keys.map (fun x c => [c.setFlag x false, c.setFlag x true]) ++
    p.circuit.unknowns.map fun x c => p.strings.map (c.setText x)

def tryAll (p : Problem) : List (Choice → List Choice) → Choice → Option Choice
  | [], c => if c.satisfies p then some c else none
  | step :: rest, c => (step c).findSome? (tryAll p rest)

/-- The truth values to try first: false, or the opposites of those in another choice. -/
def habits (c : Circuit) : Option Choice → Array Bool
  | none => Array.replicate c.gates.size false
  | some other => (c.values other.valuation).map (!·)

/-- A choice that satisfies a problem, if there is one; rather one that is unlike another choice. -/
def solve (p : Problem) (other : Option Choice) : Option Choice :=
  let c := p.circuit.closed
  match (c.base p.roots).search c.gates.size (habits c other) with
  | .refuted => none
  | .found marks =>
    let choice := c.choice marks
    if choice.satisfies p then some choice else p.tryAll p.trials Choice.empty
  | .exhausted => p.tryAll p.trials Choice.empty

end Problem

end ControlReach
