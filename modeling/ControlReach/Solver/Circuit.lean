import ControlReach.Formula.Eval
import ControlReach.Solver.Clause
import ControlReach.Solver.StringValue
import Std.Data.TreeMap.Basic

/-!
# Circuits

A list of gates, each of which has a truth value that follows from unknowns and earlier gates. A
part that occurs at many places of a formula is one gate.
-/

namespace ControlReach

/-! ### Gates -/

/-- A string term of a circuit. -/
inductive Str where
  | const (value : StringValue)
  | sym (name : String)
  deriving DecidableEq, Repr

namespace Str

def value (v : Valuation StringValue) : Str → StringValue
  | .const s => s
  | .sym x => v.text x

def constant? : Str → Option StringValue
  | .const v => some v
  | .sym _ => none

def unknown? : Str → Option String
  | .const _ => none
  | .sym x => some x

end Str

/-- Something that is true or false. Literals say which other gates it depends on. -/
inductive Gate where
  | truth
  | flag (name : String)
  | same (a b : Str)
  | all (parts : List Literal)
  | iff (a b : Literal)
  /-- Exactly one place of a list holds. -/
  | one (parts : List Literal)
  deriving DecidableEq, Repr

def Gate.value (v : Valuation StringValue) (known : Nat → Bool) : Gate → Bool
  | .truth => true
  | .flag x => v.flag x
  | .same s t => s.value v == t.value v
  | .all parts => parts.all (Literal.holds known)
  | .iff a b => a.holds known == b.holds known
  | .one parts => parts.countP (Literal.holds known) == 1

/-! ### Circuits -/

/-- Gates, each of which depends on earlier ones only. -/
structure Circuit where
  gates : Array Gate
  /-- The gates of Boolean unknowns. -/
  flags : Std.TreeMap String Nat
  /-- The gates that depend on others, by kind and parts. -/
  nodes : Std.TreeMap (List Nat) Nat
  strings : Array Str
  /-- For each string, the strings it is compared with and the gates of these equalities. -/
  links : Array (List (Nat × Nat))
  /-- What holds for equalities beyond what their gates say. -/
  ties : Array Clause

namespace Circuit

def initial : Circuit :=
  { gates := #[.truth], flags := ∅, nodes := ∅, strings := #[], links := #[], ties := #[] }

def values (c : Circuit) (v : Valuation StringValue) : Array Bool :=
  c.gates.foldl (fun known g => known.push (g.value v fun i => known.getD i false)) #[]

def holds (c : Circuit) (v : Valuation StringValue) (roots : List Literal) : Bool :=
  let known := c.values v
  roots.all (Literal.holds fun i => known.getD i false)

def constants (c : Circuit) : List StringValue := c.strings.toList.filterMap Str.constant?

def unknowns (c : Circuit) : List String := c.strings.toList.filterMap Str.unknown?

end Circuit

/-! ### Wiring -/

/-- A step that may add gates. -/
abbrev Wiring (α : Type) := StateM Circuit α

namespace Wiring

def truth : Literal := Literal.ofIndex 0

def constant (b : Bool) : Literal := if b then truth else truth.opposite

def add (g : Gate) : Wiring Nat :=
  modifyGet fun c => (c.gates.size, { c with gates := c.gates.push g })

def flag (x : String) : Wiring Literal := do
  match (← get).flags.get? x with
  | some i => return .ofIndex i
  | none =>
    let i ← add (.flag x)
    modify fun c => { c with flags := c.flags.insert x i }
    return .ofIndex i

def string (s : Str) : Wiring Nat := do
  match (← get).strings.findIdx? (· == s) with
  | some i => return i
  | none =>
    modifyGet fun c =>
      (c.strings.size, { c with strings := c.strings.push s, links := c.links.push [] })

def link (i j n : Nat) : Wiring Unit :=
  modify fun c => { c with links := c.links.modify i ((j, n) :: ·) }

/-- The literal of an equality of two different strings with the given numbers. -/
def equality (i j : Nat) : Wiring Literal := do
  let c ← get
  match (c.links.getD i []).lookup j with
  | some n => return .ofIndex n
  | none =>
    let s := c.strings.getD i (.const [])
    let t := c.strings.getD j (.const [])
    let n ← add (.same s t)
    link i j n
    link j i n
    return .ofIndex n

def same (s t : Str) : Wiring Literal :=
  if s = t then return constant true
  else
    match s, t with
    | .const _, .const _ => return constant false
    | s, t => do equality (← string s) (← string t)

def node (kind : Nat) (parts : List Literal) (g : Gate) : Wiring Literal := do
  let key := kind :: parts.map Literal.code
  match (← get).nodes.get? key with
  | some i => return .ofIndex i
  | none =>
    let i ← add g
    modify fun c => { c with nodes := c.nodes.insert key i }
    return .ofIndex i

def conjunction (parts : List Literal) : Wiring Literal :=
  match parts with
  | [] => return truth
  | [l] => return l
  | parts => node 0 parts (.all parts)

def disjunction (parts : List Literal) : Wiring Literal := do
  return (← conjunction (parts.map Literal.opposite)).opposite

/-- The literal without its opposition, and whether there was one. -/
def plain (l : Literal) : Literal × Bool := if l.isPlain then (l, false) else (l.opposite, true)

def equivalence (a b : Literal) : Wiring Literal := do
  let (a, m) := plain a
  let (b, n) := plain b
  let l ← if a.code ≤ b.code then node 1 [a, b] (.iff a b) else node 1 [b, a] (.iff b a)
  return if m == n then l else l.opposite

def exactlyOne (parts : List Literal) : Wiring Literal :=
  match parts with
  | [] => return constant false
  | [l] => return l
  | parts => node 2 parts (.one parts)

end Wiring

end ControlReach
