import ControlReach.Solver.Circuit
import ControlReach.Text.Bytes

/-!
# Problems

Terms that are to hold, as literals of a circuit. Terms may share parts, so what a part became is
kept for a while and looked up by a sketch. Only equal terms are taken for each other.
-/

namespace ControlReach

/-- What the solver knows of the name of an unknown: it ends before the first null character. -/
def knownName (x : String) : String :=
  if x.toList.contains '\x00' then String.ofList (x.toList.takeWhile (· != '\x00')) else x

/-- Why the solver cannot be given a term. -/
inductive EncodingFault where
  /-- A truth value and a string are compared, or one stands where the other is needed. -/
  | sortMismatch
  | badName (run : Text.HalfRun)
  deriving DecidableEq, Repr

/-- What a term is for the solver. -/
inductive Signal where
  | flag (l : Literal)
  | str (s : Str)

def Signal.literal : Signal → Except EncodingFault Literal
  | .flag l => .ok l
  | .str _ => .error .sortMismatch

/-! ### Memory -/

namespace Term

def mix (a b : Nat) : Nat := (1000003 * a + b) % 2147483647

def sketchText (s : String) : Nat := s.toList.foldl (fun n c => mix n c.toNat) 7

mutual

/-- A number that equal terms have in common, and different ones seldom. -/
def sketch (depth : Nat) : Term → Nat
  | .bool b => if b then 1 else 2
  | .text s => mix 3 (sketchText s)
  | .symbol s => mix 4 (sketchText s.name)
  | .not a => if depth = 0 then 5 else mix 5 (sketch (depth - 1) a)
  | .and as => mix 6 (if depth = 0 then as.length else sketchList (depth - 1) 4 as)
  | .or as => mix 7 (if depth = 0 then as.length else sketchList (depth - 1) 4 as)
  | .eq a b => if depth = 0 then 8 else mix (mix 8 (sketch (depth - 1) a)) (sketch (depth - 1) b)
  | .one as => mix 9 (if depth = 0 then as.length else sketchList (depth - 1) 4 as)

def sketchList (depth width : Nat) : List Term → Nat
  | [] => 1
  | a :: as =>
    if width = 0 then as.length + 2 else mix (sketchList depth (width - 1) as) (sketch depth a)

end

end Term

/-- What became of terms, by their sketches, the latest first. -/
abbrev Memory := Std.TreeMap Nat (List (Term × Except EncodingFault Signal))

namespace Memory

/-- How many terms of one sketch are remembered. -/
def span : Nat := 16

/-- What became of a term, if it is remembered. -/
def find? (m : Memory) (key : Nat) (t : Term) : Option (Except EncodingFault Signal) :=
  (m.getD key []).lookup t

def record (m : Memory) (key : Nat) (t : Term) (r : Except EncodingFault Signal) : Memory :=
  m.insert key (((t, r) :: m.getD key []).take span)

end Memory

/-! ### Terms -/

/-- A circuit under construction, and the terms already wired. -/
structure Workbench where
  circuit : Circuit
  memory : Memory

/-- A step that may add gates and remember terms. -/
abbrev Assembly (α : Type) := StateM Workbench α

namespace Assembly

def lift {α : Type} (step : Wiring α) : Assembly α := fun w =>
  match w with
  | ⟨circuit, memory⟩ =>
    match step circuit with
    | (a, circuit) => (a, ⟨circuit, memory⟩)

/-- A step on literals, unless there is a fault. -/
def onAll (step : List Literal → Wiring Literal) :
    Except EncodingFault (List Literal) → Assembly (Except EncodingFault Signal)
  | .error fault => return .error fault
  | .ok ls => do return .ok (.flag (← lift (step ls)))

def compare : Signal → Signal → Assembly (Except EncodingFault Signal)
  | .flag l, .flag m => do return .ok (.flag (← lift (Wiring.equivalence l m)))
  | .str s, .str t => do return .ok (.flag (← lift (Wiring.same s t)))
  | _, _ => return .error .sortMismatch

/-- What became of a term: as it is remembered, or by a step, which is then remembered. -/
def remembered (t : Term) (step : Assembly (Except EncodingFault Signal)) :
    Assembly (Except EncodingFault Signal) := do
  let key := t.sketch 2
  match (← get).memory.find? key t with
  | some r => return r
  | none =>
    let r ← step
    modify fun w => { w with memory := w.memory.record key t r }
    return r

def unknown (s : Symbol) : Assembly (Except EncodingFault Signal) :=
  match Text.encode s.name, s.sort with
  | .error run, _ => return .error (.badName run)
  | .ok _, .bool => do return .ok (.flag (← lift (Wiring.flag (knownName s.name))))
  | .ok _, .string => return .ok (.str (.sym (knownName s.name)))

end Assembly

namespace Term

mutual

/-- The signal of a term, or the first fault from left to right. -/
def wire : Term → Assembly (Except EncodingFault Signal)
  | .bool b => return .ok (.flag (Wiring.constant b))
  | .text s => return .ok (.str (.const (StringValue.ofText s)))
  | .symbol s => Assembly.unknown s
  | .not a => do return ((← wire a).bind Signal.literal).map fun l => .flag l.opposite
  | .and as => Assembly.remembered (.and as) do
    Assembly.onAll Wiring.conjunction (← wireAll as)
  | .or as => Assembly.remembered (.or as) do
    Assembly.onAll Wiring.disjunction (← wireAll as)
  | .eq a b => Assembly.remembered (.eq a b) do
    match ← wire a with
    | .error fault => return .error fault
    | .ok s =>
      match ← wire b with
      | .error fault => return .error fault
      | .ok t => Assembly.compare s t
  | .one as => Assembly.remembered (.one as) do
    Assembly.onAll Wiring.exactlyOne (← wireAll as)

def wireAll : List Term → Assembly (Except EncodingFault (List Literal))
  | [] => return .ok []
  | a :: as => do
    match (← wire a).bind Signal.literal with
    | .error fault => return .error fault
    | .ok l => return (← wireAll as).map (l :: ·)

end

end Term

/-! ### Problems -/

/-- A circuit and the literals that must hold. -/
structure Problem where
  circuit : Circuit
  roots : List Literal

namespace Problem

/-- The problem of terms that are to hold. Equal parts are made one object in memory first. -/
def ofTerms (terms : List Term) : Except EncodingFault Problem :=
  match (Term.wireAll (ShareCommon.shareCommon' terms)).run ⟨.initial, ∅⟩ with
  | (.ok roots, w) => .ok ⟨w.circuit, roots⟩
  | (.error fault, _) => .error fault

def holds (p : Problem) (v : Valuation StringValue) : Bool := p.circuit.holds v p.roots

def require (p : Problem) (step : Wiring Literal) : Problem :=
  match step.run p.circuit with
  | (l, circuit) => ⟨circuit, l :: p.roots⟩

end Problem

end ControlReach
