import ControlReach.Solver.Circuit

/-!
# Circuits as clauses

Clauses say how the truth value of a gate hangs together with those of its parts. Equalities of
strings are tied together by clauses for triangles: the strings are taken away one by one, and
whatever the neighbours of a string say about it they have to say about each other.
-/

namespace ControlReach

/-! ### Gates -/

namespace Gate

def pairs {α : Type} : List α → List (α × α)
  | [] => []
  | a :: rest => rest.map (a, ·) ++ pairs rest

def picks {α : Type} : List α → List α → List (α × List α)
  | _, [] => []
  | before, a :: rest => (a, before ++ rest) :: picks (before ++ [a]) rest

/-- The clauses which say that a literal holds if and only if a gate does. -/
def clauses (l : Literal) : Gate → List Clause
  | .truth => [[l]]
  | .flag _ => []
  | .same _ _ => []
  | .all parts => (l :: parts.map Literal.opposite) :: parts.map fun p => [l.opposite, p]
  | .iff a b =>
    [[l.opposite, a.opposite, b], [l.opposite, a, b.opposite], [l, a, b],
      [l, a.opposite, b.opposite]]
  | .one parts =>
    (l.opposite :: parts) ::
      (pairs parts).map (fun (a, b) => [l.opposite, a.opposite, b.opposite]) ++
      (picks [] parts).map fun (a, others) => l :: a.opposite :: others

end Gate

/-! ### Equalities -/

namespace Wiring

def tie (c : Clause) : Wiring Unit := modify fun e => { e with ties := e.ties.push c }

def isConstant (i : Nat) : Wiring Bool := do
  match (← get).strings[i]? with
  | some (.const _) => return true
  | _ => return false

/-- Clauses for three strings, of which two are compared with the third. Two constants differ. -/
def triangle (a b : Nat × Nat) : Wiring Unit := do
  let p := Literal.ofIndex a.2
  let q := Literal.ofIndex b.2
  if (← isConstant a.1) && (← isConstant b.1) then tie [p.opposite, q.opposite]
  else
    let r ← equality a.1 b.1
    tie [p.opposite, q.opposite, r]
    tie [p.opposite, q, r.opposite]
    tie [p, q.opposite, r.opposite]

/-- The strings that a string is compared with, as far as they are not taken away. -/
def neighbours (remaining : List Nat) (i : Nat) : Wiring (List (Nat × Nat)) := do
  ((← get).links.getD i []).filterM fun (j, _) => do
    return (← isConstant j) || remaining.contains j

def loneliest (remaining : List Nat) : List Nat → Option (Nat × Nat) → Wiring (Option Nat)
  | [], best => return best.map Prod.fst
  | i :: rest, best => do
    let n := (← neighbours remaining i).length
    loneliest remaining rest (if best.all (n < ·.2) then some (i, n) else best)

/-- Take away unknown strings one by one, with clauses for the triangles in which they are. -/
def takeAway : Nat → List Nat → Wiring Unit
  | 0, _ => return ()
  | fuel + 1, remaining => do
    match ← loneliest remaining remaining none with
    | none => return ()
    | some i =>
      let around ← neighbours remaining i
      (Gate.pairs around).forM fun (a, b) => triangle a b
      takeAway fuel (remaining.filter (· ≠ i))

def closeEqualities : Wiring Unit := do
  let size := (← get).strings.size
  let unknown ← (List.range size).filterM fun i => return !(← isConstant i)
  takeAway size unknown

end Wiring

/-! ### Circuits -/

namespace Circuit

/-- The circuit with its equalities tied together. -/
def closed (c : Circuit) : Circuit := (Wiring.closeEqualities.run c).2

def gateClauses (c : Circuit) : List Clause :=
  c.gates.toList.zipIdx.flatMap fun (g, i) => g.clauses (.ofIndex i)

def base (c : Circuit) (roots : List Literal) : Base :=
  let clauses := c.gateClauses ++ roots.map (fun l => [l]) ++ c.ties.toList
  Base.ofClauses c.gates.size (clauses.map List.eraseDups).toArray

end Circuit

end ControlReach
