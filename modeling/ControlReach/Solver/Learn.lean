import ControlReach.Solver.Clause

/-!
# Learning from conflicts

The search decides one truth value at a time and draws what follows. If a clause fails, the reasons
are resolved into a clause that would have prevented it, which is added to the base. Only the base
carries conclusions from one attempt to the next, so an answer that no truth values will do rests on
resolution alone.
-/

namespace ControlReach

/-- What is said about a literal. -/
inductive Status where
  | undecided
  | holds
  | fails
  deriving DecidableEq, Repr, Inhabited

/-- The truth values chosen so far. -/
structure Trail where
  /-- What is said about each literal, by code. -/
  marks : Array Status
  /-- The literals that hold, in the order in which they were found. -/
  steps : Array Literal
  /-- Where the decisions are among them. -/
  starts : Array Nat
  followed : Nat
  /-- How many of them were passed on to the base. -/
  settled : Nat
  /-- For each number, how many decisions had been made. -/
  depths : Array Nat
  places : Array Nat
  /-- For each number, the clause that left no other choice. -/
  reasons : Array (Option Nat)
  /-- For each literal, the clauses to look at when it fails. -/
  watchers : Array (List Nat)
  /-- For each clause, the two literals because of which it is looked at. -/
  pairs : Array (Literal × Literal)
  /-- For each number, how often it stood in a learned clause, later ones counting more. -/
  weights : Array Nat
  /-- What the next clause counts. -/
  gain : Nat
  /-- The numbers that stood in a learned clause. -/
  active : List Nat
  /-- Something is said about all smaller numbers. -/
  cursor : Nat
  /-- For each number, its last truth value. -/
  habits : Array Bool

namespace Trail

/-- Nothing is chosen. The habits say which truth values to try first. -/
def initial (size : Nat) (habits : Array Bool) : Trail :=
  { marks := Array.replicate (2 * size) .undecided, steps := #[], starts := #[], followed := 0
    settled := 0, depths := Array.replicate size 0, places := Array.replicate size 0
    reasons := Array.replicate size none, watchers := Array.replicate (2 * size) [], pairs := #[]
    weights := Array.replicate size 0, gain := 16, active := [], cursor := 0, habits }

variable (t : Trail)

def level : Nat := t.starts.size

variable (l : Literal)

def mark : Status := t.marks.getD l.code .undecided

/-- The number of decisions before a literal was chosen. -/
def depth : Nat := t.depths.getD l.index 0

def place : Nat := t.places.getD l.index 0

def reason : Option Nat := t.reasons.getD l.index none

def choose (why : Option Nat) : Trail :=
  { t with
    marks := (t.marks.setIfInBounds l.code .holds).setIfInBounds l.opposite.code .fails
    depths := t.depths.setIfInBounds l.index t.starts.size
    places := t.places.setIfInBounds l.index t.steps.size
    reasons := t.reasons.setIfInBounds l.index why
    steps := t.steps.push l }

/-- Look at the next clause when one of its first two literals fails. -/
def watch (c : Clause) : Trail :=
  match c with
  | a :: b :: _ =>
    let i := t.pairs.size
    { t with
      pairs := t.pairs.push (a, b)
      watchers := (t.watchers.modify a.code (i :: ·)).modify b.code (i :: ·) }
  | _ => { t with pairs := t.pairs.push (⟨0⟩, ⟨0⟩) }

def unwatched : Trail :=
  { t with pairs := #[], watchers := t.watchers.map fun _ => [] }

/-! ### What follows -/

/-- The clauses to look at when a literal fails. -/
def keep (clauses : List Nat) : Trail :=
  { t with watchers := t.watchers.setIfInBounds l.code clauses }

def move (i : Nat) (kept new : Literal) : Trail :=
  { t with
    pairs := t.pairs.setIfInBounds i (kept, new)
    watchers := t.watchers.modify new.code (i :: ·) }

/-- Look at clauses, now that a literal fails: a clause that fails too, if there is one. -/
def visit (b : Base) (l : Literal) : List Nat → List Nat → Trail → Option Nat × Trail
  | [], kept, t => (none, t.keep l kept)
  | i :: rest, kept, t =>
    let pair := t.pairs.getD i (l, l)
    let other := if pair.1 = l then pair.2 else pair.1
    let said := t.mark other
    if said = .holds then visit b l rest (i :: kept) t
    else
      match (b.clause i).find? fun m => m ≠ other && t.mark m ≠ .fails with
      | some m => visit b l rest kept (t.move i other m)
      | none =>
        if said = .fails then (some i, t.keep l (kept ++ i :: rest))
        else visit b l rest (i :: kept) (t.choose other (some i))

/-- Follow up all steps: a clause that fails, if there is one. -/
def propagate (b : Base) : Nat → Trail → Option Nat × Trail
  | 0, t => (none, t)
  | fuel + 1, t =>
    match t.steps[t.followed]? with
    | none => (none, t)
    | some l =>
      let l := l.opposite
      match visit b l (t.watchers.getD l.code []) [] { t with followed := t.followed + 1 } with
      | (some i, t) => (some i, t)
      | (none, t) => propagate b fuel t

/-! ### Going back -/

def retract : Nat → Trail → Trail
  | 0, t => t
  | n + 1, t =>
    match t.steps.back? with
    | none => t
    | some l =>
      retract n
        { t with
          steps := t.steps.pop
          marks :=
            (t.marks.setIfInBounds l.code .undecided).setIfInBounds l.opposite.code .undecided
          cursor := min t.cursor l.index
          habits := t.habits.setIfInBounds l.index l.isPlain }

/-- Take back all decisions after the first so many. -/
def undo (level : Nat) : Trail :=
  let size := t.starts.getD level t.steps.size
  let t := retract (t.steps.size - size) t
  { t with starts := t.starts.extract 0 level, followed := t.steps.size }

/-! ### Conflicts -/

/-- Put a literal into a clause whose literals are in order, the latest first. -/
def insert (t : Trail) (l : Literal) : Clause → Clause
  | [] => [l]
  | m :: rest =>
    if m = l then m :: rest
    else if t.place m < t.place l then l :: m :: rest
    else m :: insert t l rest

/-- Put the literals of one clause into another. -/
def merge (c d : Clause) : Clause := d.foldl (fun c l => t.insert l c) c

/-- Resolve the latest literals of a failing clause with their reasons, until only one belongs to
the latest decision. -/
def analyze (b : Base) (t : Trail) : Nat → Clause → Clause
  | fuel + 1, l :: m :: rest =>
    if t.depth m < t.level then l :: m :: rest
    else
      match (t.reason l).bind b.stripped? with
      | none => l :: m :: rest
      | some why => analyze b t fuel (t.merge (m :: rest) (why.without l.opposite))
  | _, c => c

/-- What the reason of a literal says is in the clause already, beside the literal. -/
def isImplied (b : Base) (t : Trail) (c : Clause) (l : Literal) : Bool :=
  match (t.reason l).bind b.stripped? with
  | none => false
  | some why => (why.without l.opposite).all fun m => m ≠ l && m ∈ c

/-- Leave out literals that are implied by others. -/
def minimize (b : Base) (t : Trail) (c : Clause) : Clause :=
  (c.drop 1).foldl (fun c l => if isImplied b t c l then c.without l else c) c

/-! ### Decisions -/

def gainLimit : Nat := 1000000000000000

def countOne : Trail :=
  let active := if t.weights.getD l.index 0 = 0 then l.index :: t.active else t.active
  { t with weights := t.weights.modify l.index (· + t.gain), active }

def count (c : Clause) : Trail :=
  let t := c.foldl countOne t
  if gainLimit < t.gain then
    { t with weights := t.weights.map (· / (gainLimit / 16) + 1), gain := 17 }
  else { t with gain := t.gain + t.gain / 32 + 1 }

/-- The heaviest of some numbers about which nothing is said. -/
def heaviest (t : Trail) : List Nat → Option (Nat × Nat) → Option Nat
  | [], best => best.map Prod.fst
  | i :: rest, best =>
    if t.mark (.ofIndex i) = .undecided then
      let w := t.weights.getD i 0
      heaviest t rest (if best.all (·.2 ≤ w) then some (i, w) else best)
    else heaviest t rest best

/-- The first of so many numbers from `i` on about which nothing is said. -/
def firstOpen (t : Trail) : Nat → Nat → Nat
  | 0, i => i
  | n + 1, i => if t.mark (.ofIndex i) = .undecided then i else firstOpen t n (i + 1)

/-- What to decide next: a number that stood in a learned clause, if there is one. -/
def next? (size : Nat) : Option Nat × Trail :=
  match t.heaviest t.active none with
  | some i => (some i, t)
  | none =>
    let i := t.firstOpen (size - t.cursor) t.cursor
    (if i < size then some i else none, { t with cursor := i })

/-- Decide a truth value, as it was decided the last time. -/
def guess (i : Nat) : Trail :=
  let l := Literal.ofIndex i
  let l := if t.habits.getD i false then l else l.opposite
  { t with starts := t.starts.push t.steps.size }.choose l none

end Trail

/-! ### The search -/

/-- The end of a search. -/
inductive Finding where
  | refuted
  | found (marks : Array Status)
  | exhausted

namespace Base

/-- Pass on to the base what holds without any decision. -/
def settle (b : Base) (t : Trail) : Base :=
  (t.steps.extract t.settled t.steps.size).foldl
    (fun b l =>
      match t.reason l with
      | some i => b.conclude l i
      | none => b)
    b

/-- The clause that a failing clause teaches, if there is such a clause. -/
def lesson? (b : Base) (t : Trail) (i : Nat) : Option Clause :=
  (b.stripped? i).map fun c => t.minimize b (t.analyze b t.steps.size (t.merge [] c))

/-- How many clauses may be learned before some of them are left out. -/
def capacity : Nat := 1000

/-- Leave out the older half of the learned clauses, but for the short ones. -/
def refresh (b : Base) (t : Trail) : Base × Trail :=
  let learned := b.clauses.size - b.given
  if capacity < learned then
    let b := b.renew fun i => b.given + learned / 2 ≤ i || (b.clause i).length ≤ 4
    (b, b.clauses.foldl Trail.watch t.unwatched)
  else (b, t)

/-- Search with so many decisions and conflicts at most; after `patience` conflicts start again. -/
def searchFrom (size : Nat) : Nat → Base → Trail → Nat → Nat → Finding
  | 0, _, _, _, _ => .exhausted
  | fuel + 1, b, t, left, patience =>
    match t.propagate b (size + 1) with
    | (some i, t) =>
      if t.level = 0 then
        if (b.settle t).stripped? i = some [] then .refuted else .exhausted
      else
        match b.lesson? t i with
        | none => .exhausted
        | some [] => .refuted
        | some (l :: rest) =>
          let level := (rest.head?.map t.depth).getD 0
          let t := ((t.count (l :: rest)).undo level).watch (l :: rest)
          let t := t.choose l (some b.clauses.size)
          searchFrom size fuel (b.add (l :: rest)) t (left - 1) patience
    | (none, t) =>
      if left = 0 && t.level != 0 then
        let patience := patience + patience / 8
        let (b, t) := b.refresh (t.undo 0)
        searchFrom size fuel b t patience patience
      else
        let ready := t.level = 0
        let b := if ready then b.settle t else b
        let t := if ready then { t with settled := t.steps.size } else t
        match t.next? size with
        | (none, t) => .found t.marks
        | (some i, t) => searchFrom size fuel b (t.guess i) left patience

/-- Choose the literals of clauses that have only one: a clause that fails, if there is one. -/
def chooseUnits : List (Nat × Clause) → Trail → Option Nat × Trail
  | [], t => (none, t)
  | (i, [l]) :: rest, t =>
    match t.mark l with
    | .holds => chooseUnits rest t
    | .fails => (some i, t)
    | .undecided => chooseUnits rest (t.choose l (some i))
  | (i, []) :: _, t => (some i, t)
  | _ :: rest, t => chooseUnits rest t

/-- How many decisions and conflicts a search may take. -/
def effort : Nat := 1000000

/-- Search for truth values under which all clauses hold, trying habits first. -/
def search (b : Base) (size : Nat) (habits : Array Bool) : Finding :=
  let t := b.clauses.foldl Trail.watch (Trail.initial size habits)
  match chooseUnits (b.clauses.toList.zipIdx.map Prod.swap) t with
  | (some i, t) => if (b.settle t).stripped? i = some [] then .refuted else .exhausted
  | (none, t) => searchFrom size effort b t 64 64

end Base

end ControlReach
