/-!
# Clauses

Each clause has a literal that holds. New clauses come from known ones by resolution only.
-/

namespace ControlReach

/-- A numbered truth value, or its opposite, by an even or odd code. -/
structure Literal where
  code : Nat
  deriving DecidableEq, Repr

namespace Literal

def ofIndex (i : Nat) : Literal := ⟨2 * i⟩

def index (l : Literal) : Nat := l.code / 2

def isPlain (l : Literal) : Bool := l.code % 2 == 0

def opposite (l : Literal) : Literal := if l.isPlain then ⟨l.code + 1⟩ else ⟨l.code - 1⟩

def holds (choice : Nat → Bool) (l : Literal) : Bool := choice l.index == l.isPlain

end Literal

/-- Literals of which one holds. -/
abbrev Clause := List Literal

/-- Some literal holds under a choice of truth values. -/
def Clause.holds (choice : Nat → Bool) (c : Clause) : Bool := c.any (Literal.holds choice)

def Clause.without (l : Literal) (c : Clause) : Clause := c.filter (· ≠ l)

/-- What is known. -/
structure Base where
  clauses : Array Clause
  /-- How many clauses were given; the others follow from them. -/
  given : Nat
  /-- The literals that are known to hold, by code. -/
  facts : Array Bool

namespace Base

/-- The clauses for so many truth values, and no facts yet. -/
def ofClauses (size : Nat) (clauses : Array Clause) : Base :=
  ⟨clauses, clauses.size, Array.replicate (2 * size) false⟩

variable (b : Base)

def clause (i : Nat) : Clause := b.clauses.getD i []

def isFact (l : Literal) : Bool := b.facts.getD l.code false

/-- The clause without the literals whose opposites are known to hold. -/
def strip (c : Clause) : Clause := c.filter fun l => !b.isFact l.opposite

/-- The clause of a number without what cannot hold, if there is such a clause. -/
def stripped? (i : Nat) : Option Clause := b.clauses[i]?.map b.strip

def add (c : Clause) : Base := { b with clauses := b.clauses.push c }

/-- A literal holds if it is all that is left of some clause. -/
def conclude (l : Literal) (i : Nat) : Base :=
  if b.stripped? i = some [l] then { b with facts := b.facts.setIfInBounds l.code true } else b

/-- A clause without what cannot hold, unless something in it is known to hold. -/
def open? (c : Clause) : Option Clause :=
  if c.any b.isFact then none else some (b.strip c)

/-- Leave out clauses that say nothing any more, and learned ones that are not kept. -/
def renew (keep : Nat → Bool) : Base :=
  let given := (b.clauses.extract 0 b.given).filterMap b.open?
  let others := (Array.range (b.clauses.size - b.given)).filterMap fun i =>
    if keep (b.given + i) then b.open? (b.clause (b.given + i)) else none
  { b with clauses := given ++ others, given := given.size }

end Base

end ControlReach
