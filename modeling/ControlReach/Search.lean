import Std.Data.TreeSet.Basic

/-!
# Searching graphs

One search serves every graph of the library; a graph is a function from a node to its successors.
A path never repeats a node and each level has a new one, so a fuel of the number of nodes is
enough.
-/

namespace ControlReach.Search

variable {α : Type} [Ord α] [DecidableEq α]

/-- An edge to a node of the current path, with that path from its target to its source. -/
structure Loop (α : Type) where
  source : α
  target : α
  path : List α

/-- What a search has found so far. -/
structure Trace (α : Type) [Ord α] where
  seen : Std.TreeSet α
  /-- The nodes whose successors are all done, the latest first. -/
  done : List α
  /-- The edges that close a cycle, in the order of discovery. -/
  loops : List (Loop α)

def Trace.empty : Trace α := ⟨∅, [], []⟩

/-- The part of the current path from `w` to its end; the path has its end in front. -/
def segment (w : α) (path : List α) : List α := (path.takeWhile (· ≠ w) ++ [w]).reverse

/-- Enter `v`, reached along `path`, and all that is not yet entered behind it. -/
def visit (next : α → List α) : Nat → List α → α → Trace α → Trace α
  | 0, _, _, t => t
  | fuel + 1, path, v, t =>
    let here := v :: path
    let follow (t : Trace α) (w : α) : Trace α :=
      if !t.seen.contains w then visit next fuel here w t
      else if w ∈ here then { t with loops := t.loops ++ [⟨v, w, segment w here⟩] }
      else t
    let t := (next v).foldl follow { t with seen := t.seen.insert v }
    { t with done := v :: t.done }

def explore (next : α → List α) (fuel : Nat) (roots : List α) : Trace α :=
  roots.foldl (fun t v => if t.seen.contains v then t else visit next fuel [] v t) Trace.empty

def reachable (next : α → List α) (fuel : Nat) (v : α) : List α := (explore next fuel [v]).done

/-- Paths that go on to nodes not known yet, one to each. A path has its end in front. -/
def extend (next : α → List α) :
    List (List α) → List (List α) → Std.TreeSet α → List (List α) × Std.TreeSet α
  | [], found, known => (found.reverse, known)
  | [] :: paths, found, known => extend next paths found known
  | (v :: path) :: paths, found, known =>
    let (found, known) := (next v).foldl
      (fun (found, known) w =>
        if known.contains w then (found, known) else ((w :: v :: path) :: found, known.insert w))
      (found, known)
    extend next paths found known

/-- Search for an edge back to `root`, level by level; `known` are the nodes of all levels. -/
def returnFrom (next : α → List α) (root : α) : Nat → List (List α) → Std.TreeSet α → List α
  | 0, _, _ => []
  | fuel + 1, level, known =>
    match level.find? fun path => path.head?.any fun v => root ∈ next v with
    | some path => (root :: path).reverse
    | none =>
      let (level, known) := extend next level [] known
      if level.isEmpty then [] else returnFrom next root fuel level known

/-- A shortest cycle from `v` back to `v`, both ends listed; empty if there is none. -/
def shortestCycle (next : α → List α) (fuel : Nat) (v : α) : List α :=
  returnFrom next v fuel [[v]] (Std.TreeSet.empty.insert v)

end ControlReach.Search
