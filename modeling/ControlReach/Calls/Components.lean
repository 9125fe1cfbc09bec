import Std.Data.TreeMap.Basic

/-!
# Strongly connected components

A depth-first search numbers the nodes as it enters them and keeps them on a stack until their
components are complete. The low link of a node is the least number of a node on the stack that is
known to be reached from it. A node whose low link is its own number was entered first of its
component, and the rest of the component stands above it on the stack.
-/

namespace ControlReach

/-- The state of Tarjan's search. -/
structure Tarjan where
  counter : Nat
  index : Std.TreeMap String Nat
  lowlink : Std.TreeMap String Nat
  /-- The nodes whose components are not complete, the latest in front. -/
  stack : List String
  onStack : Std.TreeMap String Bool
  /-- The complete components, the latest at the end. -/
  components : List (List String)

namespace Tarjan

def initial : Tarjan := ⟨0, ∅, ∅, [], ∅, []⟩

def number (t : Tarjan) (v : String) : Nat := t.index.getD v 0

def low (t : Tarjan) (v : String) : Nat := t.lowlink.getD v 0

/-- Give `v` the next number and put it on the stack. -/
def enter (v : String) (t : Tarjan) : Tarjan :=
  { t with
    counter := t.counter + 1
    index := t.index.insert v t.counter
    lowlink := t.lowlink.insert v t.counter
    stack := v :: t.stack
    onStack := t.onStack.insert v true }

/-- The low link of `v` is at most `n`. -/
def lower (v : String) (n : Nat) (t : Tarjan) : Tarjan :=
  { t with lowlink := t.lowlink.insert v (min (t.low v) n) }

/-- What is taken from a stack to get `v` off it, and what stays. -/
def pop (v : String) : List String → List String × List String
  | [] => ([], [])
  | w :: stack =>
    if w = v then ([w], stack)
    else
      let (taken, rest) := pop v stack
      (w :: taken, rest)

/-- Take `v` and what is above it from the stack, as a component. -/
def close (v : String) (t : Tarjan) : Tarjan :=
  let (taken, rest) := pop v t.stack
  { t with
    stack := rest
    onStack := taken.foldl (fun m w => m.insert w false) t.onStack
    components := t.components ++ [taken] }

/-- Follow the edge from `v` to `w`, which is visited if it is new. -/
def follow (visit : String → Tarjan → Tarjan) (v : String) (t : Tarjan) (w : String) : Tarjan :=
  if !t.index.contains w then
    let t := visit w t
    t.lower v (t.low w)
  else if t.onStack.getD w false then t.lower v (t.number w)
  else t

/-- Enter `v` and all that is not yet entered behind it. -/
def connect (next : String → List String) : Nat → String → Tarjan → Tarjan
  | 0, _, t => t
  | fuel + 1, v, t =>
    let t := (next v).foldl (follow (connect next fuel) v) (t.enter v)
    if t.low v = t.number v then t.close v else t

/-- The components of the nodes that the roots lead to; no path is longer than the fuel. -/
def search (next : String → List String) (fuel : Nat) (roots : List String) : Tarjan :=
  roots.foldl (fun t v => if t.index.contains v then t else connect next fuel v t) initial

end Tarjan

end ControlReach
