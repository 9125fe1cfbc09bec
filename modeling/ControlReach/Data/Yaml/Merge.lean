import ControlReach.Data.Yaml.Node

/-!
# Merged mappings

A key of a mapping may say that its value is to be merged into the mapping. What is merged comes
before the mapping's own pairs, so that those count; of the mappings of a list, the first one comes
last. A mapping is merged once and for all, for all that refer to it.
-/

namespace ControlReach.Yaml

def Node.pairs? (n : Node) : Option (List (Nat × Nat)) :=
  match n.content with
  | .mapping pairs => some pairs
  | _ => none

/-- Nodes that refer to each other by number. -/
abbrev Nodes := Array Node

namespace Nodes

variable (nodes : Nodes)

def node (i : Nat) : Node := nodes.getD i default

def pairs (i : Nat) : List (Nat × Nat) := (nodes.node i).pairs?.getD []

def setPairs (i : Nat) (pairs : List (Nat × Nat)) : Nodes :=
  nodes.modify i fun n => { n with content := .mapping pairs }

def isMerge (key : Nat) : Bool := (nodes.node key).tag == Kind.merge.tag

/-- Where a key is the mark of a default value, it is a text from now on. -/
def asKey (key : Nat) : Nodes :=
  if (nodes.node key).tag = Kind.default.tag then
    nodes.modify key fun n => { n with tag := Kind.text.tag }
  else nodes

/-- The mappings that a merged value stands for, in the order of merging. -/
def sources? (value : Nat) : Option (List Nat) :=
  match (nodes.node value).content with
  | .mapping _ => some [value]
  | .list items => if items.all fun i => (nodes.node i).pairs?.isSome then some items else none
  | .scalar _ => none

/-- How many pairs of all mappings are marked for merging. -/
def mergeCount : Nat :=
  nodes.toList.foldl (fun k n => k + (n.pairs?.getD []).countP fun p => nodes.isMerge p.1) 0

/-- Merge what is marked in a mapping. Every step takes a mark away. -/
def mergeInto : Nat → List (Nat × Nat) → Nat → Nodes → Except Fault Nodes
  | 0, _, _, nodes => .ok nodes
  | fuel + 1, merged, i, nodes =>
    let pairs := nodes.pairs i
    match pairs.find? fun p => nodes.isMerge p.1 with
    | none =>
      let nodes := pairs.foldl (fun nodes p => nodes.asKey p.1) nodes
      .ok (if merged.isEmpty then nodes else nodes.setPairs i (merged ++ pairs))
    | some (_, value) => do
      let nodes := nodes.setPairs i (pairs.eraseP fun p => nodes.isMerge p.1)
      match nodes.sources? value with
      | none => .error .malformed
      | some sources =>
        let nodes ← sources.foldlM (fun nodes source => mergeInto fuel [] source nodes) nodes
        mergeInto fuel (merged ++ (sources.reverse.flatMap nodes.pairs)) i nodes

def merge (i : Nat) : Except Fault Nodes :=
  mergeInto (nodes.mergeCount + 1) [] i nodes

end Nodes

end ControlReach.Yaml
