import ControlReach.Data.JsonWriter
import ControlReach.Data.Yaml.Merge

/-!
# Documents

Scalars stand for values at once; lists, mappings and sets are looked into later, in the order in
which they were met, so that faults show level by level. A repeated key keeps its first spelling
and its last value; a key that is no text is kept by its JSON form.
-/

namespace ControlReach.Yaml

/-- What a node has turned out to be; parts with parts of their own are given by their numbers. -/
inductive Shape where
  | scalar (v : Value)
  | list (items : List Nat)
  | couples (pairs : List (Nat × Nat))
  | set (members : List Value)
  | mapping (fields : List (Value × Nat))
  deriving Inhabited

/-! ### Keys -/

def sameKey : Value → Value
  | .bool b => .int (if b then 1 else 0)
  | .real r =>
    match r.integer? with
    | some n => .int n
    | none => .real r
  | v => v

def keysMatch (a b : Value) : Bool :=
  match sameKey a, sameKey b with
  | .null, .null => true
  | .int m, .int n => m == n
  | .real r, .real s => r == s
  | .text s, .text t => s == t
  | .bytes s, .bytes t => s == t
  | .moment m, .moment n => m == n
  | _, _ => false

def setKey {α : Type} (key : Value) (value : α) : List (Value × α) → List (Value × α)
  | [] => [(key, value)]
  | (k, v) :: rest =>
    if keysMatch k key then (k, value) :: rest else (k, v) :: setKey key value rest

def keyName : Value → String
  | .text s => s
  | .moment m => m.text
  | v => Json.compact v

/-! ### Meeting nodes -/

def Nodes.scalarText (nodes : Nodes) : Nat → Nat → Except Fault String
  | 0, _ => .error .endless
  | fuel + 1, i =>
    match (nodes.node i).content with
    | .scalar s => .ok s
    | .list _ => .error .malformed
    | .mapping pairs =>
      match pairs.find? fun p => (nodes.node p.1).tag == Kind.default.tag with
      | some (_, value) => nodes.scalarText fuel value
      | none => .error .malformed

/-- The nodes of a document, what they have turned out to be, and those to be looked into. -/
structure Building where
  nodes : Nodes
  shapes : Array (Option Shape)
  waiting : List Nat := []

namespace Building

variable (b : Building) (i : Nat)

def settle (s : Shape) : Building :=
  { b with shapes := b.shapes.setIfInBounds i (some s) }

def await (s : Shape) : Building :=
  { b.settle i s with waiting := i :: b.waiting }

def shape? : Option Shape := b.shapes.getD i none

def scalarOf : Except Fault Value := do
  let n := b.nodes.node i
  let text ← b.nodes.scalarText (b.nodes.size + 1) i
  if n.tag = Kind.moment.tag && n.pairs?.isSome then .error .notScalar else scalarValue n.tag text

def isScalarTag (tag : String) : Bool :=
  tag ∈ [Kind.text.tag, Kind.null.tag, Kind.bool.tag, Kind.int.tag, Kind.real.tag, Kind.moment.tag,
    languageTag "binary"]

/-- Meet a node: find out what its tag makes of it. -/
def meet : Except Fault Building :=
  if (b.shape? i).isSome then .ok b
  else
    let tag := (b.nodes.node i).tag
    if isScalarTag tag then (b.scalarOf i).map fun v => b.settle i (.scalar v)
    else if tag = languageTag "seq" then .ok (b.await i (.list []))
    else if tag = languageTag "map" then .ok (b.await i (.mapping []))
    else if tag = languageTag "set" then .ok (b.await i (.set []))
    else if tag ∈ [languageTag "omap", languageTag "pairs"] then .ok (b.await i (.couples []))
    else .error .malformed

def meetItems (items : List Nat) : Except Fault Building := items.foldlM meet b

def meetCouples : List Nat → Building → Except Fault (List (Nat × Nat) × Building)
  | [], b => .ok ([], b)
  | i :: rest, b =>
    match (b.nodes.node i).pairs? with
    | some [(k, v)] => do
      let (more, b) ← meetCouples rest (← (← b.meet k).meet v)
      return ((k, v) :: more, b)
    | _ => .error .malformed

/-- Meet the keys and values of pairs. A key has to be a scalar. -/
def meetFields : List (Nat × Nat) → List (Value × Nat) → Building →
    Except Fault (List (Value × Nat) × Building)
  | [], fields, b => .ok (fields, b)
  | (k, v) :: rest, fields, b => do
    let b ← b.meet k
    match b.shape? k with
    | some (.scalar key) => meetFields rest (setKey key v fields) (← b.meet v)
    | _ => .error .malformed

def expand : Except Fault Building :=
  match b.shape? i, (b.nodes.node i).content with
  | some (.list _), .list items => do return (← b.meetItems items).settle i (.list items)
  | some (.couples _), .list items => do
    let (pairs, b) ← meetCouples items b
    return b.settle i (.couples pairs)
  | some (.mapping _), .mapping _ => do
    let (fields, b) ← fieldsOf b
    return b.settle i (.mapping fields)
  | some (.set _), .mapping _ => do
    let (fields, b) ← fieldsOf b
    return b.settle i (.set (fields.map (·.1)))
  | _, _ => .error .malformed
where
  fieldsOf (b : Building) : Except Fault (List (Value × Nat) × Building) := do
    let nodes ← b.nodes.merge i
    meetFields (nodes.pairs i) [] { b with nodes }

/-- Look into all nodes that have parts, level by level. -/
def run : Nat → Building → Except Fault Building
  | 0, b => .ok b
  | fuel + 1, b =>
    if b.waiting.isEmpty then .ok b
    else do run fuel (← b.waiting.reverse.foldlM expand { b with waiting := [] })

def ofNodes (nodes : Nodes) (root : Nat) : Except Fault Building := do
  let b : Building := { nodes, shapes := Array.replicate nodes.size none }
  run (nodes.size + 1) (← b.meet root)

end Building

/-! ### Values -/

def Shape.value (part : Nat → Value) : Shape → Value
  | .scalar v => v
  | .list items => .list (items.map part)
  | .couples pairs => .list (pairs.map fun (k, v) => .list [part k, part v])
  | .set members => .set members
  | .mapping fields =>
    .object (fields.foldl (fun done (k, i) => Assoc.set (keyName k) (part i) done) [])

def Shape.parts : Shape → List Nat
  | .scalar _ | .set _ => []
  | .list items => items
  | .couples pairs => pairs.flatMap fun (k, v) => [k, v]
  | .mapping fields => fields.map (·.2)

/-- The values of the shapes unfolded so far. -/
structure Unfolding where
  shapes : Array Shape
  values : Array (Option Value)

namespace Unfolding

def shape (u : Unfolding) (i : Nat) : Shape := u.shapes.getD i default

def value (u : Unfolding) (i : Nat) : Value := (u.values.getD i none).getD .null

def remember (u : Unfolding) (i : Nat) (v : Value) : Unfolding :=
  { u with values := u.values.setIfInBounds i (some v) }

/-- The value of a node and of its parts. In a part of its own a node stands for itself without
parts. -/
def unfold : Nat → Unfolding → Nat → Unfolding
  | 0, u, _ => u
  | fuel + 1, u, i =>
    if (u.values.getD i none).isSome then u
    else
      let s := u.shape i
      let u := s.parts.foldl (unfold fuel) (u.remember i (s.value fun _ => .null))
      u.remember i (s.value u.value)

/-- The value of a node, down to a depth as if nodes were no parts of themselves. -/
def valueTo (u : Unfolding) : Nat → Nat → Value
  | 0, i => u.value i
  | depth + 1, i => (u.shape i).value (u.valueTo depth)

end Unfolding

def depthLimit : Nat := 2

def Building.value (b : Building) (root : Nat) : Value :=
  let shapes := b.shapes.map (·.getD default)
  let u : Unfolding := ⟨shapes, Array.replicate shapes.size none⟩
  (u.unfold (shapes.size + 1) root).valueTo depthLimit root

def ofSource (source : Source) : Except Fault Value := do
  match ← readDocument (tokens source) with
  | none => return .null
  | some (nodes, root) => return (← Building.ofNodes nodes root).value root

def ofBytes (bs : List UInt8) : Except Fault Value := ofSource (Source.ofBytes bs)

end ControlReach.Yaml
