import ControlReach.Flow.Builder
import Mathlib.Data.List.Basic

/-!
# Structured plans

A flow graph is the layout of a structured plan: operations, branches, choices between labels, and
error locations. Plans speak of variables, sites and error locations by their numbers.
-/

namespace ControlReach

/-- The part of a construction that becomes a graph. -/
structure Layout where
  blocks : List FlowBlock
  current : Nat
  targets : List Target
  sites : List TableSite

def Build.layout (st : Build) : Layout := ⟨st.blocks, st.current, st.targets, st.sites⟩

namespace Layout

variable (l : Layout)

def size : Nat := l.blocks.length

def newBlock (label : String) : Layout :=
  { l with blocks := l.blocks ++ [⟨l.blocks.length, label, [], [], [], none⟩] }

def modifyBlock (i : Nat) (f : FlowBlock → FlowBlock) : Layout :=
  { l with blocks := l.blocks.modify i f }

def goTo (i : Nat) : Layout := { l with current := i }

def connect (source target : Nat) (kind : EdgeKind) (guard : Option Rvalue) : Layout :=
  (l.modifyBlock source fun b => { b with edges := b.edges ++ [⟨target, kind, guard⟩] }).modifyBlock
    target fun b => { b with predecessors := b.predecessors ++ [(source : Int)] }

def openFrom (source : Nat) (label : String) (kind : EdgeKind) (guard : Option Rvalue) : Layout :=
  ((l.newBlock label).connect source l.size kind guard).goTo l.size

def leaveTo (target : Nat) : Layout :=
  l.connect l.current target .fallthrough none

def emit (op : Op) : Layout :=
  l.modifyBlock l.current fun b => { b with ops := b.ops ++ [op] }

def addTarget (t : Target) : Layout := { l with targets := l.targets ++ [t] }

def place (t : Target) : Target := { t with block := l.size }

def newTarget (t : Target) : Layout :=
  ((l.newBlock t.kind.text).addTarget (l.place t)).modifyBlock l.size
    fun b => { b with target := some (l.place t) }

def raise (t : Target) (guard : Option Rvalue) : Layout :=
  (l.newTarget t).connect l.current l.size .assertFail guard

def newSite (table : String) (loc : Option Location) : Layout :=
  { l with sites := l.sites ++ [⟨l.sites.length, table, [], loc⟩] }

def addLabel (site : Nat) (label : String) : Layout :=
  { l with sites := l.sites.modify site fun s => { s with labels := s.labels ++ [label] } }

/-! Branches and table applications are opened and closed around the plans inside. -/

def openThen (condition : Rvalue) : Layout :=
  l.openFrom l.current "then" .condTrue (some condition)

/-- Go on where a branch ends, or where its condition fails. -/
def closeThen (start : Nat) (condition : Rvalue) : Layout :=
  (l.openFrom start "join" .condFalse (some (.not condition))).connect l.current l.size .fallthrough
    none

def openElse (start : Nat) (condition : Rvalue) : Layout :=
  (l.newBlock "join").openFrom start "else" .condFalse (some (.not condition))

/-- Go on where both sides of a branch end, one of them in the block `exit`. -/
def closeElse (exit join : Nat) : Layout :=
  ((l.leaveTo join).connect exit join .fallthrough none).goTo join

def openTable (name : String) (site : TableSite) : Layout :=
  (l.newSite site.table site.loc).newBlock (name ++ "-join")

def openArm (name : String) (site : TableSite) (start : Nat) (label : String)
    (kind : EdgeKind) : Layout :=
  (l.addLabel site.id label).openFrom start (name ++ "." ++ label) kind (some (site.guard label))

end Layout

mutual

/-- A structured plan. -/
inductive Plan where
  | skip
  | op (op : Op)
  | seq (first second : Plan)
  | ifThen (condition : Rvalue) (yes : Plan)
  | ifElse (condition : Rvalue) (yes no : Plan)
  /-- Apply the table of a name; the labels of the site are those of the arms. -/
  | choose (name : String) (site : TableSite) (arms : Arms)
  /-- End at an error location; its block is known when it is laid out. -/
  | bug (t : Target)
  /-- End at an error location unless the condition holds. -/
  | assert (t : Target) (condition : Rvalue)

/-- The choices of a table application. -/
inductive Arms where
  | nil
  | cons (label : String) (kind : EdgeKind) (body : Plan) (rest : Arms)

end

/-! ### What a plan consists of -/

mutual

def Plan.ops : Plan → List Op
  | .skip | .bug _ | .assert _ _ => []
  | .op op => [op]
  | .seq a b => a.ops ++ b.ops
  | .ifThen _ yes => yes.ops
  | .ifElse _ yes no => yes.ops ++ no.ops
  | .choose _ _ arms => arms.ops

def Arms.ops : Arms → List Op
  | .nil => []
  | .cons _ _ body rest => body.ops ++ rest.ops

end

def Arms.labels : Arms → List String
  | .nil => []
  | .cons label _ _ rest => label :: rest.labels

mutual

def Plan.sites : Plan → List TableSite
  | .skip | .op _ | .bug _ | .assert _ _ => []
  | .seq a b => a.sites ++ b.sites
  | .ifThen _ yes => yes.sites
  | .ifElse _ yes no => yes.sites ++ no.sites
  | .choose _ site arms => { site with labels := arms.labels } :: arms.sites

def Arms.sites : Arms → List TableSite
  | .nil => []
  | .cons _ _ body rest => body.sites ++ rest.sites

end

mutual

def Plan.targets : Plan → List Target
  | .skip | .op _ => []
  | .seq a b => a.targets ++ b.targets
  | .ifThen _ yes => yes.targets
  | .ifElse _ yes no => yes.targets ++ no.targets
  | .choose _ _ arms => arms.targets
  | .bug t | .assert t _ => [t]

def Arms.targets : Arms → List Target
  | .nil => []
  | .cons _ _ body rest => body.targets ++ rest.targets

end

mutual

def Plan.conditions : Plan → List Rvalue
  | .skip | .op _ | .bug _ => []
  | .seq a b => a.conditions ++ b.conditions
  | .ifThen condition yes => condition :: yes.conditions
  | .ifElse condition yes no => condition :: (yes.conditions ++ no.conditions)
  | .choose _ _ arms => arms.conditions
  | .assert _ condition => [condition]

def Arms.conditions : Arms → List Rvalue
  | .nil => []
  | .cons _ _ body rest => body.conditions ++ rest.conditions

end

/-! ### The layout of a plan -/

mutual

def Plan.lay : Plan → Layout → Layout
  | .skip, l => l
  | .op op, l => l.emit op
  | .seq a b, l => b.lay (a.lay l)
  | .ifThen condition yes, l => (yes.lay (l.openThen condition)).closeThen l.current condition
  | .ifElse condition yes no, l =>
    let yes := yes.lay (l.openThen condition)
    (no.lay (yes.openElse l.current condition)).closeElse yes.current yes.size
  | .choose name site arms, l =>
    (arms.lay name site l.current l.size (l.openTable name site)).goTo l.size
  | .bug t, l => ((l.raise t none).newBlock "after-bug").goTo (l.raise t none).size
  | .assert t condition, l =>
    (l.raise t (some (.not condition))).openFrom l.current "assert-ok" .condTrue (some condition)

def Arms.lay (name : String) (site : TableSite) (start join : Nat) : Arms → Layout → Layout
  | .nil, l => l
  | .cons label kind body rest, l =>
    rest.lay name site start join
      ((body.lay (l.openArm name site start label kind)).leaveTo join)

end

end ControlReach
