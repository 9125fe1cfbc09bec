import ControlReach.Flow.Graph
import ControlReach.Proofs.Datum
import ControlReach.Proofs.SearchOrder
import Mathlib.Logic.ExistsUnique
import Mathlib.Logic.Function.Basic

/-!
# Executions of flow graphs

An execution runs the operations of a block and follows an edge whose guard holds. An oracle
decides the labels of table applications and the values of `havoc`s.
-/

namespace ControlReach

open Relation

/-- The values of variables, by the variables' numbers. -/
abbrev State := Nat → Option Datum

namespace State

def empty : State := fun _ => none

def put (σ : State) (v : Variable) (d : Datum) : State := Function.update σ v.uid (some d)

def assign (σ : State) (v : Variable) : List String → Datum → Option State
  | [], d => some (σ.put v d)
  | f :: path, d => do
    let old ← σ v.uid
    return σ.put v (← old.set? (f :: path) d)

end State

/-- The labels that are selected at table sites. -/
abbrev Selection := Nat → String → Bool

/-- Exactly one label of a site is selected. -/
def TableSite.Decided (s : TableSite) (select : Selection) : Prop :=
  ∃! label, label ∈ s.labels ∧ select s.id label = true

namespace Rvalue

mutual

def value (select : Selection) (σ : State) : Rvalue → Option Datum
  | .bool b => some (.bool b)
  | .text s => some (.text s)
  | .read v => σ v.uid
  | .field base f => do (← value select σ base).get? f
  | .struct fields => do return .struct (← values select σ fields)
  | .not operand => do return .bool (!(← (← value select σ operand).bool?))
  | .and left right => do
    let a ← (← value select σ left).bool?
    let b ← (← value select σ right).bool?
    return .bool (a && b)
  | .or left right => do
    let a ← (← value select σ left).bool?
    let b ← (← value select σ right).bool?
    return .bool (a || b)
  | .equal negated left right => do
    let a ← value select σ left
    let b ← value select σ right
    return .bool (decide (a = b) != negated)
  | .guard site label _ => some (.bool (select site label))

def values (select : Selection) (σ : State) :
    List (String × Rvalue) → Option (List (String × Datum))
  | [] => some []
  | (f, e) :: rest => do
    let d ← value select σ e
    return (f, d) :: (← values select σ rest)

end

mutual

def guards : Rvalue → List (Nat × String × String)
  | .bool _ | .text _ | .read _ => []
  | .field base _ => guards base
  | .struct fields => guardsOf fields
  | .not operand => guards operand
  | .and left right | .or left right | .equal _ left right => guards left ++ guards right
  | .guard site label name => [(site, label, name)]

def guardsOf : List (String × Rvalue) → List (Nat × String × String)
  | [] => []
  | (_, e) :: rest => guards e ++ guardsOf rest

end

end Rvalue

/-- What an execution does not decide itself. -/
structure Oracle where
  select : Selection
  /-- The values that a `havoc` of a variable may store. -/
  draws : Variable → Nat → Datum → Prop

/-- Any value of the variable's type may be stored. -/
def Oracle.free (select : Selection) : Oracle := ⟨select, fun v _ d => d.HasType v.ty⟩

/-- Executing an operation. -/
inductive Op.Step (o : Oracle) : Op → State → State → Prop
  | assign {v path e loc σ τ d} : e.value o.select σ = some d → σ.assign v path d = some τ →
      Op.Step o (.assign v path e loc) σ τ
  | havoc {v n loc σ d} : o.draws v n d → Op.Step o (.havoc v n loc) σ (σ.put v d)
  | assume {e loc σ} : e.value o.select σ = some (.bool true) → Op.Step o (.assume e loc) σ σ

/-- Executing operations in order. -/
inductive Op.Steps (o : Oracle) : List Op → State → State → Prop
  | nil {σ} : Op.Steps o [] σ σ
  | cons {op ops σ τ ρ} : op.Step o σ τ → Op.Steps o ops τ ρ → Op.Steps o (op :: ops) σ ρ

def Edge.Open (e : Edge) (select : Selection) (σ : State) : Prop :=
  ∀ guard, e.guard = some guard → guard.value select σ = some (.bool true)

namespace FlowGraph

def choices (g : FlowGraph) (i : BlockId) : List Nat :=
  (g.edgesOf i).filterMap fun e => e.guard.bind Rvalue.site?

/-- Run a block and follow an edge; at a table site exactly one label is selected. -/
inductive Move (g : FlowGraph) (o : Oracle) : BlockId × State → BlockId × State → Prop
  | mk {i b σ τ e} : g.block? i = some b → Op.Steps o b.ops σ τ →
      (∀ n ∈ g.choices i, ∀ s, g.site? n = some s → s.Decided o.select) →
      e ∈ b.edges → e.Open o.select τ → Move g o (i, σ) (e.target, τ)

def Arrives (g : FlowGraph) (o : Oracle) (i : BlockId) (σ : State) : Prop :=
  ReflTransGen (g.Move o) (g.entry, State.empty) (i, σ)

def Ends (g : FlowGraph) (o : Oracle) (i : BlockId) (τ : State) : Prop :=
  ∃ b σ, g.Arrives o i σ ∧ g.block? i = some b ∧ Op.Steps o b.ops σ τ

end FlowGraph

/-! ### Well-formed graphs -/

namespace Rvalue

mutual

/-- The type of a right-hand side, struct names aside. A guard belongs to a label of a site. -/
def HasType (sites : Nat → Option TableSite) (types : Nat → Ty) : Rvalue → Ty → Prop
  | .bool _, ty => ty = .bool
  | .text _, ty => ty = .string
  | .read v, ty => ty = types v.uid
  | .field base f, ty =>
    ∃ fields, HasType sites types base (.struct none fields) ∧ fields.lookup f = some ty
  | .struct fields, ty =>
    ∃ tys, ty = .struct none tys ∧ (tys.map Prod.fst).Nodup ∧ HaveTypes sites types fields tys
  | .not operand, ty => ty = .bool ∧ HasType sites types operand .bool
  | .and left right, ty =>
    ty = .bool ∧ HasType sites types left .bool ∧ HasType sites types right .bool
  | .or left right, ty =>
    ty = .bool ∧ HasType sites types left .bool ∧ HasType sites types right .bool
  | .equal _ left right, ty =>
    ty = .bool ∧ ∃ side, HasType sites types left side ∧ HasType sites types right side
  | .guard site label name, ty =>
    ty = .bool ∧ ∃ s, sites site = some s ∧ label ∈ s.labels ∧ name = s.guardName label

def HaveTypes (sites : Nat → Option TableSite) (types : Nat → Ty) :
    List (String × Rvalue) → List (String × Ty) → Prop
  | [], [] => True
  | (f, e) :: fields, (g, ty) :: tys =>
    f = g ∧ HasType sites types e ty ∧ HaveTypes sites types fields tys
  | _, _ => False

end

mutual

theorem guards_spec : ∀ (e : Rvalue) (ty : Ty),
    e.HasType sites types ty → ∀ p ∈ e.guards,
      ∃ s, sites p.1 = some s ∧ p.2.1 ∈ s.labels ∧ p.2.2 = s.guardName p.2.1
  | .bool _, _, _ | .text _, _, _ | .read _, _, _ => by simp [guards]
  | .field base _, _, h => by
    obtain ⟨fields, hbase, -⟩ := h
    exact guards_spec base _ hbase
  | .struct fields, _, h => by
    obtain ⟨tys, -, -, hfields⟩ := h
    exact guardsOf_spec fields tys hfields
  | .not e, _, h => guards_spec e _ h.2
  | .and a b, _, h | .or a b, _, h =>
    List.forall_mem_append.2 ⟨guards_spec a _ h.2.1, guards_spec b _ h.2.2⟩
  | .equal _ a b, _, h => by
    obtain ⟨-, side, ha, hb⟩ := h
    exact List.forall_mem_append.2 ⟨guards_spec a _ ha, guards_spec b _ hb⟩
  | .guard n label name, _, h => by
    obtain ⟨-, s, hs, hlabel, hname⟩ := h
    simpa [guards] using ⟨s, hs, hlabel, hname⟩

theorem guardsOf_spec :
    ∀ fields tys,
    HaveTypes sites types fields tys → ∀ p ∈ guardsOf fields,
      ∃ s, sites p.1 = some s ∧ p.2.1 ∈ s.labels ∧ p.2.2 = s.guardName p.2.1
  | [], [], _ => by simp [guardsOf]
  | (_, e) :: fields, (_, ty) :: tys, h =>
    List.forall_mem_append.2 ⟨guards_spec e ty h.2.1, guardsOf_spec fields tys h.2.2⟩
  | [], _ :: _, h | _ :: _, [], h => h.elim

end

end Rvalue

/-- An operation stores values of the types of their places, and assumes truth values. -/
def Op.WellTyped (sites : Nat → Option TableSite) (types : Nat → Ty) : Op → Prop
  | .assign v path e _ =>
    types v.uid = v.ty.bare ∧ ∃ ty, (types v.uid).at? path = some ty ∧ e.HasType sites types ty
  | .havoc v _ _ => types v.uid = v.ty.bare
  | .assume e _ => e.HasType sites types .bool

namespace FlowGraph

/-- Operations and guards are well-typed, struct names aside. -/
structure WellTyped (g : FlowGraph) (types : Nat → Ty) : Prop where
  distinct : ∀ n, (types n).Distinct
  ops : ∀ b ∈ g.blocks, ∀ op ∈ b.ops, op.WellTyped g.site? types
  guards : ∀ b ∈ g.blocks, ∀ e ∈ b.edges, ∀ guard, e.guard = some guard →
    guard.HasType g.site? types .bool

/-- A block lists as predecessors the blocks from which edges lead to it. -/
def Consistent (g : FlowGraph) : Prop :=
  ∀ i b, g.block? i = some b → ∀ j, j ∈ b.predecessors ↔ i ∈ g.successors j

def Acyclic (g : FlowGraph) : Prop := Search.Acyclic g.successors

/-- Edges lead from a block to another. -/
abbrev Walk (g : FlowGraph) : BlockId → BlockId → Prop := ReflTransGen (Search.Edge g.successors)

variable {g : FlowGraph}

theorem mem_successors_iff :
    j ∈ g.successors i ↔ ∃ b, g.block? i = some b ∧ ∃ e ∈ b.edges, e.target = j := by
  rw [successors, edgesOf]
  cases g.block? i <;> simp

theorem mem_of_block? (h : g.block? i = some b) : b ∈ g.blocks ∧ b.id = i :=
  ⟨List.mem_of_find?_eq_some h, by simpa using List.find?_some h⟩

theorem mem_targets_prune {targets : List Target} {t : Target} (h : t ∈ targets) :
    t ∈ (g.prune targets).targets ++ (g.prune targets).deadTargets := by
  by_cases hlive : t.block ∈ g.reachable
  · exact List.mem_append_left _ (List.mem_filter.2 ⟨h, decide_eq_true hlive⟩)
  · exact List.mem_append_right _ (List.mem_filter.2 ⟨h, decide_eq_true hlive⟩)

theorem acyclic_of_lt (h : ∀ b ∈ g.blocks, ∀ e ∈ b.edges, b.id < e.target) : g.Acyclic := by
  have hlt : ∀ i j, TransGen (Search.Edge g.successors) i j → i < j := by
    intro i j hij
    refine TransGen.trans_induction_on hij ?_ fun _ _ => Int.lt_trans
    intro a c hac
    obtain ⟨b, hb, e, he, rfl⟩ := mem_successors_iff.1 hac
    obtain ⟨hmem, rfl⟩ := mem_of_block? hb
    exact h b hmem e he
  exact fun i hi => Int.lt_irrefl i (hlt i i hi)

theorem consistent_of_forall (hpred : ∀ b ∈ g.blocks, ∀ j ∈ b.predecessors, b.id ∈ g.successors j)
    (hsucc : ∀ c ∈ g.blocks, ∀ e ∈ c.edges, ∀ b ∈ g.blocks, b.id = e.target →
      c.id ∈ b.predecessors) : g.Consistent := by
  intro i b hb j
  obtain ⟨hmem, rfl⟩ := mem_of_block? hb
  refine ⟨hpred b hmem j, fun hj => ?_⟩
  obtain ⟨c, hc, e, he, htarget⟩ := mem_successors_iff.1 hj
  obtain ⟨hmem', rfl⟩ := mem_of_block? hc
  exact hsucc c hmem' e he b hmem htarget.symm

end FlowGraph

end ControlReach
