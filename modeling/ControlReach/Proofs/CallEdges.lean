import ControlReach.Calls.OfProgram
import Mathlib.Data.List.Basic

/-!
# The edges of call graphs

The call graph of a program has an edge for each call of a local name in the body of a control or of
one of its actions, and for each action that a table lists.
-/

namespace ControlReach

open List CallGraph

section Loops

variable {α β γ : Type} (l : List β) (a : α)

theorem mem_foldl (F : α → List γ) {Q : β → Prop} (h : ∀ a b, x ∈ F (f a b) ↔ x ∈ F a ∨ Q b) :
    x ∈ F (l.foldl f a) ↔ x ∈ F a ∨ ∃ b ∈ l, Q b := by
  induction l generalizing a with
  | nil => simp
  | cons b l ih => simp [ih, h, or_assoc]

theorem foldl_keeps (F : α → γ) (h : ∀ a b, F (f a b) = F a) : F (l.foldl f a) = F a :=
  foldlRecOn (motive := fun a' => F a' = F a) l f rfl fun _ ih b _ => (h _ b).trans ih

end Loops

/-! ### Local names -/

/-- The node that the name of a local stands for. -/
inductive Local.Targets (controls : List String) (c : ControlDecl) : Local → String → String → Prop
  | action {d : ActionDecl} : Targets controls c (.action d) d.name (c.nodeName d.name)
  | table {d : TableDecl} : Targets controls c (.table d) d.name (c.nodeName d.name)
  | inst {d : Instantiation} : d.typeName ∈ controls →
      Targets controls c (.inst d) d.name d.typeName

def Local.target? (controls : List String) (c : ControlDecl) : Local → Option (String × String)
  | .action d => some (d.name, c.nodeName d.name)
  | .table d => some (d.name, c.nodeName d.name)
  | .inst d => if d.typeName ∈ controls then some (d.name, d.typeName) else none
  | _ => none

variable {l : Local}

theorem Local.target?_eq_some : l.target? controls c = some (x, n) ↔ l.Targets controls c x n := by
  constructor
  · intro h
    cases l with
    | inst d =>
      obtain ⟨hd, heq⟩ := Option.ite_none_right_eq_some.1 h
      cases heq
      exact .inst hd
    | action | table =>
      cases h
      constructor
    | _ => cases h
  · intro h
    cases h with
    | inst hd => exact if_pos hd
    | _ => rfl

namespace ControlDecl

variable {c : ControlDecl}

theorem lookup_callTargets (controls : List String) (c : ControlDecl) (x : String) :
    (c.callTargets controls).lookup x =
      (c.locals.filterMap (Local.target? controls c)).reverse.lookup x := by
  have hfold : c.callTargets controls = (c.locals.filterMap (Local.target? controls c)).foldl
      (fun t q => Assoc.set q.1 q.2 t) [] := by
    rw [callTargets, foldl_filterMap]
    refine congrArg (fun step => c.locals.foldl step []) ?_
    funext t l
    cases l with
    | inst d => by_cases hd : d.typeName ∈ controls <;> simp [Local.target?, hd]
    | _ => rfl
  rw [hfold, Assoc.lookup_foldl_set]
  exact Option.or_none

theorem exists_of_callTargets (h : (c.callTargets controls).lookup x = some n) :
    ∃ l ∈ c.locals, l.Targets controls c x n := by
  rw [lookup_callTargets] at h
  obtain ⟨l, hl, htarget⟩ := mem_filterMap.1 (mem_reverse.1 (Assoc.mem_of_lookup h))
  exact ⟨l, hl, Local.target?_eq_some.1 htarget⟩

theorem callTargets_of_mem (hl : l ∈ c.locals) (h : l.Targets controls c x n)
    (hunique : ∀ l' ∈ c.locals, ∀ n', l'.Targets controls c x n' → n' = n) :
    (c.callTargets controls).lookup x = some n := by
  cases hx : (c.callTargets controls).lookup x with
  | some n' =>
    obtain ⟨l', hl', h'⟩ := exists_of_callTargets hx
    rw [hunique l' hl' n' h']
  | none =>
    rw [lookup_callTargets, Assoc.lookup_eq_none_iff] at hx
    have hmem := mem_filterMap.2 ⟨l, hl, Local.target?_eq_some.2 h⟩
    exact absurd (mem_map_of_mem (mem_reverse.2 hmem)) hx

end ControlDecl

/-! ### Calls -/

/-- The calls in a control: in an action, by a table, and in the body of the control. -/
inductive ControlDecl.Invokes (controls : List String) (c : ControlDecl) : String → String → Prop
  | action {d : ActionDecl} {x n : String} {loc : Option Location} : .action d ∈ c.locals →
      (x, loc) ∈ d.body.calls → (c.callTargets controls).lookup x = some n →
      Invokes controls c (c.nodeName d.name) n
  | table {d : TableDecl} {ref : ActionRef} {n : String} : .table d ∈ c.locals →
      ref ∈ d.actions ++ d.defaultAction.toList →
      (c.callTargets controls).lookup ref.name = some n →
      Invokes controls c (c.nodeName d.name) n
  | body {x n : String} {loc : Option Location} : (x, loc) ∈ c.body.calls →
      (c.callTargets controls).lookup x = some n → Invokes controls c c.name n

namespace CallGraph

variable {g : CallGraph}

theorem mem_setOf_addTo : x ∈ setOf (addTo f h sets) n ↔ x ∈ setOf sets n ∨ n = f ∧ x = h := by
  rw [addTo]
  split
  · exact ⟨.inl, fun h => h.elim id fun ⟨hn, hx⟩ => hn ▸ hx ▸ ‹_›⟩
  · simp only [setOf, Assoc.lookup_set]
    by_cases hn : n = f <;> simp [hn]

theorem setOf_setNew (name : String) (sets : List (String × List String)) :
    setOf (Assoc.setNew name [] sets) = setOf sets := by
  funext f
  rw [setOf, setOf, Assoc.setNew]
  split
  · rfl
  · rw [lookup_append]
    cases sets.lookup f with
    | some l => rfl
    | none => by_cases hf : f = name <;> simp [hf, lookup_cons, beq_eq_false_iff_ne.2]

theorem mem_edges_addEdge :
    e ∈ (g.addEdge caller callee loc).edges ↔ e ∈ g.edges ∨ e = (caller, callee) := by
  obtain ⟨f, h⟩ := e
  rw [mem_edges, mem_edges, addEdge, mem_setOf_addTo, Prod.mk.injEq]

/-- Graphs that are built by adding functions and edges. -/
inductive Built : CallGraph → Prop
  | empty : Built .empty
  | addFunction {g : CallGraph} : Built g → Built (g.addFunction name kind loc)
  | addEdge {g : CallGraph} : Built g → Built (g.addEdge caller callee loc)

/-- Each edge is kept with its caller and with its callee. -/
theorem Built.mem_callers (hg : Built g) : f ∈ g.callers h ↔ h ∈ g.callees f := by
  rw [callers, callees, Order.sortTexts, Order.mem_sort, Order.sortTexts, Order.mem_sort]
  induction hg with
  | empty => exact iff_of_false not_mem_nil not_mem_nil
  | addFunction _ ih => rwa [CallGraph.addFunction, setOf_setNew, setOf_setNew]
  | addEdge _ ih =>
    rw [CallGraph.addEdge, mem_setOf_addTo, mem_setOf_addTo, ih, and_comm (a := h = _)]

theorem names_addEdge (g : CallGraph) (caller callee : String) (loc : Option Location) :
    (g.addEdge caller callee loc).names = g.names := by
  rw [names, names, addEdge, map_map]
  refine map_congr_left fun p _ => ?_
  rw [Function.comp_apply, noteCall]
  split <;> rfl

theorem mem_names_addFunction :
    f ∈ (g.addFunction name kind loc).names ↔ f = name ∨ f ∈ g.names := by
  rw [names, addFunction]
  by_cases h : name ∈ g.names
  · rw [Assoc.keys_set_of_mem _ h]
    exact ⟨.inr, fun hf => hf.elim (fun heq => heq ▸ h) id⟩
  · rw [Assoc.keys_set_of_not_mem _ h, mem_append, mem_singleton]
    exact or_comm

end CallGraph

namespace ControlDecl

variable {controls : List String} {c : ControlDecl} {f n : String}

theorem mem_edges_addCalls : (f, n) ∈ (addCalls targets caller g calls).edges ↔
      (f, n) ∈ g.edges ∨ ∃ call ∈ calls, f = caller ∧ targets.lookup call.1 = some n := by
  refine mem_foldl _ _ edges fun g call => ?_
  cases targets.lookup call.1 with
  | none => simp
  | some callee => simp [mem_edges_addEdge, eq_comm]

theorem names_addCalls (targets : List (String × String)) (caller : String) (g : CallGraph)
    (calls : List (String × Option Location)) :
    (addCalls targets caller g calls).names = g.names := by
  refine foldl_keeps _ _ names fun g call => ?_
  split
  · exact g.names_addEdge _ _ _
  · rfl

def LocalInvokes (controls : List String) (c : ControlDecl) (f n : String) (l : Local) : Prop :=
  match l with
  | .action d => ∃ call ∈ d.body.calls,
      f = c.nodeName d.name ∧ (c.callTargets controls).lookup call.1 = some n
  | .table d => ∃ call ∈ tableCalls d,
      f = c.nodeName d.name ∧ (c.callTargets controls).lookup call.1 = some n
  | _ => False

theorem mem_edges_addEdges :
    (f, n) ∈ (addEdges controls g c).edges ↔ (f, n) ∈ g.edges ∨ c.Invokes controls f n := by
  rw [addEdges, mem_edges_addCalls, mem_foldl _ _ edges (Q := c.LocalInvokes controls f n),
    or_assoc]
  · refine or_congr_right ⟨?_, fun h => ?_⟩
    · rintro (⟨l, hl, hcall⟩ | ⟨⟨x, loc⟩, hx, rfl, hn⟩)
      · cases l with
        | action d =>
          obtain ⟨⟨x, loc⟩, hx, rfl, hn⟩ := hcall
          exact .action hl hx hn
        | table d =>
          obtain ⟨call, hcall, rfl, hn⟩ := hcall
          obtain ⟨ref, href, rfl⟩ := mem_map.1 hcall
          exact .table hl href hn
        | _ => exact hcall.elim
      · exact .body hx hn
    · cases h with
      | action hd hx hn => exact .inl ⟨_, hd, _, hx, rfl, hn⟩
      | table hd href hn => exact .inl ⟨_, hd, _, mem_map_of_mem href, rfl, hn⟩
      | body hx hn => exact .inr ⟨_, hx, rfl, hn⟩
  · intro g l
    cases l with
    | action | table => exact mem_edges_addCalls
    | _ => exact ⟨.inl, fun h => h.elim id False.elim⟩

theorem names_addEdges (controls : List String) (g : CallGraph) (c : ControlDecl) :
    (addEdges controls g c).names = g.names := by
  refine (names_addCalls _ _ _ _).trans (foldl_keeps _ _ names fun g l => ?_)
  cases l with
  | action | table => exact names_addCalls _ _ _ _
  | _ => rfl

end ControlDecl

/-! ### Nodes -/

def Local.callable? : Local → Option String
  | .action d => some d.name
  | .table d => some d.name
  | _ => none

def ControlDecl.nodes (c : ControlDecl) : List String :=
  c.name :: (c.locals.filterMap Local.callable?).map c.nodeName

theorem ControlDecl.mem_nodes {c : ControlDecl} (hl : l ∈ c.locals) (hx : l.callable? = some x) :
    c.nodeName x ∈ c.nodes :=
  mem_cons_of_mem _ (mem_map_of_mem (mem_filterMap.2 ⟨l, hl, hx⟩))

theorem ControlDecl.setOf_addNodes (g : CallGraph) (c : ControlDecl) :
    setOf (addNodes g c).successors = setOf g.successors := by
  refine (foldl_keeps _ _ (fun g : CallGraph => setOf g.successors) fun g l => ?_).trans
    (setOf_setNew _ _)
  cases l with
  | action | table => exact setOf_setNew _ _
  | _ => rfl

theorem ControlDecl.mem_names_addNodes : f ∈ (addNodes g c).names ↔ f ∈ g.names ∨ f ∈ c.nodes := by
  rw [addNodes, mem_foldl _ _ names
    (Q := fun l => ∃ x, l.callable? = some x ∧ c.nodeName x = f), mem_names_addFunction]
  · simp only [nodes, mem_cons, mem_map, mem_filterMap]
    grind
  · intro g l
    cases l with
    | action | table => simp [mem_names_addFunction, Local.callable?, or_comm, eq_comm]
    | _ => simp [Local.callable?]

namespace Program

variable {p : Program}

theorem mem_edges_callGraph : (f, n) ∈ p.callGraph.edges ↔
    ∃ c ∈ p.controls, c.Invokes (p.controls.map ControlDecl.name) f n := by
  have hnodes := foldl_keeps p.controls empty
    (fun g : CallGraph => setOf g.successors) ControlDecl.setOf_addNodes
  rw [callGraph, mem_foldl (f := ControlDecl.addEdges _) _ _ _ fun g c =>
    ControlDecl.mem_edges_addEdges, mem_edges, hnodes]
  exact ⟨fun h => h.resolve_left nofun, .inr⟩

/-- The functions of a call graph are the controls with their actions and tables. -/
theorem mem_names_callGraph : f ∈ p.callGraph.names ↔ ∃ c ∈ p.controls, f ∈ c.nodes := by
  rw [callGraph, foldl_keeps _ _ _ (ControlDecl.names_addEdges _),
    mem_foldl (f := ControlDecl.addNodes) _ _ _ fun g c => ControlDecl.mem_names_addNodes]
  exact ⟨fun h => h.resolve_left nofun, .inr⟩

theorem built_callGraph (p : Program) : p.callGraph.Built := by
  have hcalls : ∀ {targets caller g calls}, CallGraph.Built g →
      (ControlDecl.addCalls targets caller g calls).Built := by
    intro targets caller g calls hg
    refine foldlRecOn calls _ hg fun g hg call _ => ?_
    split
    · exact .addEdge hg
    · exact hg
  refine foldlRecOn p.controls _ (foldlRecOn p.controls _ .empty fun g hg c _ => ?_)
    fun g hg c _ => hcalls (foldlRecOn c.locals _ hg fun g hg l _ => ?_)
  · refine foldlRecOn c.locals _ (.addFunction hg) fun g hg l _ => ?_
    cases l with
    | action | table => exact .addFunction hg
    | _ => exact hg
  · cases l with
    | action | table => exact hcalls hg
    | _ => exact hg

end Program

end ControlReach
