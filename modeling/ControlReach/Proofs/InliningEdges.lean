import ControlReach.Proofs.InlinedBodies
import ControlReach.Proofs.ShortestCycle

/-!
# Inlining and the call graph

A call graph looks a callee up among the locals of the control, a construction in the scope of the
call. Both find the same, unless the callee is an instance at the top level.
-/

namespace ControlReach

open List Relation

namespace Caller

def node : Caller → String
  | .control c => c.name
  | .action c d => c.nodeName d.name
  | .table c d => c.nodeName d.name

/-- The name under which a body is inlined. -/
def label : Caller → String
  | .control c => c.name
  | .action c d => c.label d.name
  | .table c d => c.label d.name

def In (p : Program) : Caller → Prop
  | .control c => c ∈ p.controls
  | .action c d => c ∈ p.controls ∧ .action d ∈ c.locals
  | .table c d => c ∈ p.controls ∧ .table d ∈ c.locals

end Caller

def Local.name? : Local → Option String
  | .variable d => some d.name
  | .constant d => some d.name
  | .action d => some d.name
  | .table d => some d.name
  | .inst d => some d.name
  | .other _ _ => none

def ControlDecl.callees (c : ControlDecl) : List String :=
  c.body.calls.map Prod.fst ++ c.locals.flatMap Local.calls

/-- A called name is an instance at the top level only if a local has it too. -/
def Program.CallsLocals (p : Program) : Prop :=
  ∀ c ∈ p.controls, ∀ x ∈ c.callees, x ∈ p.instanceNames → x ∈ c.locals.filterMap Local.name?

variable {p : Program} {c : ControlDecl} {f g : Caller} {l : Local} {x : String} {s : Scope}

/-! ### Names of locals -/

theorem Local.Binds.targets (h : l.Binds p c x b) (hn : b.node? c = some n) :
    l.Targets (p.controls.map ControlDecl.name) c x n := by
  cases l with
  | action d =>
    obtain ⟨rfl, rfl⟩ := h
    cases hn
    exact .action
  | table d =>
    obtain ⟨rfl, rfl⟩ := h
    cases hn
    exact .table
  | inst d =>
    obtain ⟨rfl, d', hd', hname, rfl⟩ := h
    cases hn
    rw [hname]
    exact .inst (hname ▸ mem_map_of_mem hd')
  | «variable» | constant => exact absurd h.2 (Binding.not_isData hn)
  | other => exact h.elim

theorem Local.Binds.name? (h : l.Binds p c x b) : l.name? = some x := by
  cases l with
  | other => exact h.elim
  | _ => exact congrArg some h.1.symm

theorem Scope.Within.callTargets (h : s.Within p c) (hx : s.find? x = some (b, home))
    (hn : b.node? c = some n) (hlocal : x ∈ p.instanceNames → x ∈ c.locals.filterMap Local.name?) :
    (c.callTargets (p.controls.map ControlDecl.name)).lookup x = some n := by
  obtain ⟨hhome, hmem, l, hl, hbinds⟩ | ⟨hglobal, hnone⟩ :=
    h.local_or_global hx (Binding.not_isData hn)
  · refine ControlDecl.callTargets_of_mem hl (hbinds.targets hn) fun l' hl' n' htarget => ?_
    have hn' := htarget.node (hhome.holds.binds hmem hl' htarget.name)
    exact Option.some.inj (hn'.symm.trans hn)
  · -- At the top level only an instance has a node, and then a local has its name.
    cases b with
    | inst d =>
      cases d with
      | none => cases hn
      | some d =>
        obtain ⟨l, hl, hname⟩ := mem_filterMap.1 (hlocal hglobal.2)
        obtain ⟨-, inside, f, -, -, hholds⟩ := h
        obtain ⟨⟨y, b'⟩, -, hbinds⟩ := hholds.declared l hl
        obtain rfl := Option.some.inj (hbinds.name?.symm.trans hname)
        exact absurd hbinds (hnone l hl b')
    | action | table => exact hglobal.elim
    | _ => cases hn

/-! ### Calls -/

namespace Caller

theorem In.mem_controls (h : f.In p) : f.home ∈ p.controls := by
  cases f with
  | control => exact h
  | action | table => exact h.1

theorem In.callees (h : f.In p) (hx : x ∈ f.calls) : x ∈ f.home.callees := by
  cases f with
  | control => exact mem_append_left _ hx
  | action | table => exact mem_append_right _ (mem_flatMap.2 ⟨_, h.2, hx⟩)

theorem In.node_mem (h : f.In p) : f.node ∈ p.callGraph.names := by
  refine Program.mem_names_callGraph.2 ⟨f.home, h.mem_controls, ?_⟩
  cases f with
  | control => exact mem_cons_self
  | action | table => exact ControlDecl.mem_nodes h.2 rfl

theorem In.edge (h : f.In p) (hx : x ∈ f.calls)
    (hn : (f.home.callTargets (p.controls.map ControlDecl.name)).lookup x = some n) :
    (f.node, n) ∈ p.callGraph.edges := by
  refine Program.mem_edges_callGraph.2 ⟨f.home, h.mem_controls, ?_⟩
  cases f with
  | control c =>
    obtain ⟨⟨_, loc⟩, hcall, rfl⟩ := mem_map.1 hx
    exact .body hcall hn
  | action c d =>
    obtain ⟨⟨_, loc⟩, hcall, rfl⟩ := mem_map.1 hx
    exact .action h.2 hcall hn
  | table c d =>
    obtain ⟨ref, href, rfl⟩ := mem_map.1 hx
    exact .table h.2 href hn

end Caller

theorem Program.Resolves.in_of_in (h : p.Resolves f g) (hf : f.In p) : g.In p := by
  cases h with
  | action _ hs hfind => exact ⟨hf.mem_controls, (hs.action hfind).declared⟩
  | table _ hs hfind => exact ⟨hf.mem_controls, (hs.table hfind).2⟩
  | control _ hs hfind => exact hs.instance hfind

theorem Program.Resolves.edge (h : p.Resolves f g) (hf : f.In p) (hlocal : p.CallsLocals) :
    (f.node, g.node) ∈ p.callGraph.edges := by
  have hname : ∀ x ∈ f.calls, x ∈ p.instanceNames → x ∈ f.home.locals.filterMap Local.name? :=
    fun x hx => hlocal _ hf.mem_controls x (hf.callees hx)
  cases h with
  | action hx hs hfind | table hx hs hfind | control hx hs hfind =>
    exact hf.edge hx (hs.callTargets hfind rfl (hname _ hx))

/-! ### Reachable functions -/

theorem CallGraph.mem_reachableFrom {g : CallGraph} {f h : String} (hf : f ∈ g.names) :
    h ∈ g.reachableFrom [f] ↔ ReflTransGen g.Calls f h := by
  have hroots : [f].filter g.isFunction = [f] :=
    filter_eq_self.2 (forall_mem_singleton.2 (mem_names.1 hf))
  rw [reachableFrom, hroots, Search.mem_explore_done_iff closed_inner (Nat.le_refl _) hf,
    edge_inner_eq]

theorem Program.reachable_of_resolves (hlocal : p.CallsLocals) (hf : f.In p)
    (h : ReflTransGen p.Resolves f g) : g.node ∈ p.callGraph.reachableFrom [f.node] := by
  rw [CallGraph.mem_reachableFrom hf.node_mem]
  have hchain : g.In p ∧ ReflTransGen p.callGraph.Calls f.node g.node := by
    induction h with
    | refl => exact ⟨hf, .refl⟩
    | tail _ hstep ih =>
      exact ⟨hstep.in_of_in ih.1, ih.2.tail (calls_callGraph.2 (hstep.edge ih.1 hlocal))⟩
  exact hchain.2

theorem Elaborate.Inlined.label {made : Target → Prop} (h : Inlined p made g q) : g.label = q := by
  cases h with
  | action ha => exact ha.qualified.symm
  | control => rfl

/-- Unless an instance of the top level is applied, what is inlined for a body is reached from it in
the call graph. -/
theorem Program.inlined_reachable (p : Program) (hlocal : p.CallsLocals) :
    (∀ f g : Caller, f.In p → p.Resolves f g → (f.node, g.node) ∈ p.callGraph.edges) ∧
    ∀ d ∈ p.controls, ∀ calls, (FlowGraph.ofControl p.globals.scope calls d).2 = [] →
      (∀ q ∈ (Build.ofBody p.globals.scope calls d).inlined, ∃ g, g.label = q ∧
        TransGen p.Resolves (.control d) g ∧ g.node ∈ p.callGraph.reachableFrom [d.name]) ∧
      ∀ q ∈ (Build.ofControl p.globals.scope calls d).inlined,
        q ∈ (Build.ofBody p.globals.scope calls d).inlined ∨
        ∃ c a g, (Caller.action c a).In p ∧
          c.label a.name ∉ (Build.ofBody p.globals.scope calls d).inlined ∧ g.label = q ∧
          ReflTransGen p.Resolves (.action c a) g ∧
          g.node ∈ p.callGraph.reachableFrom [c.nodeName a.name] := by
  refine ⟨fun f g hf hg => hg.edge hf hlocal, fun d hd calls h => ?_⟩
  obtain ⟨a, -, hgrows, hdetached⟩ := Elaborate.grows_ofControl hd h
  constructor
  · intro q hq
    obtain ⟨g, hpath, hg⟩ := (hgrows.inlined q hq).resolve_left nofun
    exact ⟨g, hg.label, hpath,
      reachable_of_resolves hlocal (f := .control d) hd hpath.to_reflTransGen⟩
  · intro q hq
    refine (hdetached.inlined q hq).imp_right ?_
    rintro ⟨c, x, g, hx, hnew, hpath, hg⟩
    have hin : (Caller.action c x.decl).In p := ⟨hx.home.control, hx.declared⟩
    rw [hx.qualified] at hnew
    exact ⟨c, x.decl, g, hin, hnew, hg.label, hpath, reachable_of_resolves hlocal hin hpath⟩

namespace Applied

def apply (x : String) : Stmt := .call (.field (.var x none) "apply" none) [] none none

def inner : ControlDecl :=
  ⟨"A", [], [.action ⟨"set", [], .mk [] none, none⟩],
    .mk [.call (.var "set" none) [] none none] none, none⟩

def mixed : ControlDecl :=
  ⟨"C", [],
    [.action ⟨"go", [], .mk [] none, none⟩, .table ⟨"t", [], [⟨"go", [], none⟩], none, none⟩,
      .inst ⟨"A", "a", [], none⟩,
      .action ⟨"idle", [], .mk [.call (.var "go" none) [] none none] none, none⟩],
    .mk [apply "t", apply "a"] none, none⟩

def outer : ControlDecl := ⟨"C", [], [], .mk [apply "i"] none, none⟩

def program (d : ControlDecl) : Program :=
  ⟨[.control inner, .inst ⟨"A", "i", [], none⟩, .control d], ""⟩

end Applied

open Applied in
/-- What is inlined for an instance, and an action that is never called. -/
theorem Program.inlined_reachable_mixed :
    (program mixed).CallsLocals ∧
    (FlowGraph.ofControl (program mixed).globals.scope none mixed).2 = [] ∧
    "A.set" ∈ (Build.ofBody (program mixed).globals.scope none mixed).inlined ∧
    (∃ g, g.label = "A.set" ∧ TransGen (program mixed).Resolves (.control mixed) g ∧
      g.node ∈ (program mixed).callGraph.reachableFrom ["C"]) ∧
    ∃ c a g, (Caller.action c a).In (program mixed) ∧
      c.label a.name ∉ (Build.ofBody (program mixed).globals.scope none mixed).inlined ∧
      g.label = "C.idle" ∧ ReflTransGen (program mixed).Resolves (.action c a) g ∧
      g.node ∈ (program mixed).callGraph.reachableFrom [c.nodeName a.name] := by
  have hlocal : (program mixed).CallsLocals := by
    unfold CallsLocals
    decide +kernel
  have haccepted : (FlowGraph.ofControl (program mixed).globals.scope none mixed).2 = [] :=
    isEmpty_iff.1 (by decide +kernel)
  have hset : "A.set" ∈ (Build.ofBody (program mixed).globals.scope none mixed).inlined := by
    decide +kernel
  have hidle : "C.idle" ∈ (Build.ofControl (program mixed).globals.scope none mixed).inlined := by
    decide +kernel
  obtain ⟨hbody, hrest⟩ := (inlined_reachable (program mixed) hlocal).2 mixed
    (mem_cons_of_mem _ mem_cons_self) none haccepted
  exact ⟨hlocal, haccepted, hset, hbody _ hset, (hrest _ hidle).resolve_left (by decide +kernel)⟩

open Applied in
/-- An instance at the top level is inlined, and the call graph does not reach its control. -/
theorem Program.not_forall_inlined_reachable : ¬ ∀ p : Program, p.globals.errors = [] →
    (∀ x ∈ p.names, '.' ∉ x.toList) → ∀ d ∈ p.controls,
      (FlowGraph.ofControl p.globals.scope none d).2 = [] →
      ∀ q ∈ (Build.ofBody p.globals.scope none d).inlined,
        q ∈ p.callGraph.reachableFrom [d.name] := by
  intro h
  have herrors : (program outer).globals.errors = [] := isEmpty_iff.1 (by decide +kernel)
  have haccepted : (FlowGraph.ofControl (program outer).globals.scope none outer).2 = [] :=
    isEmpty_iff.1 (by decide +kernel)
  have hreached := h (program outer) herrors (by decide +kernel) outer
    (mem_cons_of_mem _ mem_cons_self) haccepted "A" (by decide +kernel)
  have hmissing : "A" ∉ (program outer).callGraph.reachableFrom ["C"] := by decide +kernel
  exact hmissing hreached

end ControlReach
