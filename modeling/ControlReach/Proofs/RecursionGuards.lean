import ControlReach.Proofs.GuardedSteps
import ControlReach.Proofs.InlinedBodies

/-!
# Two guards against recursion

With the call graph no function on a cycle is inlined, without it no body is inlined inside itself.
Both guards give the same graphs, as long as labels tell controls and actions apart.
-/

namespace ControlReach

open List

/-! ### Accepted graphs -/

/-- A graph is accepted if its construction succeeds, records nothing and has no cycles. -/
theorem FlowGraph.ofControl_eq_iff : ofControl globals calls d = (g, []) ↔
      ∃ st, Builder.Runs (Elaborate.control (inlineBound globals) (.initial calls d) globals d)
        Build.initial () st ∧ st.errors = [] ∧ st.graph d.name = g ∧ g.backEdges = [] := by
  constructor
  · intro h
    have herrors : (ofControl globals calls d).2 = [] := congrArg Prod.snd h
    have hgraph : (ofControl globals calls d).1 = g := congrArg Prod.fst h
    have hacyclic := backEdges_ofControl herrors
    rw [hgraph] at hacyclic
    obtain ⟨hrun, hst⟩ := Build.runs_ofControl herrors
    exact ⟨_, hrun, hst, hgraph, hacyclic⟩
  · rintro ⟨st, hrun, hst, rfl, hacyclic⟩
    unfold ofControl
    dsimp only
    rw [show _ = _ from hrun]
    dsimp only
    rw [hst, hacyclic]
    rfl

/-! ### Names -/

namespace Program

variable {p : Program}

theorem mem_names_of_control (hc : c ∈ p.controls) (hx : x ∈ c.names) : x ∈ p.names :=
  mem_flatMap.2 ⟨.control c, mem_controls.1 hc, hx⟩

theorem distinct (herrors : p.globals.errors = []) (hdots : ∀ x ∈ p.names, '.' ∉ x.toList) :
    p.Distinct where
  unique := by
    have hnodup := p.nodup_ownedControls
    rw [ownedControls, owned_eq herrors] at hnodup
    exact fun c hc c' hc' heq => inj_on_of_nodup_map hnodup hc hc' heq
  dotless := fun c hc => hdots c.name (mem_names_of_control hc mem_cons_self)

end Program

/-! ### Agreement -/

/-- Control names are unique and have no dots, and no action of a nameless control is named like a
recursive one. -/
structure Program.Guardable (p : Program) : Prop extends p.Distinct where
  unnamed : ∀ c ∈ p.controls, c.name = "" → ∀ d, .action d ∈ c.locals →
    d.name ∉ p.callGraph.recursive

theorem Elaborate.Inlined.not_recursive {p : Program} (hp : p.Guardable) {made : Target → Prop}
    (h : Inlined p made g q) : q ∉ p.callGraph.recursive := by
  cases h with
  | @action _ _ c a _ _ _ _ _ _ _ ha hjob =>
    rw [ha.qualified, ControlDecl.label]
    split
    · exact hp.unnamed c ha.home.control ‹_› a.decl ha.declared
    · exact hjob.action_not_recursive hp.toDistinct ha
  | control hd hcaller hjob => exact hjob.control_not_recursive hp.toDistinct hd hcaller

namespace Program.Guardable

variable {p : Program}

/-- A construction without failures inlines nothing that is on a cycle of calls. -/
theorem avoids (hp : p.Guardable) (hd : d ∈ p.controls) (hrun : Builder.Runs (Elaborate.control
    (inlineBound p.globals.scope) (.initial calls d) p.globals.scope d) Build.initial () st)
    (he : st.errors = []) : st.Avoids p.callGraph.recursive := by
  obtain ⟨a, _, -, helab, hdetaches⟩ := Elaborate.elaboratesControl_of_runs hrun he
  have hgrows := helab.grows hd
  have hdetached := hdetaches.detached
    (fun x hx => (hgrows.pending x hx).resolve_left not_mem_nil) nofun
  intro q hrecursive hmem
  obtain hmem | ⟨_, _, g, -, -, -, hg⟩ := hdetached.inlined q hmem
  · obtain ⟨g, -, hg⟩ := (hgrows.inlined q hmem).resolve_left not_mem_nil
    exact hg.not_recursive hp hrecursive
  · exact hg.not_recursive hp hrecursive

/-- A graph is accepted with the call graph if and only if it is accepted without it. -/
theorem ofControl_eq_iff (hp : p.Guardable) (hd : d ∈ p.controls) :
    FlowGraph.ofControl p.globals.scope (some p.callGraph) d = (g, []) ↔
      FlowGraph.ofControl p.globals.scope none d = (g, []) := by
  rw [FlowGraph.ofControl_eq_iff, FlowGraph.ofControl_eq_iff]
  refine exists_congr fun st => ?_
  have hctx : Context.initial (some p.callGraph) d =
      (Context.initial none d).guarded p.callGraph := rfl
  have hfollows := (Builder.congruence_follows p.callGraph).elaboration hctx
    (inlineBound p.globals.scope) p.globals.scope d
  have hinitial : Build.initial.Avoids p.callGraph.recursive := nofun
  constructor
  · rintro ⟨hrun, he, hrest⟩
    exact ⟨((hfollows.runs hinitial he).1 hrun).1, he, hrest⟩
  · rintro ⟨hrun, he, hrest⟩
    exact ⟨(hfollows.runs hinitial he).2 ⟨hrun, hp.avoids hd hrun he⟩, he, hrest⟩

end Program.Guardable

/-- A control is accepted with the call graph exactly if it is without it, with the same graph. -/
theorem FlowGraph.ofControl_callGraph (p : Program) (herrors : p.globals.errors = [])
    (hdots : ∀ x ∈ p.names, '.' ∉ x.toList)
    (hunnamed : ∀ c ∈ p.controls, c.name = "" → ∀ a, .action a ∈ c.locals →
      a.name ∉ p.callGraph.recursive) (d : ControlDecl) (hd : d ∈ p.controls) :
    ((ofControl p.globals.scope (some p.callGraph) d).2 = [] ↔
      (ofControl p.globals.scope none d).2 = []) ∧
    ((ofControl p.globals.scope none d).2 = [] →
      ofControl p.globals.scope (some p.callGraph) d = ofControl p.globals.scope none d) := by
  have hp : p.Guardable := ⟨Program.distinct herrors hdots, hunnamed⟩
  have hpair : ∀ r : FlowGraph × List Diagnostic, r.2 = [] → r = (r.1, []) :=
    fun r h => Prod.ext rfl h
  have hsame : (ofControl p.globals.scope none d).2 = [] →
      ofControl p.globals.scope (some p.callGraph) d = ofControl p.globals.scope none d := by
    intro h
    rw [(hp.ofControl_eq_iff hd).2 (hpair _ h), ← hpair _ h]
  refine ⟨⟨fun h => ?_, fun h => ?_⟩, hsame⟩
  · rw [(hp.ofControl_eq_iff hd).1 (hpair _ h)]
  · rw [hsame h, h]

namespace Cycle

def calling (callee : Expr) : Block := .mk [.call callee [] none none] none

def unnamed (x : String) : ControlDecl :=
  ⟨"", [], [.action ⟨x, [], .mk [] none, none⟩], calling (.var x none), none⟩

def looping (x : String) : ControlDecl :=
  ⟨x, [], [.inst ⟨x, "again", [], none⟩], calling (.field (.var "again" none) "apply" none), none⟩

def program (x y : String) : Program := ⟨[.control (unnamed x), .control (looping y)], ""⟩

/-- The action and the recursive control have different names. -/
abbrev apart : Program := program "act" "Loop"

/-- The action has the name of the recursive control. -/
abbrev clash : Program := program "Loop" "Loop"

end Cycle

/-- Both guards accept a control without a name and refuse one that applies itself. -/
theorem FlowGraph.ofControl_callGraph_apart :
    (ofControl Cycle.apart.globals.scope none (Cycle.unnamed "act")).2 = [] ∧
    ofControl Cycle.apart.globals.scope (some Cycle.apart.callGraph) (Cycle.unnamed "act") =
      ofControl Cycle.apart.globals.scope none (Cycle.unnamed "act") ∧
    (ofControl Cycle.apart.globals.scope (some Cycle.apart.callGraph) (Cycle.looping "Loop")).2 ≠
      [] := by
  have herrors : Cycle.apart.globals.errors = [] := List.isEmpty_iff.1 (by decide +kernel)
  have hdots : ∀ x ∈ Cycle.apart.names, '.' ∉ x.toList := by decide +kernel
  have hunnamed : ∀ c ∈ Cycle.apart.controls, c.name = "" → ∀ a, .action a ∈ c.locals →
      a.name ∉ Cycle.apart.callGraph.recursive := by
    intro c hc hname a ha
    obtain rfl | hc := List.mem_cons.1 hc
    · cases List.mem_singleton.1 ha
      decide +kernel
    · rw [List.mem_singleton.1 hc] at hname
      exact absurd hname (by decide)
  have hguards := ofControl_callGraph Cycle.apart herrors hdots hunnamed
  have haccepted : (ofControl Cycle.apart.globals.scope none (Cycle.unnamed "act")).2 = [] :=
    List.isEmpty_iff.1 (by decide +kernel)
  refine ⟨haccepted, (hguards _ List.mem_cons_self).2 haccepted, fun h => ?_⟩
  have hrefused : (ofControl Cycle.apart.globals.scope none (Cycle.looping "Loop")).2.isEmpty =
      false := by decide +kernel
  rw [(hguards _ (List.mem_cons_of_mem _ List.mem_cons_self)).1.1 h] at hrefused
  cases hrefused

/-- An action of a nameless control may have the name of a recursive control. -/
theorem FlowGraph.not_forall_ofControl_callGraph : ¬ ∀ p : Program, p.globals.errors = [] →
    (∀ x ∈ p.names, '.' ∉ x.toList) → ∀ d ∈ p.controls,
      ((ofControl p.globals.scope (some p.callGraph) d).2 = [] ↔
        (ofControl p.globals.scope none d).2 = []) := by
  intro h
  have herrors : Cycle.clash.globals.errors = [] := List.isEmpty_iff.1 (by decide +kernel)
  have haccepted : (ofControl Cycle.clash.globals.scope none (Cycle.unnamed "Loop")).2 = [] :=
    List.isEmpty_iff.1 (by decide +kernel)
  have hrefused : (ofControl Cycle.clash.globals.scope (some Cycle.clash.callGraph)
      (Cycle.unnamed "Loop")).2.isEmpty = false := by decide +kernel
  rw [(h Cycle.clash herrors (by decide +kernel) _ List.mem_cons_self).2 haccepted] at hrefused
  cases hrefused

end ControlReach
