import ControlReach.Proofs.GlobalEnvironment
import ControlReach.Proofs.TableChoice

/-!
# The graph of a control has its executions

The error locations of a graph stand for the statements `bug()` and `assert(e)`, told apart by their
call paths. An execution of the control stops at one exactly if an execution of the graph ends at
its error location, when a constant stands for its expression wherever it is used.
-/

namespace ControlReach

open List FlowGraph

/-- The error locations of a graph stand for the statements where a control may stop. -/
structure FlowGraph.Reflects (g : FlowGraph) (p : Program) (time : BindingTime) (d : ControlDecl) :
    Prop where
  /-- A statement is told by its call path. -/
  apart : Apart (p.occurrences d)
  /-- Executions stop at these statements only. -/
  listed : ∀ path, p.Stops time d path → ∃ v ∈ p.occurrences d, v.path = path
  /-- Each statement has an error location, live or dead. -/
  covered : ∀ k v, (p.occurrences d)[k]? = some v →
    ∃ t ∈ g.targets ++ g.deadTargets, t.index = k ∧ t.StandsFor v
  /-- A live error location is reached as its statement is. -/
  live : ∀ t ∈ g.targets, ∃ v, (p.occurrences d)[t.index]? = some v ∧ t.StandsFor v ∧
    (p.Stops time d v.path ↔ ∃ select σ, g.Ends (.free select) t.block σ)
  /-- The statement of a dead error location is never reached. -/
  dead : ∀ t ∈ g.deadTargets, ∀ v, (p.occurrences d)[t.index]? = some v → ¬ p.Stops time d v.path

theorem Program.stops_iff {p : Program} {time : BindingTime} {d : ControlDecl} {path : CallPath} :
    p.Stops time d path ↔ ∃ y : List Slot × Heap,
      PassesAll p.environment p.environment [] (d.params.map fun x => (x, none)) y.1 y.2 ∧
      ∃ z : Environment × Heap,
        DeclaresAll time (slotFrame y.1 :: p.environment) y.2 d.locals z.1 z.2 ∧
        Runs time ([] :: z.1) z.2 (.statements 0 d.body.statements) (.stopped path) := by
  constructor
  · rintro ⟨slots, h, env, h', hpass, hlocals, hrun⟩
    exact ⟨(slots, h), hpass, (env, h'), hlocals, hrun⟩
  · rintro ⟨⟨slots, h⟩, hpass, ⟨env, h'⟩, hlocals, hrun⟩
    exact ⟨slots, h, env, h', hpass, hlocals, hrun⟩

variable {k i : Nat} {t : Target}

theorem occurrence_of_reports {p : Program} (h : Reports (p.visits d) 0 path i) :
    ∃ v, (p.occurrences d)[i]? = some v ∧ v.path = path := by
  simpa [Reports, stopPaths, Program.occurrences] using h

theorem Program.occurrence_unique {p : Program} (hi : (p.occurrences d)[i]? = some v)
    (hk : (p.occurrences d)[k]? = some v') (hpath : v.path = v'.path) : i = k := by
  have hlt : i < ((p.occurrences d).map Visit.path).length := by
    simpa using (List.getElem?_eq_some_iff.1 hi).1
  refine (getElem?_inj hlt (p.apart_occurrences d)).1 ?_
  rw [getElem?_map, getElem?_map, hi, hk, Option.map_some, Option.map_some, hpath]

theorem exists_getElem?_of_rel {α β : Type} {R : α → β → Prop} {l : List α} {l' : List β}
    (h : Forall₂ R l l') {x : α} (hx : l[k]? = some x) : ∃ y, l'[k]? = some y ∧ R x y := by
  obtain ⟨hlt, rfl⟩ := List.getElem?_eq_some_iff.1 hx
  have hlt' : k < l'.length := h.length_eq ▸ hlt
  exact ⟨l'[k], getElem?_eq_getElem hlt', h.get hlt hlt'⟩

namespace FlowGraph.Built

variable {p : Program} {d : ControlDecl} (b : Built p.globals.scope calls d g) {time : BindingTime}

theorem source_stops_iff (hadmits : Admits time (p.visits d)) {path : CallPath} :
    p.Stops time d path ↔ ∃ k v, (p.occurrences d)[k]? = some v ∧ v.path = path ∧
      b.plan.Stops (.free Selection.all) State.empty k := by
  have hagree := b.elaborates.simulates (p.models_globals time) hadmits State.empty
  rw [Program.stops_iff]
  constructor
  · intro h
    obtain ⟨r, hr, halike⟩ := hagree.forth (.stopped path) h
    cases halike with
    | stopped hreports =>
      obtain ⟨v, hv, hpath⟩ := occurrence_of_reports hreports
      exact ⟨_, v, hv, hpath, hr⟩
  · rintro ⟨k, v, hv, rfl, hstops⟩
    obtain ⟨out, h, halike⟩ := hagree.back (.inr k) hstops
    cases halike with
    | stopped hreports =>
      obtain ⟨v', hv', hpath⟩ := occurrence_of_reports hreports
      cases hv.symm.trans hv'
      rw [hpath]
      exact h

theorem occurrence_stops_iff (hadmits : Admits time (p.visits d)) {v : Visit}
    (hv : (p.occurrences d)[k]? = some v) :
    p.Stops time d v.path ↔ b.plan.Stops (.free Selection.all) State.empty k := by
  rw [b.source_stops_iff hadmits]
  constructor
  · rintro ⟨k', v', hv', hpath, hstops⟩
    rwa [← Program.occurrence_unique hv' hv hpath]
  · exact fun hstops => ⟨k, v, hv, rfl, hstops⟩

/-- The error locations of the plan stand for the statements, in order. -/
theorem standsFor_main : Forall₂ Target.StandsFor b.main.targets (p.occurrences d) := by
  have hplan : StandFor b.plan.targets (p.visits d) :=
    b.elaborates.lists (p.models_globals .use).names
  -- Being placed in a block changes neither the kind nor the place of an error location.
  have hsame : b.main.targets.map (fun t => (t.kind, t.loc)) =
      b.plan.targets.map fun t => (t.kind, t.loc) := b.plan.map_targets_lay (fun _ _ => rfl) .initial
  have hmap : ∀ l : List Target, Forall₂ Target.StandsFor l (p.occurrences d) ↔
      Forall₂ (fun q v => Visit.kind? v = some q.1 ∧ v.loc = q.2)
        (l.map fun t => (t.kind, t.loc)) (p.occurrences d) :=
    fun l => by
      rw [forall₂_map_left_iff]
      exact .rfl
  rw [hmap, hsame, ← hmap]
  exact hplan

theorem index_main (hk : b.main.targets[k]? = some t) : t.index = k := by
  have hindex : (b.main.targets.map Target.index)[k]? = some t.index := by
    rw [getElem?_map, hk]
    rfl
  rw [b.main_counted.target] at hindex
  obtain ⟨hlt, heq⟩ := List.getElem?_eq_some_iff.1 hindex
  rw [getElem_range] at heq
  exact heq.symm

theorem mem_targets_or_dead (ht : t ∈ b.main.targets) : t ∈ g.targets ++ g.deadTargets := by
  obtain ⟨ts, hts, -⟩ := (b.detaches.extends 0).targets
  rw [b.eq]
  exact mem_targets_prune (hts ▸ mem_append_left _ ht)

include b in
theorem reflects (hadmits : Admits time (p.visits d)) : g.Reflects p time d where
  apart := p.apart_occurrences d
  listed := by
    intro path hpath
    obtain ⟨k, v, hv, hpath, -⟩ := (b.source_stops_iff hadmits).1 hpath
    exact ⟨v, mem_of_getElem? hv, hpath⟩
  covered := by
    intro k v hv
    obtain ⟨t, ht, hstands⟩ := exists_getElem?_of_rel b.standsFor_main.flip hv
    exact ⟨t, b.mem_targets_or_dead (mem_of_getElem? ht), b.index_main ht, hstands⟩
  live := by
    intro t ht
    obtain ⟨k, hk⟩ := mem_iff_getElem?.1 (b.mem_targets ht)
    obtain rfl := b.index_main hk
    obtain ⟨v, hv, hstands⟩ := exists_getElem?_of_rel b.standsFor_main hk
    refine ⟨v, hv, hstands, ?_⟩
    rw [b.occurrence_stops_iff hadmits hv]
    exact b.stops_iff p.fits_globals ht
  dead := by
    intro t ht v hv
    rw [b.occurrence_stops_iff hadmits hv]
    exact b.not_stops ht

end FlowGraph.Built

theorem FlowGraph.reflects_of_admits {p : Program}
    (hok : ofControl p.globals.scope calls d = (g, [])) (hadmits : Admits time (p.visits d)) :
    g.Reflects p time d := by
  obtain ⟨⟨b⟩, -⟩ := ofControl_built hok
  exact b.reflects hadmits

theorem admits_use (l : List Visit) : Admits .use l := by
  rintro ⟨⟩

/-- The graph of a control whose constants depend on constants only has the executions of the
control. -/
theorem FlowGraph.reflects_control (p : Program) (calls : Option CallGraph) (d : ControlDecl)
    {g : FlowGraph} (hok : ofControl p.globals.scope calls d = (g, []))
    (hfixed : FixedConstants (p.visits d)) : g.Reflects p .declaration d :=
  reflects_of_admits hok fun _ => hfixed

namespace Toggle

def control : ControlDecl where
  name := "C"
  params := [⟨.inout, .bool none, "x", none⟩]
  locals := [
    .constant ⟨.bool none, "K", .bool true none, none⟩,
    .action ⟨"set", [⟨.inout, .bool none, "b", none⟩],
      .mk [
        .branch (.equal false (.var "b" none) (.var "K" none) none)
          (.mk [.call (.var "bug" none) [] none none] none) none none,
        .assign (.var "b" none) (.var "K" none) none] none, none⟩,
    .table ⟨"t", [], [⟨"set", [.given (.var "x" none) none none], none⟩], none, none⟩]
  body := .mk [
    .call (.field (.var "t" none) "apply" none) [] none none,
    .call (.var "assert" none) [.given (.var "x" none) none none] none none] none
  loc := none

def program : Program := ⟨[.control control], ""⟩

def graph : FlowGraph := (ofControl program.globals.scope none control).1

theorem ofControl_eq : ofControl program.globals.scope none control = (graph, []) := by
  have herrors : (ofControl program.globals.scope none control).2 = [] := by decide +kernel
  rw [graph, ← herrors]

theorem fixedConstants : FixedConstants (program.visits control) := by decide +kernel

end Toggle

/-- Executions may stop in the action of the table and at the assertion behind it. -/
theorem FlowGraph.reflects_control_toggle :
    ofControl Toggle.program.globals.scope none Toggle.control = (Toggle.graph, []) ∧
      FixedConstants (Toggle.program.visits Toggle.control) ∧
      (Toggle.program.occurrences Toggle.control).map Visit.path =
        [[.stmt 0, .choice 0, .stmt 0, .yes, .stmt 0], [.stmt 1]] ∧
      Toggle.graph.Reflects Toggle.program .declaration Toggle.control :=
  ⟨Toggle.ofControl_eq, Toggle.fixedConstants, by decide +kernel,
    reflects_control Toggle.program none Toggle.control Toggle.ofControl_eq Toggle.fixedConstants⟩

/-- In the graph a constant has the value of its expression where it is used. -/
theorem FlowGraph.reflects_use (p : Program) (calls : Option CallGraph) (d : ControlDecl)
    {g : FlowGraph} (hok : ofControl p.globals.scope calls d = (g, [])) :
    g.Reflects p .use d ∧
      (FixedConstants (p.visits d) →
        ∀ path, p.Stops .declaration d path ↔ p.Stops .use d path) := by
  obtain ⟨⟨b⟩, -⟩ := ofControl_built hok
  refine ⟨b.reflects (admits_use _), fun hfixed path => ?_⟩
  rw [b.source_stops_iff fun _ => hfixed, b.source_stops_iff (admits_use _)]

namespace Stale

def branch : Stmt :=
  .branch (.var "K" none) (.mk [.call (.var "bug" none) [] none none] none) none none

def control : ControlDecl where
  name := "C"
  params := []
  locals := []
  body := .mk [
    .variable ⟨.bool none, "x", some (.bool true none), none⟩,
    .constant ⟨.bool none, "K", .var "x" none, none⟩,
    .assign (.var "x" none) (.bool false none) none, branch] none
  loc := none

def program : Program := ⟨[.control control], ""⟩

def graph : FlowGraph := (ofControl program.globals.scope none control).1

theorem ofControl_eq : ofControl program.globals.scope none control = (graph, []) := by
  have herrors : (ofControl program.globals.scope none control).2 = [] := by decide +kernel
  rw [graph, ← herrors]

theorem runs_branch (he : Expr.eval env h (.var "K" none) = some (.bool true))
    (hbug : Env.callee? ([] :: env) (.var "bug" none) = some (.assertion .bug)) :
    Runs time env h (.statement branch) (.stopped [.yes, .stmt 0]) :=
  show Runs time env h (.statement branch) (((Exit.stopped [.stmt 0]).leave env).under .yes) from
    .yes he (.stop (.bug hbug))

def path : CallPath := [.stmt 3, .yes, .stmt 0]

theorem stops_declaration : program.Stops .declaration control path := by
  refine ⟨[], [], _, [], .nil, .nil, ?_⟩
  exact .next (.declare (.initial rfl rfl)) (.next (.constant .constant)
    (.next (.assign rfl rfl rfl) (.stop (runs_branch rfl rfl))))

theorem runs_later {time : BindingTime} {env : Environment} {h : Heap} {j : Nat} {x : Stmt}
    {l : List Stmt} {path : CallPath} (hij : i ≠ j)
    (hrun : Runs time env h (.statements i (x :: l)) (.stopped (.stmt j :: path))) :
    ∃ env₁ h₁, Runs time env h (.statement x) (.done env₁ h₁) ∧
      Runs time env₁ h₁ (.statements (i + 1) l) (.stopped (.stmt j :: path)) := by
  cases hrun with
  | next hx hrun => exact ⟨_, _, hx, hrun⟩
  | stop => exact absurd rfl hij

theorem not_stops_use : ¬ program.Stops .use control path := by
  rintro ⟨slots, h, env, h', hpass, hlocals, hrun⟩
  cases hpass
  cases hlocals
  obtain ⟨env₁, h₁, hx, hrun⟩ := runs_later (by decide) hrun
  obtain ⟨env₂, h₂, hK, hrun⟩ := runs_later (by decide) hrun
  obtain ⟨env₃, h₃, hassign, hrun⟩ := runs_later (by decide) hrun
  cases hx with
  | declare hx =>
    cases hx with
    | arbitrary hnone => cases hnone
    | initial he hv =>
      cases he
      cases hv
      cases hK with
      | constant hK =>
        cases hK
        cases hassign with
        | assign hplace hv hh =>
          cases hplace
          cases hv
          cases hh
          cases hrun with
          | next _ hrun => cases hrun
          | stop hbranch =>
            generalize hexit : Exit.stopped _ = exit at hbranch
            cases hbranch with
            | yes he _ => cases he
            | skip => cases hexit

theorem paths_eq : (program.occurrences control).map Visit.path = [path] := by decide +kernel

theorem not_ends (ht : t ∈ graph.targets) (select : Selection) (σ : State) :
    ¬ graph.Ends (.free select) t.block σ := by
  obtain ⟨v, hv, -, hstops⟩ := (reflects_of_admits ofControl_eq (admits_use _)).live t ht
  have hpath : v.path ∈ (program.occurrences control).map Visit.path :=
    mem_map_of_mem (mem_of_getElem? hv)
  rw [paths_eq, mem_singleton] at hpath
  rw [hpath] at hstops
  exact fun hends => not_stops_use (hstops.2 ⟨select, σ, hends⟩)

end Stale

/-- The constant of the first control changes its value, that of the second does not. -/
theorem FlowGraph.reflects_use_stale :
    ofControl Stale.program.globals.scope none Stale.control = (Stale.graph, []) ∧
      Stale.graph.Reflects Stale.program .use Stale.control ∧
      ofControl Toggle.program.globals.scope none Toggle.control = (Toggle.graph, []) ∧
      FixedConstants (Toggle.program.visits Toggle.control) ∧
      ∀ path, Toggle.program.Stops .declaration Toggle.control path ↔
        Toggle.program.Stops .use Toggle.control path :=
  ⟨Stale.ofControl_eq, (reflects_use Stale.program none Stale.control Stale.ofControl_eq).1,
    Toggle.ofControl_eq, Toggle.fixedConstants,
    (reflects_use Toggle.program none Toggle.control Toggle.ofControl_eq).2 Toggle.fixedConstants⟩

/-- At its declaration the constant has a value with which the error is reached. -/
theorem FlowGraph.not_forall_reflects_declaration :
    ofControl Stale.program.globals.scope none Stale.control = (Stale.graph, []) ∧
      Stale.program.Stops .declaration Stale.control Stale.path ∧
      ∀ t ∈ Stale.graph.targets, ∀ select σ, ¬ Stale.graph.Ends (.free select) t.block σ :=
  ⟨Stale.ofControl_eq, Stale.stops_declaration, fun _ ht => Stale.not_ends ht⟩

end ControlReach
