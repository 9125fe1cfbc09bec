import ControlReach.Proofs.CallEntries

/-!
# Inlined bodies

Each body that a construction has inlined has been elaborated with all its error locations, and a
chain of calls leads to it from the control, or from an action that is never called.
-/

namespace ControlReach

open List Relation

/-- What makes calls: a control, or an action or a table of one. -/
inductive Caller
  | control (c : ControlDecl)
  | action (c : ControlDecl) (d : ActionDecl)
  | table (c : ControlDecl) (d : TableDecl)

/-- The control in which the calls stand. -/
def Caller.home : Caller → ControlDecl
  | .control c => c
  | .action c _ => c
  | .table c _ => c

/-- The names that are called. -/
def Caller.calls : Caller → List String
  | .control c => c.body.calls.map Prod.fst
  | .action _ d => (Local.action d).calls
  | .table _ d => (Local.table d).calls

/-- A name that is called, and what it stands for in a scope inside the control. -/
inductive Program.Resolves (p : Program) (f : Caller) : Caller → Prop
  | action {x d q} {s home : Scope} : x ∈ f.calls → s.Within p f.home →
      s.find? x = some (.action d q, home) → Resolves p f (.action f.home d)
  | table {x d q} {s home : Scope} : x ∈ f.calls → s.Within p f.home →
      s.find? x = some (.table d q, home) → Resolves p f (.table f.home d)
  | control {x d} {s home : Scope} : x ∈ f.calls → s.Within p f.home →
      s.find? x = some (.inst (some d), home) → Resolves p f (.control d)

variable {ctx : Context} {depth : Nat} {d : ControlDecl}

namespace Elaborate

/-- A body has been elaborated under a name, and its error locations have been made. -/
inductive Inlined (p : Program) (made : Target → Prop) : Caller → String → Prop
  | action {depth ctx c a args caller loc unbound n b m} : a.Of p c →
      Elaborates depth (.action ctx a args caller loc unbound) n (.plan b) m →
      (∀ t ∈ b.targets, made t) → Inlined p made (.action c a.decl) a.qualified
  | control {depth ctx d args caller c loc n b m} : d ∈ p.controls → caller.Within p c →
      Elaborates depth (.control ctx d args caller loc) n (.plan b) m →
      (∀ t ∈ b.targets, made t) → Inlined p made (.control d) d.name

/-- Nothing is forgotten, some bodies are inlined, and actions of controls are met. -/
structure Grows (p : Program) (via : Caller → Prop) (made : Target → Prop) (n m : Counters) :
    Prop where
  inlined_subset : n.inlined ⊆ m.inlined
  pending_subset : n.pending ⊆ m.pending
  inlined : ∀ q ∈ m.inlined, q ∈ n.inlined ∨ ∃ g, via g ∧ Inlined p made g q
  pending : ∀ a ∈ m.pending, a ∈ n.pending ∨ ∃ c, a.Of p c

variable {p : Program} {via : Caller → Prop} {made : Target → Prop} {n m : Counters}

theorem Inlined.mono (h : Inlined p made g q) (hmade : ∀ t, made t → made' t) :
    Inlined p made' g q := by
  cases h with
  | action ha hjob hmine => exact .action ha hjob fun t ht => hmade t (hmine t ht)
  | control hd hcaller hjob hmine => exact .control hd hcaller hjob fun t ht => hmade t (hmine t ht)

variable {a : Plan} {s : Scope} {f : Caller}

namespace Grows

theorem of_eq (hinlined : m.inlined = n.inlined) (hpending : m.pending = n.pending) :
    Grows p via made n m :=
  ⟨fun _ hq => hinlined ▸ hq, fun _ ha => hpending ▸ ha, fun _ hq => .inl (hinlined ▸ hq),
    fun _ ha => .inl (hpending ▸ ha)⟩

theorem mono (h : Grows p via made n m) (hvia : ∀ g, via g → via' g)
    (hmade : ∀ t, made t → made' t) : Grows p via' made' n m where
  inlined_subset := h.inlined_subset
  pending_subset := h.pending_subset
  inlined := fun q hq => (h.inlined q hq).imp_right fun ⟨g, hg, hinlined⟩ =>
    ⟨g, hvia g hg, hinlined.mono hmade⟩
  pending := h.pending

theorem trans (h : Grows p via made n k) (h' : Grows p via made k m) : Grows p via made n m where
  inlined_subset := Subset.trans h.inlined_subset h'.inlined_subset
  pending_subset := Subset.trans h.pending_subset h'.pending_subset
  inlined := fun q hq => (h'.inlined q hq).elim (h.inlined q) .inr
  pending := fun a ha => (h'.pending a ha).elim (h.pending a) .inr

theorem append {ts ts' : List Target} (h : Grows p via (· ∈ ts) n k)
    (h' : Grows p via (· ∈ ts') k m) : Grows p via (· ∈ ts ++ ts') n m :=
  (h.mono (fun _ => id) fun _ => mem_append_left _).trans
    (h'.mono (fun _ => id) fun _ => mem_append_right _)

theorem called (hg : p.Resolves f g) (h : Grows p (ReflTransGen p.Resolves g) made n m) :
    Grows p (TransGen p.Resolves f) made n m :=
  h.mono (fun _ hpath => TransGen.head' hg hpath) fun _ => id

theorem enter {q : String} {uid fresh : Nat}
    (h : Grows p (TransGen p.Resolves f) made { n with uid, fresh, inlined := noting q n.inlined
      } m) (hq : Inlined p made f q) :
    q ∈ m.inlined ∧ Grows p (ReflTransGen p.Resolves f) made n m := by
  refine ⟨h.inlined_subset (mem_noting.2 (.inl rfl)), fun x hx => ?_, h.pending_subset, fun x hx => ?_,
    h.pending⟩
  · exact h.inlined_subset (mem_noting.2 (.inr hx))
  · obtain hx | ⟨g, hpath, hg⟩ := h.inlined x hx
    · obtain rfl | hx := mem_noting.1 hx
      · exact .inr ⟨f, .refl, hq⟩
      · exact .inl hx
    · exact .inr ⟨g, hpath.to_reflTransGen, hg⟩

end Grows

/-! ### Declarations -/

theorem DeclaresVariable.grows {d : VariableDecl} (h : DeclaresVariable ctx s d n a s' m) :
    Grows p via made n m := by
  cases h <;> exact .of_eq rfl rfl

theorem DeclaresLocals.counters_eq (h : DeclaresLocals ctx s l n a s' m) :
    m.inlined = n.inlined ∧ m.pending = n.pending ++ s'.actions := by
  induction h with
  | nil => exact ⟨rfl, rfl⟩
  | declare hd _ ih => cases hd <;> exact ih
  | name _ _ ih => exact ih

theorem BindsInputs.counters_eq (h : BindsInputs s params n a s' m) :
    m.inlined = n.inlined ∧ m.pending = n.pending := by
  induction h with
  | nil => exact ⟨rfl, rfl⟩
  | cons _ _ _ ih => exact ih

theorem of_mem_actions (hs : s.Home p c) {a : PendingAction} (ha : a ∈ s.actions) : a.Of p c := by
  obtain ⟨⟨x, b⟩, hmem, heq⟩ := mem_filterMap.1 ha
  cases b <;> cases heq
  exact hs.action hmem

theorem DeclaresLocals.grows {c : ControlDecl} (h : DeclaresLocals ctx s c.locals n a s' m)
    (hs : s.Opens p c []) : Grows p via made n m := by
  obtain ⟨hinlined, hpending⟩ := h.counters_eq
  refine ⟨fun q hq => hinlined ▸ hq, ?_, fun q hq => .inl (hinlined ▸ hq), fun a ha => ?_⟩
  · rw [hpending]
    exact subset_append_left _ _
  · rw [hpending, mem_append] at ha
    exact ha.imp_right fun ha => ⟨c, of_mem_actions (h.opens hs) ha⟩

/-! ### One job -/

def Job.Grows (p : Program) (n m : Counters) (out : Output) : Job → Prop
  | .statements _ s l => ∀ f : Caller, s.Inside p f.home → (Stmt.callsOf l).map Prod.fst ⊆ f.calls →
      Elaborate.Grows p (TransGen p.Resolves f) (· ∈ out.targets) n m
  | .statement _ s x _ => ∀ f : Caller, s.Inside p f.home → x.calls.map Prod.fst ⊆ f.calls →
      Elaborate.Grows p (TransGen p.Resolves f) (· ∈ out.targets) n m
  | .action _ a _ _ _ _ => ∀ c, a.Of p c → a.qualified ∈ m.inlined ∧
      Elaborate.Grows p (ReflTransGen p.Resolves (.action c a.decl)) (· ∈ out.targets) n m
  | .control _ d _ caller _ => ∀ c, d ∈ p.controls → caller.Within p c →
      Elaborate.Grows p (ReflTransGen p.Resolves (.control d)) (· ∈ out.targets) n m
  | .arms _ t home _ refs => ∀ c, home.Home p c → refs ⊆ t.actions →
      Elaborate.Grows p (TransGen p.Resolves (.table c t)) (· ∈ out.targets) n m

theorem mem_calls (hcalls : (Stmt.call callee args callLoc loc).calls.map Prod.fst ⊆ f.calls)
    (hx : callee.applied? = some (x, apply)) : x ∈ f.calls := by
  rw [calls_call, calleeName?_of_applied? hx] at hcalls
  exact hcalls mem_cons_self

theorem callsOf_subset (b : Block) :
    (Stmt.callsOf b.statements).map Prod.fst ⊆ b.calls.map Prod.fst := by
  rw [Block.calls_eq]
  exact Subset.refl _

theorem Elaborates.grows {job : Job} (h : Elaborates depth job n out m) : job.Grows p n m out := by
  induction h with
  | nil | assign | constant | bug | assert | assume => exact fun _ _ _ => .of_eq rfl rfl
  | declare hd => exact fun _ _ _ => hd.grows
  | cons hx _ ih₁ ih₂ =>
    intro f hs hcalls
    rw [Stmt.callsOf, map_append, append_subset] at hcalls
    exact (ih₁ f hs hcalls.1).append (ih₂ f (hx.callsEnter hs).1 hcalls.2)
  | @block _ _ _ body _ _ _ _ ih =>
    intro f hs hcalls
    obtain ⟨l, _⟩ := body
    exact ih f (hs.enter (by decide)) hcalls
  | @ifThen _ _ _ _ _ yes _ _ _ _ _ _ ih =>
    intro f hs hcalls
    obtain ⟨l, _⟩ := yes
    rw [Stmt.calls, map_append, append_subset] at hcalls
    exact ih f (hs.enter (by decide)) hcalls.1
  | @ifElse _ _ _ _ _ yes no _ _ _ _ _ _ _ _ _ ih₁ ih₂ =>
    intro f hs hcalls
    obtain ⟨l, _⟩ := yes
    obtain ⟨l', _⟩ := no
    rw [Stmt.calls, map_append, append_subset] at hcalls
    exact (ih₁ f (hs.enter (by decide)) hcalls.1).append (ih₂ f (hs.enter (by decide)) hcalls.2)
  | callAction _ happlied hfind _ ih =>
    intro f hs hcalls
    exact (ih f.home (hs.action hfind)).2.called
      (.action (mem_calls hcalls happlied) hs.toWithin hfind)
  | callTable _ happlied hfind _ ih =>
    intro f hs hcalls
    have hgrows := ih f.home (hs.table hfind).1 (Subset.refl _)
    have hstep : p.Resolves f _ := .table (mem_calls hcalls happlied) hs.toWithin hfind
    have hcalled := hgrows.mono (fun _ hpath => TransGen.head hstep hpath) fun _ => id
    exact ⟨hcalled.inlined_subset, hcalled.pending_subset, hcalled.inlined, hcalled.pending⟩
  | callControl _ happlied hfind _ ih =>
    intro f hs hcalls
    exact (ih f.home (hs.instance hfind) hs.toWithin).called
      (.control (mem_calls hcalls happlied) hs.toWithin hfind)
  | @action _ _ d _ _ _ _ _ _ _ formals _ fill _ _ body _ hbound hq hformals hfill hbody ih =>
    intro c ha
    have hs := hfill.inside (ha.home.within.enter (by decide))
    have hgrows := ih (.action c d) (hs.enter (by decide)) (callsOf_subset d.body)
    refine Grows.enter (hgrows.mono (fun _ => id) fun t ht => ?_)
      (.action ha (.action hbound hq hformals hfill hbody) fun _ => id)
    exact mem_append_right _ (mem_append_left _ ht)
  | @control _ _ d _ _ _ _ _ _ fill _ _ locals _ _ body _ hdirections hbound hq hformals hfill
      hlocals hbody ih =>
    intro c hd hcaller
    have hopens := opens_of_fills hd hcaller hbound hformals hfill
    have hhome : Scope.Home p d _ := hlocals.opens hopens
    have hgrows := ih (.control d) (hhome.within.enter (by decide)) (callsOf_subset d.body)
    refine (Grows.enter ((hlocals.grows hopens).trans (hgrows.mono (fun _ => id) fun t ht => ?_))
      (.control hd hcaller (.control hdirections hbound hq hformals hfill hlocals hbody)
        fun _ => id)).2
    exact mem_append_right _ (mem_append_right _ (mem_append_left _ ht))
  | @arm _ _ t _ _ ref _ _ _ _ _ _ _ _ _ href _ _ ih₁ ih₂ =>
    intro c hhome hrefs
    obtain ⟨hmem, hrefs⟩ := cons_subset.1 hrefs
    have hfind := resolveAction_eq_ok href
    have hcall : ref.name ∈ (Caller.table c t).calls :=
      mem_map_of_mem (mem_append_left _ hmem)
    exact ((ih₁ c (hhome.within.action hfind)).2.called (.action hcall hhome.within hfind)).append
      (ih₂ c hhome hrefs)
  | miss => exact fun _ _ _ => .of_eq rfl rfl
  | @default _ _ t _ _ ref _ _ _ _ _ _ hsome href _ ih =>
    intro c hhome _
    have hfind := resolveAction_eq_ok href
    have hcall : ref.name ∈ (Caller.table c t).calls :=
      mem_map_of_mem (mem_append_right _ (by rw [hsome]; exact mem_cons_self))
    exact ((ih c (hhome.within.action hfind)).2.called (.action hcall hhome.within hfind)).mono
      (fun _ => id) fun _ => mem_append_left _

/-! ### A whole control -/

section

variable (h : ElaboratesControl depth ctx p.globals.scope d a m) (hd : d ∈ p.controls)

include h hd

theorem ElaboratesControl.grows :
    Grows p (TransGen p.Resolves (.control d)) (· ∈ a.targets) ⟨0, 0, 0, 0, [], []⟩ m := by
  obtain ⟨hinputs, hlocals, hbody⟩ := h
  have hopens := opens_of_inputs hd hinputs
  have hhome : Scope.Home p d _ := hlocals.opens hopens
  have hgrows := hbody.grows (.control d) (hhome.within.enter (by decide)) (callsOf_subset d.body)
  obtain ⟨hinlined, hpending⟩ := hinputs.counters_eq
  refine ((Grows.of_eq hinlined hpending).trans (hlocals.grows hopens)).trans
    (hgrows.mono (fun _ => id) fun t ht => ?_)
  exact mem_append_right _ (mem_append_right _ ht)

theorem ElaboratesControl.mem_pending (haction : .action action ∈ d.locals) :
    ∃ x ∈ m.pending, x.decl = action ∧ x.Of p d := by
  obtain ⟨hinputs, hlocals, hbody⟩ := h
  have hhome : Scope.Home p d _ := hlocals.opens (opens_of_inputs hd hinputs)
  have hgrows := hbody.grows (.control d) (hhome.within.enter (by decide)) (callsOf_subset d.body)
  obtain ⟨⟨x, b⟩, hmem, rfl, rfl⟩ := hhome.holds.declared _ haction
  refine ⟨⟨action, _, _⟩, hgrows.pending_subset ?_, rfl, hhome.action hmem⟩
  rw [hlocals.counters_eq.2]
  exact mem_append_right _ (mem_filterMap.2 ⟨_, hmem, rfl⟩)

end

/-! ### Actions that are not called -/

end Elaborate

def Layout.Makes (l : Layout) (t : Target) : Prop := ∃ i, { t with block := i } ∈ l.targets

theorem Plan.makes_lay (a : Plan) (l : Layout) :
    l.targets ⊆ (a.lay l).targets ∧ ∀ t ∈ a.targets, (a.lay l).Makes t := by
  refine ⟨?_, fun t ht => ?_⟩
  · obtain ⟨ts, hts, -⟩ := (a.extends_lay l).targets
    rw [hts]
    exact subset_append_left _ _
  · have hsame := a.map_targets_lay (f := fun t => { t with block := 0 }) (fun _ _ => rfl) l
    obtain ⟨t', ht', heq⟩ := mem_map.1 (hsame ▸ mem_append_right _ (mem_map_of_mem ht))
    refine ⟨t'.block, ?_⟩
    cases t
    cases t'
    cases heq
    exact ht'

namespace Elaborate

/-- What is inlined while the given actions, and those met meanwhile, are laid out. -/
structure Detached (p : Program) (actions : List PendingAction) (n : Counters) (l : Layout)
    (m : Counters) (l' : Layout) : Prop where
  targets : l.targets ⊆ l'.targets
  inlined_subset : n.inlined ⊆ m.inlined
  listed : ∀ a ∈ actions, a.qualified ∈ m.inlined
  inlined : ∀ q ∈ m.inlined, q ∈ n.inlined ∨ ∃ c, ∃ a : PendingAction, ∃ g, a.Of p c ∧
    a.qualified ∉ n.inlined ∧ ReflTransGen p.Resolves (.action c a.decl) g ∧ Inlined p l'.Makes g q

theorem Detaches.detached (h : Detaches depth ctx actions n l m l')
    (hactions : ∀ a ∈ actions, ∃ c, a.Of p c) (hpending : ∀ a ∈ n.pending, ∃ c, a.Of p c) :
    Detached p actions n l m l' := by
  induction h with
  | nil => exact ⟨Subset.refl _, Subset.refl _, nofun, fun _ => .inl⟩
  | skip hmem _ ih =>
    obtain ⟨-, hactions⟩ := forall_mem_cons.1 hactions
    have hrest := ih hactions hpending
    exact ⟨hrest.targets, hrest.inlined_subset,
      forall_mem_cons.2 ⟨hrest.inlined_subset hmem, hrest.listed⟩, hrest.inlined⟩
  | round _ ih =>
    have hround := ih hpending nofun
    exact ⟨hround.targets, hround.inlined_subset, nofun, hround.inlined⟩
  | @cons action rest n l a k m l' hnew hjob _ ih =>
    obtain ⟨⟨c, haction⟩, hactions⟩ := forall_mem_cons.1 hactions
    obtain ⟨hmine, hgrows⟩ := hjob.grows c haction
    have hrest := ih hactions fun x hx => (hgrows.pending x hx).elim (hpending x) id
    obtain ⟨hkept, hmade⟩ :=
      a.makes_lay ((l.newBlock ("detached " ++ action.qualified)).goTo l.size)
    refine ⟨Subset.trans hkept hrest.targets,
      Subset.trans hgrows.inlined_subset hrest.inlined_subset,
      forall_mem_cons.2 ⟨hrest.inlined_subset hmine, hrest.listed⟩, fun q hq => ?_⟩
    obtain hq | ⟨c', a', g, ha', hnew', hpath, hg⟩ := hrest.inlined q hq
    · refine (hgrows.inlined q hq).imp_right fun ⟨g, hpath, hg⟩ => ?_
      refine ⟨c, action, g, haction, hnew, hpath, hg.mono fun t ht => ?_⟩
      exact (hmade t ht).imp fun _ hmem => hrest.targets hmem
    · exact .inr ⟨c', a', g, ha', fun hmem => hnew' (hgrows.inlined_subset hmem), hpath, hg⟩

theorem grows_ofControl (hd : d ∈ p.controls)
    (h : (FlowGraph.ofControl p.globals.scope calls d).2 = []) : ∃ a,
      ElaboratesControl (inlineBound p.globals.scope) (.initial calls d) p.globals.scope d a
        (Build.ofBody p.globals.scope calls d).counters ∧
      Grows p (TransGen p.Resolves (.control d)) (· ∈ a.targets) ⟨0, 0, 0, 0, [], []⟩
        (Build.ofBody p.globals.scope calls d).counters ∧
      Detached p (Build.ofBody p.globals.scope calls d).pending
        { (Build.ofBody p.globals.scope calls d).counters with pending := [] } (a.lay .initial)
        (Build.ofControl p.globals.scope calls d).counters
        (Build.ofControl p.globals.scope calls d).layout := by
  obtain ⟨a, helab, hdetaches⟩ := Build.ofControl_spec h
  have hgrows := helab.grows hd
  refine ⟨a, helab, hgrows, hdetaches.detached (fun x hx => ?_) nofun⟩
  exact (hgrows.pending x hx).resolve_left nofun

end Elaborate

end ControlReach
