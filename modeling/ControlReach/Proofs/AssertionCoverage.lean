import ControlReach.Proofs.InliningEdges

/-!
# Assertions and error locations

An assertion in the body of a control, or of one of its actions, has an error location in the graph,
whether or not the action is called, unless another body has been inlined under the label of the
action.
-/

namespace ControlReach

open List Elaborate

def Stmt.declares? : Stmt → Option String
  | .variable d => some d.name
  | .constant d => some d.name
  | _ => none

/-- An assertion stands among statements before any declaration of its name. -/
inductive Stmt.Asserts (kind : AssertionKind) (args : List Argument) (callLoc : Option Location) :
    List Stmt → Prop
  | call {xloc loc rest} :
      Asserts kind args callLoc (.call (.var kind.text xloc) args callLoc loc :: rest)
  | later {x rest} : x.declares? ≠ some kind.text → Asserts kind args callLoc rest →
      Asserts kind args callLoc (x :: rest)
  | block {body rest} : Asserts kind args callLoc body.statements →
      Asserts kind args callLoc (.block body :: rest)
  | yes {e yes no loc rest} : Asserts kind args callLoc yes.statements →
      Asserts kind args callLoc (.branch e yes no loc :: rest)
  | no {e yes no loc rest} : Asserts kind args callLoc no.statements →
      Asserts kind args callLoc (.branch e yes (some no) loc :: rest)

/-- An error location has the kind and the description of an assertion. -/
def Target.Describes (kind : AssertionKind) (args : List Argument) (callLoc : Option Location)
    (t : Target) : Prop :=
  t.kind = kind ∧ ∃ condition, assertionCondition kind args callLoc = .ok condition ∧
    t.description = targetDescription condition

variable {p : Program} {s : Scope} {x : String} {kind : AssertionKind} {args : List Argument}
  {callLoc : Option Location}

/-! ### Names that are not declared -/

namespace Scope

def Free (x : String) (s : Scope) : Prop := ∀ f ∈ s.frames, x ∉ f.symbols.map Prod.fst

theorem Free.enter (h : s.Free x) (kind : FrameKind) (name : String) : (s.enter kind name).Free x :=
  forall_mem_cons.2 ⟨not_mem_nil, h⟩

theorem Free.declare (h : s.Free x) (hs : s.declare y b loc = .ok s') (hy : y ≠ x) : s'.Free x := by
  obtain ⟨-, rfl⟩ := declare_eq_ok hs
  obtain ⟨hinner, houter⟩ := forall_mem_cons.1 h
  refine forall_mem_cons.2 ⟨fun hx => ?_, houter⟩
  rw [map_append, mem_append] at hx
  exact hx.elim hinner fun hx => hy (mem_singleton.1 hx).symm

theorem Free.lookup (h : s.Free x) : s.lookup x = none := by
  rw [Scope.lookup, Option.map_eq_none_iff, Option.eq_none_iff_forall_not_mem]
  rintro ⟨b, home⟩ hx
  obtain ⟨before, f, after, hframes, hmem, -⟩ := exists_of_find? hx
  exact h f (hframes ▸ mem_append_right _ mem_cons_self) (mem_map_of_mem hmem)

theorem Free.assertion? (h : s.Free kind.text) (loc : Option Location) :
    s.assertion? (.var kind.text loc) = some kind := by
  rw [Scope.assertion?, h.lookup]
  cases kind <;> rfl

theorem Home.free (h : s.Home p c) (hglobal : p.globals.scope.lookup x = none)
    (hlocal : x ∉ c.params.map Parameter.name ++ c.locals.filterMap Local.name?) : s.Free x := by
  rw [Free, frames, h.outer]
  refine forall_mem_cons.2 ⟨fun hx => ?_, forall_mem_singleton.2 ?_⟩
  · obtain ⟨q, hq, rfl⟩ := mem_map.1 hx
    obtain ⟨-, hparam⟩ | ⟨l, hl, hbinds⟩ := h.holds.bound q hq
    · exact hlocal (mem_append_left _ hparam)
    · exact hlocal (mem_append_right _ (mem_filterMap.2 ⟨l, hl, hbinds.name?⟩))
  · exact not_mem_of_find?_eq_none (Option.map_eq_none_iff.1 hglobal) _ mem_cons_self

end Scope

/-! ### Bodies -/

namespace Elaborate

theorem Elaborates.free (h : Elaborates depth (.statement ctx s z s') n out m) (hs : s.Free x)
    (hz : z.declares? ≠ some x) : s'.Free x := by
  have hne : ∀ y, z.declares? = some y → y ≠ x := fun y hy heq => hz (heq ▸ hy)
  cases h with
  | declare hd =>
    obtain ⟨v, hdeclare⟩ := hd.exists_declare
    exact hs.declare hdeclare (hne _ rfl)
  | constant hd =>
    obtain ⟨-, -, hdeclare⟩ := hd
    exact hs.declare hdeclare (hne _ rfl)
  | _ => exact hs

theorem FillsFormals.free {formals : List Formal} {n m : Nat}
    (h : FillsFormals loc s formals n a s' m) (hs : s.Free x)
    (hx : ∀ f ∈ formals, f.param.name ≠ x) : s'.Free x :=
  h.keeps (fun f hf _ _ hdeclare hs => hs.declare hdeclare (hx f hf)) hs

theorem Elaborates.asserts (hkind : kind ≠ .assume) (h : Stmt.Asserts kind args callLoc l)
    (hjob : Elaborates depth (.statements ctx s l) n (.plan a) m) (hs : s.Free kind.text) :
    ∃ t ∈ a.targets, t.Describes kind args callLoc := by
  induction h generalizing s n a m with
  | call =>
    cases hjob with
    | cons hx _ =>
      cases hx with
      | bug hassertion hcondition | assert hassertion hcondition =>
        obtain rfl := Option.some.inj ((hs.assertion? _).symm.trans hassertion)
        exact ⟨_, mem_append_left _ mem_cons_self, rfl, _, hcondition, rfl⟩
      | assume hassertion =>
        exact absurd (Option.some.inj ((hs.assertion? _).symm.trans hassertion)) hkind
      | callAction hnone | callTable hnone | callControl hnone =>
        cases (hs.assertion? _).symm.trans hnone
  | later hdeclares _ ih =>
    cases hjob with
    | cons hx hrest =>
      obtain ⟨t, ht, hdescribes⟩ := ih hrest (hx.free hs hdeclares)
      exact ⟨t, mem_append_right _ ht, hdescribes⟩
  | block _ ih =>
    cases hjob with
    | cons hx _ =>
      cases hx with
      | block hbody =>
        obtain ⟨t, ht, hdescribes⟩ := ih hbody (hs.enter _ _)
        exact ⟨t, mem_append_left _ ht, hdescribes⟩
  | yes _ ih =>
    cases hjob with
    | cons hx _ =>
      cases hx with
      | ifThen _ hyes =>
        obtain ⟨t, ht, hdescribes⟩ := ih hyes (hs.enter _ _)
        exact ⟨t, mem_append_left _ ht, hdescribes⟩
      | ifElse _ hyes _ =>
        obtain ⟨t, ht, hdescribes⟩ := ih hyes (hs.enter _ _)
        exact ⟨t, mem_append_left _ (mem_append_left _ ht), hdescribes⟩
  | no _ ih =>
    cases hjob with
    | cons hx _ =>
      cases hx with
      | ifElse _ _ hno =>
        obtain ⟨t, ht, hdescribes⟩ := ih hno (hs.enter _ _)
        exact ⟨t, mem_append_left _ (mem_append_right _ ht), hdescribes⟩

theorem Elaborates.asserts_action (hkind : kind ≠ .assume) {action : PendingAction}
    (hjob : Elaborates depth (.action ctx action given caller loc unbound) n (.plan a) m)
    (hhome : action.home.Free kind.text)
    (hparams : kind.text ∉ action.decl.params.map Parameter.name)
    (h : Stmt.Asserts kind args callLoc action.decl.body.statements) :
    ∃ t ∈ a.targets, t.Describes kind args callLoc := by
  cases hjob with
  | action hbound _ hformals hfill hbody =>
    have hfree := hfill.free (hhome.enter _ _) fun f hf hname => hparams (hname ▸ ?_)
    · obtain ⟨t, ht, hdescribes⟩ := hbody.asserts hkind h (hfree.enter _ _)
      exact ⟨t, mem_append_right _ (mem_append_left _ ht), hdescribes⟩
    · rw [← bindArguments_params hbound, ← hformals.params]
      exact mem_map_of_mem (mem_map_of_mem hf)

end Elaborate

/-! ### Graphs -/

/-- An assertion of a control has an error location in the graph. -/
def FlowGraph.Reports (g : FlowGraph) (kind : AssertionKind) (args : List Argument)
    (callLoc : Option Location) : Prop :=
  ∃ t ∈ g.targets ++ g.deadTargets, t.Describes kind args callLoc

variable {d : ControlDecl} {calls : Option CallGraph}

theorem FlowGraph.reports_ofControl
    (hmade : (Build.ofControl p.globals.scope calls d).layout.Makes t)
    (ht : t.Describes kind args callLoc) :
    (ofControl p.globals.scope calls d).1.Reports kind args callLoc := by
  obtain ⟨i, hi⟩ := hmade
  exact ⟨{ t with block := i }, mem_targets_prune hi, ht⟩

/-- The body of an action is inlined, called or not, unless another body has its label. -/
theorem Program.inlined_of_action (hd : d ∈ p.controls)
    (h : (FlowGraph.ofControl p.globals.scope calls d).2 = [])
    (haction : .action action ∈ d.locals) : ∃ g,
      Inlined p (Build.ofControl p.globals.scope calls d).layout.Makes g (d.label action.name) := by
  obtain ⟨a, helab, hgrows, hdetached⟩ := grows_ofControl hd h
  obtain ⟨x, hx, rfl, hof⟩ := helab.mem_pending hd haction
  rw [← hof.qualified]
  obtain hbody | ⟨_, _, g, -, -, -, hg⟩ := hdetached.inlined _ (hdetached.listed x hx)
  · obtain ⟨g, -, hg⟩ := (hgrows.inlined _ hbody).resolve_left nofun
    refine ⟨g, hg.mono fun t ht => ?_⟩
    exact ((a.makes_lay .initial).2 t ht).imp fun _ hi => hdetached.targets hi
  · exact ⟨g, hg⟩

/-- Every assertion of an accepted control or of its actions has an error location, if its name is
declared nowhere and no other body has the label of the action. -/
theorem FlowGraph.ofControl_asserts (hd : d ∈ p.controls)
    (h : (ofControl p.globals.scope calls d).2 = []) (hkind : kind ≠ .assume)
    (hglobal : p.globals.scope.lookup kind.text = none)
    (hlocal : kind.text ∉ d.params.map Parameter.name ++ d.locals.filterMap Local.name?) :
    (Stmt.Asserts kind args callLoc d.body.statements →
      (ofControl p.globals.scope calls d).1.Reports kind args callLoc) ∧
    ∀ a, .action a ∈ d.locals → kind.text ∉ a.params.map Parameter.name →
      (∀ c ∈ p.controls, c.name ≠ d.label a.name ∧ ∀ a', .action a' ∈ c.locals →
        c.label a'.name = d.label a.name → c = d ∧ a' = a) →
      Stmt.Asserts kind args callLoc a.body.statements →
      (ofControl p.globals.scope calls d).1.Reports kind args callLoc := by
  constructor
  · intro hasserts
    obtain ⟨a, ⟨hinputs, hlocals, hbody⟩, -, hdetached⟩ := grows_ofControl hd h
    have hhome : Scope.Home p d _ := hlocals.opens (opens_of_inputs hd hinputs)
    obtain ⟨t, ht, hdescribes⟩ :=
      hbody.asserts hkind hasserts ((hhome.free hglobal hlocal).enter _ _)
    refine reports_ofControl (((Plan.makes_lay _ _).2 t ?_).imp fun _ hi => hdetached.targets hi)
      hdescribes
    exact mem_append_right _ (mem_append_right _ ht)
  · intro a ha hparams hlabel hasserts
    obtain ⟨g, hg⟩ := Program.inlined_of_action hd h ha
    generalize hq : d.label a.name = q at hg
    cases hg with
    | control hc => exact absurd hq.symm (hlabel _ hc).1
    | action hof hjob hmade =>
      obtain ⟨rfl, rfl⟩ := (hlabel _ hof.home.control).2 _ hof.declared (hof.qualified.symm.trans hq.symm)
      obtain ⟨t, ht, hdescribes⟩ :=
        hjob.asserts_action hkind (hof.home.free hglobal hlocal) hparams hasserts
      exact reports_ofControl (hmade t ht) hdescribes

namespace Asserted

def bug : Stmt := .call (.var "bug" none) [] none none

def guarded : Stmt :=
  .branch (.bool true none)
    (.mk [.call (.var "assert" none) [.given (.bool false none) none none] none none] none) none none

def idle : ControlDecl := ⟨"C", [], [.action ⟨"a", [], .mk [guarded] none, none⟩], .mk [bug] none, none⟩

/-- A control of the name under which an action of another one would be inlined. -/
def dotted : ControlDecl := ⟨"C.a", [], [], .mk [] none, none⟩

def outer : ControlDecl :=
  ⟨"C", [], [.inst ⟨"C.a", "i", [], none⟩, .action ⟨"a", [], .mk [bug] none, none⟩],
    .mk [Applied.apply "i"] none, none⟩

end Asserted

open Asserted in
/-- An assertion in the body of a control, and one in an action that is never called. -/
theorem FlowGraph.ofControl_asserts_idle :
    let p : Program := ⟨[.control idle], ""⟩
    (ofControl p.globals.scope none idle).2 = [] ∧
    (ofControl p.globals.scope none idle).1.Reports .bug [] none ∧
    (ofControl p.globals.scope none idle).1.Reports .assert [.given (.bool false none) none none]
      none := by
  intro p
  have haccepted : (ofControl p.globals.scope none idle).2 = [] := isEmpty_iff.1 (by decide +kernel)
  have hbug : p.globals.scope.lookup "bug" = none := Option.isNone_iff_eq_none.1 (by decide +kernel)
  have hassert : p.globals.scope.lookup "assert" = none :=
    Option.isNone_iff_eq_none.1 (by decide +kernel)
  refine ⟨haccepted, (@ofControl_asserts _ .bug _ _ _ _ mem_cons_self haccepted (by decide) hbug
    (by decide)).1 .call, (@ofControl_asserts _ .assert _ _ _ _ mem_cons_self haccepted (by decide)
    hassert (by decide)).2 _ mem_cons_self (by decide) ?_ (.yes .call)⟩
  refine forall_mem_singleton.2 ⟨by decide, fun a' ha' _ => ⟨rfl, ?_⟩⟩
  cases mem_singleton.1 ha'
  rfl

open Asserted in
/-- An action is left out if a control has been inlined under its label. -/
theorem FlowGraph.not_forall_ofControl_asserts : ¬ ∀ (p : Program) (d : ControlDecl),
    d ∈ p.controls → p.globals.errors = [] → (ofControl p.globals.scope none d).2 = [] →
    p.globals.scope.lookup "bug" = none →
    "bug" ∉ d.params.map Parameter.name ++ d.locals.filterMap Local.name? →
    ∀ a, .action a ∈ d.locals → "bug" ∉ a.params.map Parameter.name →
      Stmt.Asserts .bug [] none a.body.statements →
      (ofControl p.globals.scope none d).1.Reports .bug [] none := by
  intro h
  have hnone : (let g := (ofControl (Program.globals ⟨[.control dotted, .control outer], ""⟩).scope
      none outer).1; g.targets ++ g.deadTargets) = [] := isEmpty_iff.1 (by decide +kernel)
  obtain ⟨t, ht, -⟩ := h ⟨[.control dotted, .control outer], ""⟩ outer
    (mem_cons_of_mem _ mem_cons_self) (isEmpty_iff.1 (by decide +kernel))
    (isEmpty_iff.1 (by decide +kernel)) (Option.isNone_iff_eq_none.1 (by decide +kernel))
    (by decide) _ (mem_cons_of_mem _ mem_cons_self) (by decide) .call
  rw [hnone] at ht
  cases ht

end ControlReach
