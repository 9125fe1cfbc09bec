import ControlReach.Proofs.EquivalentContexts
import ControlReach.Proofs.InstanceLinks
import ControlReach.Proofs.ShortestCycle
import ControlReach.Report.Analysis

/-!
# Rejected duplicates

A rejected declaration still counts in three places: calls of a control, links of an instance, and
the place of a recursive struct. If none of these changes, neither do the reports.
-/

namespace ControlReach

open List

/-! ### Judgements -/

variable {l : List Declaration}

namespace Declaration

theorem judged_append (before l m : List Declaration) :
    judged before (l ++ m) = judged before l ++ judged (before ++ l) m := by
  induction l generalizing before with
  | nil => rw [append_nil]; rfl
  | cons d l ih => rw [cons_append, judged, ih, judged, append_assoc]; rfl

theorem judged_congr (h : ∀ y, first? before y = first? before' y) (l : List Declaration) :
    judged before l = judged before' l := by
  induction l generalizing before before' with
  | nil => rfl
  | cons d l ih =>
    have hfault : fault? before d = fault? before' d := by
      simp only [fault?, h]
    have hfirst : ∀ y, first? (before ++ [d]) y = first? (before' ++ [d]) y := by
      intro y
      rw [first?_append, h, first?_append]
    rw [judged, judged, hfault, ih hfirst]

theorem exists_judged_iff :
    (∃ d, (d, none) ∈ judged before l ∧ d.declares? = some (x, kind)) ↔
      first? before x = none ∧ first? l x = some kind := by
  induction l generalizing before with
  | nil => simp [judged, first?]
  | cons d l ih =>
    have hcons : first? (d :: l) x = (first? [d] x).or (first? l x) := first?_append [d] l x
    simp only [judged, mem_cons, Prod.mk.injEq, or_and_right, exists_or, ih, hcons,
      first?_append before [d]]
    cases hd : d.declares? with
    | none =>
      have hskip : first? [d] x = none := by simp [first?, hd]
      simp [fault?, hd, hskip]
    | some name =>
      obtain ⟨y, k⟩ := name
      rw [first?_singleton hd]
      by_cases hy : x = y
      · subst hy
        cases hx : first? before x <;> simp [fault?, hd, hx]
      · have hother : ∀ d', d' = d → d'.declares? ≠ some (x, kind) := by
          rintro d' rfl h
          rw [hd] at h
          cases h
          exact hy rfl
        simp only [if_neg hy, Option.or_none, Option.none_or]
        refine ⟨fun h => h.elim ?_ id, .inr⟩
        rintro ⟨d', ⟨hd', -⟩, hx⟩
        exact absurd hx (hother d' hd')

/-- The rejection of an instance whose type is not declared in a list. -/
def typeFault? (l : List Declaration) : Declaration → Option Diagnostic
  | .inst d =>
    if (first? l d.typeName).isSome then none else some (.of (.undeclared d.typeName) d.loc)
  | _ => none

end Declaration

/-! ### Type names -/

theorem TypeTable.errors_foldl_rejectRecursive (place : String → Option Location) (l : List String)
    (t : TypeTable) : (l.foldl (rejectRecursive place) t).errors =
      t.errors ++ l.map fun x => .of (.recursiveStruct x) (place x) := by
  induction l generalizing t with
  | nil => rw [foldl_nil, map_nil, append_nil]
  | cons x l ih => rw [foldl_cons, ih, map_cons, append_cons]; rfl

namespace Program

variable {p p' : Program}

theorem filledTable_congr (howned : p.owned = p'.owned) : p.filledTable = p'.filledTable := by
  simp only [filledTable, aliasTable, named, ownedStructs, ownedTypedefs, howned]

theorem errors_typeTable (p : Program) : p.typeTable.errors = p.filledTable.errors ++
    p.filledTable.recursiveStructs.map fun x => .of (.recursiveStruct x) (p.structPlace x) := by
  obtain ⟨invalid, h⟩ := TypeTable.exists_spread p.ownedStructs.length p.acyclicTable
  rw [typeTable_eq, h, ← TypeTable.errors_foldl_rejectRecursive]
  rfl

/-- Each struct that contains itself is rejected where its name is declared last. -/
theorem mem_errors_of_recursive (hx : x ∈ p.filledTable.recursiveStructs) :
    .of (.recursiveStruct x) (p.structPlace x) ∈ p.globals.errors := by
  have htable : .of (.recursiveStruct x) (p.structPlace x) ∈ p.typeTable.errors := by
    rw [errors_typeTable]
    exact mem_append_right _ (mem_map.2 ⟨x, hx, rfl⟩)
  rw [globals]
  exact (GlobalScope.prefix_errors_foldl _ _).subset (mem_append_right _ htable)

theorem typeTable_congr (howned : p.owned = p'.owned)
    (hplace : ∀ x ∈ p'.filledTable.recursiveStructs, p.structPlace x = p'.structPlace x) :
    p.typeTable = p'.typeTable := by
  rw [typeTable_eq, typeTable_eq, acyclicTable, acyclicTable, filledTable_congr howned,
    foldl_ext _ _ _ fun t x hx => by rw [TypeTable.rejectRecursive, hplace x hx], ownedStructs,
    howned, ← ownedStructs]
  rfl

end Program

/-! ### Rejections -/

namespace GlobalScope

def after (errors : List Diagnostic) (g : GlobalScope) : GlobalScope :=
  { g with errors := errors ++ g.errors }

theorem scope_after (errors : List Diagnostic) (g : GlobalScope) :
    (g.after errors).scope = g.scope := rfl

theorem addBare_after (errors : List Diagnostic) (g : GlobalScope)
    (q : Declaration × Option Diagnostic) :
    (g.after errors).addBare q = (g.addBare q).after errors := by
  obtain ⟨d, why⟩ := q
  have hrecord : ∀ why, (g.after errors).record why = (g.record why).after errors := by
    intro why
    rw [record, after, append_assoc]
    rfl
  cases d with
  | constant d =>
    cases why with
    | some why => rfl
    | none =>
      rw [addBare, addBare, addConstant, addConstant, scope_after]
      cases constantValue g.scope d with
      | error why => exact hrecord why
      | ok known => rfl
  | inst d =>
    rw [addBare, addBare, scope_after]
    cases g.scope.inner.lookup d.typeName with
    | none => exact hrecord _
    | some b => rfl
  | _ => rfl

theorem foldl_addBare (l : List (Declaration × Option Diagnostic)) (s : Scope)
    (errors : List Diagnostic) : l.foldl addBare ⟨s, errors⟩ =
      ⟨(l.foldl addBare ⟨s, []⟩).scope, errors ++ (l.foldl addBare ⟨s, []⟩).errors⟩ := by
  have hafter : (⟨s, errors⟩ : GlobalScope) = after errors ⟨s, []⟩ := by
    rw [after, append_nil]
  rw [hafter, foldl_hom _ (addBare_after errors)]
  rfl

/-- The names of a scope are those declared in a list. -/
def Names (l : List Declaration) (s : Scope) : Prop :=
  ∀ y, (s.inner.lookup y).isSome = (Declaration.first? l y).isSome

theorem Names.addBare {g : GlobalScope} (h : Names l g.scope)
    (q : Declaration × Option Diagnostic) : Names l (g.addBare q).scope := by
  intro y
  rw [← h y]
  unfold GlobalScope.addBare
  split
  · unfold addConstant
    split
    · rw [update, lookup_update]
      split
      · rename_i hy
        rw [Option.isSome_map, hy]
      · rfl
    · rfl
  · split <;> rfl
  · rfl

theorem Names.foldl_addBare {g : GlobalScope} (h : Names l g.scope)
    (qs : List (Declaration × Option Diagnostic)) :
    Names l (qs.foldl GlobalScope.addBare g).scope :=
  List.foldlRecOn (motive := fun g : GlobalScope => Names l g.scope) _ _ h
    fun _ hg q _ => hg.addBare q

theorem Names.addBare_rejected (h : Names l s) (errors : List Diagnostic) (d : Declaration)
    (why : Diagnostic) :
    GlobalScope.addBare ⟨s, errors⟩ (d, some why) = ⟨s, errors ++ (d.typeFault? l).toList⟩ := by
  cases d with
  | inst d =>
    have htype := h d.typeName
    rw [GlobalScope.addBare, Declaration.typeFault?, ← htype]
    cases s.inner.lookup d.typeName with
    | none => rfl
    | some b => exact congrArg (GlobalScope.mk s) (append_nil errors).symm
  | _ => exact congrArg (GlobalScope.mk s) (append_nil errors).symm

theorem Names.foldl_addBare_rejected (h : Names l s)
    (qs qs' : List (Declaration × Option Diagnostic)) (d : Declaration) (why : Diagnostic) :
    ∃ s' e₁ e₂, ∀ errors, (qs ++ (d, some why) :: qs').foldl GlobalScope.addBare ⟨s, errors⟩ =
        ⟨s', errors ++ e₁ ++ (d.typeFault? l).toList ++ e₂⟩ ∧
      (qs ++ qs').foldl GlobalScope.addBare ⟨s, errors⟩ = ⟨s', errors ++ e₁ ++ e₂⟩ := by
  let g := qs.foldl GlobalScope.addBare ⟨s, []⟩
  let g' := qs'.foldl GlobalScope.addBare ⟨g.scope, []⟩
  have hg : Names l g.scope := h.foldl_addBare (g := ⟨s, []⟩) qs
  refine ⟨g'.scope, g.errors, g'.errors, fun errors => ⟨?_, ?_⟩⟩
  · rw [foldl_append, GlobalScope.foldl_addBare qs, foldl_cons, hg.addBare_rejected,
      GlobalScope.foldl_addBare qs']
  · rw [foldl_append, GlobalScope.foldl_addBare qs, GlobalScope.foldl_addBare qs']

end GlobalScope

/-! ### A program without a declaration -/

namespace Program

open Declaration

variable {p p' : Program} {before after : List Declaration} {d : Declaration} {x : String}
  {kind previous : BindingKind}

theorem ownership_duplicate (hp : p.declarations = before ++ d :: after)
    (hd : d.declares? = some (x, kind)) (hx : first? before x = some previous) :
    p.ownership = judged [] before ++
      (d, some (.of (.declaredTwice x previous) d.loc)) :: judged before after := by
  have hfault : fault? before d = some (.of (.declaredTwice x previous) d.loc) := by
    simp only [fault?, hd, hx, Option.map_some]
  -- The later declarations see the name declared already, so they do not see `d`.
  have hfirst : ∀ y, first? (before ++ [d]) y = first? before y := by
    intro y
    rw [first?_append, first?_singleton hd]
    by_cases hy : y = x
    · rw [hy, hx, Option.some_or]
    · rw [if_neg hy, Option.or_none]
  rw [ownership_eq, hp, judged_append, nil_append, judged, hfault, judged_congr hfirst]

theorem ownership_rest (hp' : p'.declarations = before ++ after) :
    p'.ownership = judged [] before ++ judged before after := by
  rw [ownership_eq, hp', judged_append, nil_append]

theorem kind_lookup_declared (p : Program) (y : String) :
    (p.declared.scope.inner.lookup y).map Binding.kind = first? p.declarations y := by
  ext kind
  have howned : (∃ d ∈ p.owned, d.declares? = some (y, kind)) ↔
      first? p.declarations y = some kind := by
    simp only [mem_owned, ownership_eq, exists_judged_iff]
    exact and_iff_right rfl
  rw [Option.map_eq_some_iff, ← howned]
  constructor
  · rintro ⟨b, hb, rfl⟩
    obtain ⟨d, hd, hbind⟩ := mem_filterMap.1 (Assoc.mem_of_lookup hb)
    refine ⟨d, hd, ?_⟩
    cases d <;> cases hbind <;> rfl
  · rintro ⟨d, hd, hname⟩
    obtain ⟨b, hbind, hkind⟩ : ∃ b, GlobalScope.bindingOf p.typeTable p.typeTable.structTypes d =
        some (y, b) ∧ b.kind = kind := by
      cases d <;> cases hname <;> exact ⟨_, rfl, rfl⟩
    exact ⟨b, lookup_declared hd hbind, hkind⟩

theorem names_declared (p : Program) : GlobalScope.Names p.declarations p.declared.scope := by
  intro y
  rw [← p.kind_lookup_declared, Option.isSome_map]

variable (hp : p.declarations = before ++ d :: after) (hp' : p'.declarations = before ++ after)

include hp hp'

theorem owned_rest (hd : d.declares? = some (x, kind))
    (hx : first? before x = some previous) : p.owned = p'.owned := by
  rw [owned, owned, ownership_duplicate hp hd hx, ownership_rest hp', filterMap_append,
    filterMap_append, filterMap_cons_none rfl]

theorem structPlace_rest (hy : ∀ s, d = .struct s → s.name ≠ y) :
    p.structPlace y = p'.structPlace y := by
  rw [structPlace, structPlace, hp, hp', filterMap_append, filterMap_append, filterMap_cons_none]
  cases d with
  | struct s => exact if_neg (hy s rfl)
  | _ => rfl

theorem linked?_rest (howned : p.owned = p'.owned) (hy : ∀ i, d = .inst i → i.name ≠ y) :
    p.linked? y = p'.linked? y := by
  have hlink : p.linkOf? y = p'.linkOf? y := by
    funext d
    simp only [linkOf?, ownedControls, howned]
  rw [linked?, linked?, hlink, hp, hp', filterMap_append, filterMap_append, filterMap_cons_none]
  cases d with
  | inst i => exact if_neg (hy i rfl)
  | _ => rfl

theorem callGraph_rest (hd : ∀ c, d ≠ .control c) : p.callGraph = p'.callGraph := by
  have hcontrols : p.controls = p'.controls := by
    rw [controls, controls, hp, hp', filterMap_append, filterMap_append, filterMap_cons_none]
    cases d with
    | control c => exact absurd rfl (hd c)
    | _ => rfl
  rw [callGraph, hcontrols, ← callGraph]

variable (hd : d.declares? = some (x, kind)) (hx : first? before x = some previous)

include hd hx

theorem bare_linked_rest
    (hlinks : ∀ i, d = .inst i → previous = .inst → p.linked? x = p'.linked? x) :
    p.bare.linked p.linked? = p.bare.linked p'.linked? := by
  have howned := owned_rest hp hp' hd hx
  refine GlobalScope.linked_congr fun y c hy => ?_
  -- If `d` links `y`, then `y` is its name, and what owns the name is an instance too.
  by_cases hlink : ∃ i, d = .inst i ∧ i.name = y
  · obtain ⟨i, rfl, rfl⟩ := hlink
    cases hd
    obtain ⟨c', hc'⟩ := lookup_declared_inst hy
    have hfirst := p.kind_lookup_declared i.name
    rw [hc', hp, first?_append, hx, Option.some_or] at hfirst
    cases hfirst
    exact hlinks i rfl rfl
  · exact linked?_rest hp hp' howned fun i hi hname => hlink ⟨i, hi, hname⟩

/-- The constants are the same, and the rejections but for those of the declaration. -/
theorem bare_rest (htable : p.typeTable = p'.typeTable) :
    ∃ e₁ e₂ e₃, p'.bare.errors = e₁ ++ e₂ ++ e₃ ∧
      p.bare = ⟨p'.bare.scope, e₁ ++ .of (.declaredTwice x previous) d.loc ::
        (e₂ ++ (d.typeFault? p'.declarations).toList ++ e₃)⟩ := by
  have hdeclared : p.declared = ⟨p'.declared.scope, (judged [] before).filterMap Prod.snd ++
      .of (.declaredTwice x previous) d.loc :: ((judged before after).filterMap Prod.snd ++
        p'.typeTable.errors)⟩ := by
    rw [declared, declared, htable, owned_rest hp hp' hd hx, ownership_duplicate hp hd hx,
      filterMap_append, append_assoc]
    rfl
  have hdeclared' : p'.declared = ⟨p'.declared.scope, (judged [] before).filterMap Prod.snd ++
      ((judged before after).filterMap Prod.snd ++ p'.typeTable.errors)⟩ := by
    rw [declared, ownership_rest hp', filterMap_append, append_assoc]
  obtain ⟨s, e₁, e₂, hfold⟩ := p'.names_declared.foldl_addBare_rejected (judged [] before)
    (judged before after) d (.of (.declaredTwice x previous) d.loc)
  have hbare := (hfold p.declared.errors).1
  have hbare' := (hfold p'.declared.errors).2
  have hstart : p.declared = ⟨p'.declared.scope, p.declared.errors⟩ := by rw [hdeclared]
  rw [← hstart, ← ownership_duplicate hp hd hx, ← bare] at hbare
  rw [← ownership_rest hp', ← bare] at hbare'
  refine ⟨(judged [] before).filterMap Prod.snd,
    (judged before after).filterMap Prod.snd ++ p'.typeTable.errors ++ e₁, e₂, ?_, ?_⟩
  · rw [hbare', hdeclared']
    simp only [append_assoc]
  · rw [hbare, hbare', hdeclared]
    simp only [append_assoc, cons_append]

theorem globals_rest (htable : p.typeTable = p'.typeTable)
    (hlinks : ∀ i, d = .inst i → previous = .inst → p.linked? x = p'.linked? x) :
    ∃ e₁ e₂ e₃, p'.globals.errors = e₁ ++ e₂ ++ e₃ ∧
      p.globals = ⟨p'.globals.scope, e₁ ++ .of (.declaredTwice x previous) d.loc ::
        (e₂ ++ (d.typeFault? p'.declarations).toList ++ e₃)⟩ := by
  obtain ⟨e₁, e₂, e₃, herrors, hbare⟩ := bare_rest hp hp' hd hx htable
  refine ⟨e₁, e₂, e₃, ?_, ?_⟩
  · rw [globals_eq]
    exact herrors
  · rw [globals_eq, bare_linked_rest hp hp' hd hx hlinks, hbare, globals_eq]
    rfl

end Program

/-! ### Reports -/

/-- A graph depends on which functions are recursive, and on their cycles. -/
theorem FlowGraph.ofControl_congr {g g' : CallGraph} (s : Scope) (c : ControlDecl)
    (hrecursive : ∀ f, f ∈ g.recursive ↔ f ∈ g'.recursive)
    (hcycle : ∀ f, g.cycleThrough f = g'.cycleThrough f) :
    ofControl s (some g) c = ofControl s (some g') c := by
  have hctx : Context.initial (some g) c =
      (Context.initial (some g') c).listing g.recursive := by
    rw [Context.initial, funext hcycle]
    rfl
  have hlists : (Context.initial (some g') c).Lists g.recursive := hrecursive
  rw [ofControl, hctx, Elaborate.control_listing hlists, ← ofControl]

namespace Program

open Declaration

variable {p p' : Program} {before after : List Declaration} {d : Declaration} {x : String}
  {kind previous : BindingKind}

theorem ofControl_of_cycleThrough
    (hcycles : ∀ f, p.callGraph.cycleThrough f = p'.callGraph.cycleThrough f) (s : Scope)
    (c : ControlDecl) :
    FlowGraph.ofControl s (some p.callGraph) c = FlowGraph.ofControl s (some p'.callGraph) c := by
  refine FlowGraph.ofControl_congr s c (fun f => ?_) hcycles
  rw [← cycleThrough_ne_nil_iff, hcycles f, cycleThrough_ne_nil_iff]

theorem analyze_of_builtControls (hbuilt : p.builtControls = p'.builtControls)
    (hsource : p.source = p'.source) (settings : AnalysisSettings) (token : Token)
    (blanks : BlankLimits) : p.analyze settings token blanks =
      (p'.analyze settings token blanks).map fun r => { r with errors := p.globals.errors } := by
  rw [analyze, analyze, hbuilt, hsource]
  dsimp only
  split
  · rfl
  · split <;> rfl

/-- A rejected declaration changes only rejections, unless it changes cycles of calls, the link of
an instance, or the place of a rejected struct. -/
theorem analyze_duplicate (hp : p.declarations = before ++ d :: after)
    (hp' : p'.declarations = before ++ after) (hsource : p.source = p'.source)
    (hd : d.declares? = some (x, kind)) (hx : first? before x = some previous)
    (hcycles : ∀ c, d = .control c →
      ∀ f, p.callGraph.cycleThrough f = p'.callGraph.cycleThrough f)
    (hlinks : ∀ i, d = .inst i → previous = .inst → p.linked? x = p'.linked? x)
    (hplaces : ∀ s, d = .struct s → ∀ loc, .of (.recursiveStruct x) loc ∈ p'.globals.errors →
      p.structPlace x = loc) :
    (∀ settings token blanks, p.analyze settings token blanks =
      (p'.analyze settings token blanks).map fun r => { r with errors := p.globals.errors }) ∧
    ∃ e₁ e₂ e₃, p'.globals.errors = e₁ ++ e₂ ++ e₃ ∧
      p.globals.errors = e₁ ++ .of (.declaredTwice x previous) d.loc ::
        (e₂ ++ (d.typeFault? p'.declarations).toList ++ e₃) := by
  have howned := owned_rest hp hp' hd hx
  have htable : p.typeTable = p'.typeTable := by
    refine typeTable_congr howned fun y hy => ?_
    -- The place of `y` can only change if `d` is a struct of that name.
    by_cases hstruct : ∃ s, d = .struct s ∧ s.name = y
    · obtain ⟨s, rfl, rfl⟩ := hstruct
      cases hd
      exact hplaces s rfl _ (mem_errors_of_recursive hy)
    · exact structPlace_rest hp hp' fun s hs hname => hstruct ⟨s, hs, hname⟩
  obtain ⟨e₁, e₂, e₃, herrors, hglobals⟩ := globals_rest hp hp' hd hx htable hlinks
  have hcalls : ∀ f, p.callGraph.cycleThrough f = p'.callGraph.cycleThrough f := by
    by_cases hcontrol : ∃ c, d = .control c
    · obtain ⟨c, hc⟩ := hcontrol
      exact hcycles c hc
    · rw [callGraph_rest hp hp' fun c hc => hcontrol ⟨c, hc⟩]
      exact fun _ => rfl
  have hbuilt : p.builtControls = p'.builtControls := by
    simp only [builtControls, ownedControls, howned, hglobals, ofControl_of_cycleThrough hcalls]
  refine ⟨analyze_of_builtControls hbuilt hsource, e₁, e₂, e₃, herrors, ?_⟩
  rw [hglobals]

end Program

namespace Relink

def control (x : String) (body : List Stmt) : Declaration :=
  .control ⟨x, [], [], .mk body none, none⟩

/-- An instance of a control, always of the same name. -/
def again (type : String) : Declaration := .inst ⟨type, "i", [], none⟩

/-- A control that does nothing, one with an error location, and an instance of the first. -/
def before : List Declaration :=
  [control "A" [], control "B" [.call (.var "bug" none) [] none none], again "A"]

def applying : Declaration :=
  control "C" [.call (.field (.var "i" none) "apply" none) [] none none]

variable (after : List Declaration)

def single : Program := ⟨before ++ after, ""⟩

/-- The program in which the name is declared again, as an instance of the other control. -/
def double : Program := ⟨before ++ again "B" :: after, ""⟩

theorem declarations_double :
    (double after).declarations = before ++ again "B" :: after := rfl

theorem declarations_single :
    (single after).declarations = before ++ after := rfl

def counts (p : Program) : Option (List Nat) :=
  (p.analyze {} .never).toOption.map fun r => r.controls.map fun c => c.results.length

theorem counts_eq {p : Program} {l : List Nat} (h : counts p = some l) :
    ∃ r, p.analyze {} .never = .ok r ∧ r.controls.map (fun c => c.results.length) = l := by
  unfold counts at h
  cases hr : p.analyze {} .never with
  | error fault => rw [hr] at h; cases h
  | ok r => rw [hr] at h; exact ⟨r, rfl, Option.some.inj h⟩

end Relink

/-- A second instance makes no difference if a third links the name as the first does. -/
theorem Program.analyze_duplicate_third :
    Declaration.first? Relink.before "i" = some .inst ∧
    (Relink.double [Relink.again "A", Relink.applying]).linked? "i" =
      (Relink.single [Relink.again "A", Relink.applying]).linked? "i" ∧
    ∀ settings token blanks,
      (Relink.double [Relink.again "A", Relink.applying]).analyze settings token blanks =
        ((Relink.single [Relink.again "A", Relink.applying]).analyze settings token blanks).map
          fun r => { r with
            errors := (Relink.double [Relink.again "A", Relink.applying]).globals.errors } := by
  have hfirst : Declaration.first? Relink.before "i" = some .inst := rfl
  have hlink : (Relink.double [Relink.again "A", Relink.applying]).linked? "i" =
      (Relink.single [Relink.again "A", Relink.applying]).linked? "i" := rfl
  refine ⟨hfirst, hlink, fun settings token blanks => ?_⟩
  have hsame := analyze_duplicate (Relink.declarations_double _) (Relink.declarations_single _) rfl
    rfl hfirst (fun _ h => nomatch h) (fun _ _ _ => hlink) (fun _ h => nomatch h)
  exact hsame.1 settings token blanks

/-- A duplicate can change the report on a control: it links an instance again. -/
theorem Program.not_forall_analyze_duplicate : ¬ ∀ (p p' : Program)
    (before after : List Declaration) (d : Declaration) (x : String) (kind previous : BindingKind),
    p.declarations = before ++ d :: after → p'.declarations = before ++ after →
    p.source = p'.source → d.declares? = some (x, kind) →
    Declaration.first? before x = some previous → ∀ settings token r r',
      p.analyze settings token = .ok r → p'.analyze settings token = .ok r' →
        r.controls = r'.controls := by
  intro h
  obtain ⟨r, hr, hcounts⟩ := Relink.counts_eq (p := Relink.double [Relink.applying])
    (l := [0, 1, 1]) (by decide +kernel)
  obtain ⟨r', hr', hcounts'⟩ := Relink.counts_eq (p := Relink.single [Relink.applying])
    (l := [0, 1, 0]) (by decide +kernel)
  have hsame := h _ _ _ _ _ _ _ _ (Relink.declarations_double _) (Relink.declarations_single _) rfl
    rfl (show Declaration.first? Relink.before "i" = some .inst from rfl) {} .never r r' hr hr'
  rw [hsame, hcounts'] at hcounts
  cases hcounts

end ControlReach
