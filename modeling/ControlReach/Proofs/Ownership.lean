import ControlReach.Proofs.GlobalEnvironment

/-!
# Owned names

A declaration owns its name if no declaration before it has the name. What is seen of the earlier
declarations while names are collected is, for each name, what it is declared as first.
-/

namespace ControlReach

open List Declaration

namespace Declaration

theorem control?_eq_some {d : Declaration} : d.control? = some c ↔ d = .control c := by
  cases d <;> simp [control?]

def first? (l : List Declaration) (x : String) : Option BindingKind :=
  (l.filterMap declares?).lookup x

theorem first?_append (l m : List Declaration) (x : String) :
    first? (l ++ m) x = (first? l x).or (first? m x) := by
  rw [first?, filterMap_append, lookup_append]
  rfl

theorem first?_singleton {d : Declaration} (hd : d.declares? = some (x, kind)) (y : String) :
    first? [d] y = if y = x then some kind else none := by
  rw [first?, filterMap_cons_some hd, filterMap_nil, lookup_cons]
  by_cases hy : y = x
  · rw [if_pos hy, hy, beq_self_eq_true]
  · rw [if_neg hy, beq_false_of_ne hy, lookup_nil]

def fault? (before : List Declaration) (d : Declaration) : Option Diagnostic :=
  match d.declares? with
  | none => some (.of (.unknownTopLevel d.otherName) d.loc)
  | some (x, _) => (first? before x).map fun previous => .of (.declaredTwice x previous) d.loc

def judged (before : List Declaration) : List Declaration → List (Declaration × Option Diagnostic)
  | [] => []
  | d :: rest => (d, fault? before d) :: judged (before ++ [d]) rest

theorem ownership_eq_judged (seen : List (String × BindingKind)) (before l : List Declaration)
    (h : ∀ x, seen.lookup x = first? before x) : ownership seen l = judged before l := by
  induction l generalizing seen before with
  | nil => rfl
  | cons d l ih =>
    rw [ownership, judged, fault?]
    cases hd : d.declares? with
    | none =>
      have hskip : first? [d] = fun _ => none := by
        funext x
        simp [first?, hd]
      dsimp only
      rw [ih seen (before ++ [d]) fun x => by rw [first?_append, hskip, Option.or_none, h]]
    | some name =>
      obtain ⟨x, kind⟩ := name
      dsimp only
      rw [h x]
      cases hx : first? before x with
      | some previous =>
        refine congrArg _ (ih seen (before ++ [d]) fun y => ?_)
        rw [first?_append, first?_singleton hd, h]
        by_cases hy : y = x
        · rw [hy, hx, Option.some_or]
        · rw [if_neg hy, Option.or_none]
      | none =>
        refine congrArg _ (ih ((x, kind) :: seen) (before ++ [d]) fun y => ?_)
        rw [first?_append, first?_singleton hd, lookup_cons, h]
        by_cases hy : y = x
        · rw [hy, hx, if_pos rfl, beq_self_eq_true, Option.none_or]
        · rw [if_neg hy, Option.or_none, beq_false_of_ne hy]

theorem map_fst_judged (before l : List Declaration) : (judged before l).map Prod.fst = l := by
  induction l generalizing before with
  | nil => rfl
  | cons d l ih => rw [judged, map_cons, ih]

def controls (before : List Declaration) :
    List Declaration → List (ControlDecl × Option BindingKind)
  | [] => []
  | d :: rest =>
    (d.control?.map fun c => (c, first? before c.name)).toList ++ controls (before ++ [d]) rest

theorem controls_judged (before l : List Declaration) :
    (judged before l).filterMap (fun q => q.1.control?.map fun c => (c, q.2)) =
      (controls before l).map fun q => (q.1, q.2.map fun previous =>
        Diagnostic.of (.declaredTwice q.1.name previous) q.1.loc) := by
  induction l generalizing before with
  | nil => rfl
  | cons d l ih =>
    rw [judged, controls, map_append, ← ih]
    cases d with
    | control c | _ => rfl

end Declaration

namespace Program

variable (p : Program)

theorem ownership_eq : p.ownership = judged [] p.declarations :=
  ownership_eq_judged [] [] p.declarations fun _ => rfl

def owners : List ControlDecl :=
  (Declaration.controls [] p.declarations).filterMap fun q =>
    if q.2.isNone then some q.1 else none

def repeated : List (ControlDecl × BindingKind) :=
  (Declaration.controls [] p.declarations).filterMap fun q => q.2.map fun kind => (q.1, kind)

theorem ownedControls_eq : p.ownedControls = p.owners := by
  have h := congrArg (List.filterMap fun q : ControlDecl × Option Diagnostic =>
    if q.2.isNone then some q.1 else none) (Declaration.controls_judged [] p.declarations)
  rw [← p.ownership_eq, filterMap_filterMap, filterMap_map] at h
  rw [ownedControls, owned, filterMap_filterMap]
  refine (filterMap_congr fun q _ => ?_).trans (h.trans (filterMap_congr fun q _ => ?_))
  · obtain ⟨d, why⟩ := q
    cases why <;> cases d <;> rfl
  · obtain ⟨c, kind⟩ := q
    cases kind <;> rfl

theorem nodup_ownedControls : (p.ownedControls.map ControlDecl.name).Nodup := by
  obtain ⟨hdiffer, -⟩ := pairwise_ownership [] p.declarations
  rw [Nodup, pairwise_map, ownedControls, owned, filterMap_filterMap, pairwise_filterMap]
  refine hdiffer.imp fun {q q'} h c hc c' hc' heq => ?_
  obtain ⟨d, _ | why⟩ := q
  · obtain ⟨d', _ | why'⟩ := q'
    · obtain rfl := control?_eq_some.1 hc
      obtain rfl := control?_eq_some.1 hc'
      exact h rfl rfl (by rw [declares?, declares?, heq])
    · cases hc'
  · cases hc

end Program

namespace GlobalScope

theorem prefix_errors_add (g : GlobalScope) (q : Declaration × Option Diagnostic) :
    g.errors <+: (g.add q).errors := by
  unfold add
  split
  · unfold addConstant
    split
    · exact prefix_refl _
    · exact prefix_append _ _
  · unfold addInstance
    split
    · exact prefix_refl _
    · exact prefix_append _ _
    · exact prefix_refl _
  · exact prefix_refl _

theorem prefix_errors_foldl (l : List (Declaration × Option Diagnostic)) (g : GlobalScope) :
    g.errors <+: (l.foldl add g).errors :=
  foldlRecOn (motive := fun g' : GlobalScope => g.errors <+: g'.errors) l _ (prefix_refl _)
    fun g' h q _ => h.trans (g'.prefix_errors_add q)

end GlobalScope

theorem Program.prefix_errors (p : Program) :
    p.ownership.filterMap Prod.snd <+: p.globals.errors := by
  rw [globals]
  refine IsPrefix.trans ?_ (GlobalScope.prefix_errors_foldl _ _)
  exact prefix_append _ _

theorem Program.owned_eq {p : Program} (h : p.globals.errors = []) : p.owned = p.declarations := by
  have hnone : p.ownership.filterMap Prod.snd = [] :=
    prefix_nil.1 (h ▸ p.prefix_errors)
  have hmap : p.owned = p.ownership.map Prod.fst := by
    rw [owned, ← filterMap_eq_map]
    refine filterMap_congr fun q hq => ?_
    obtain ⟨d, why⟩ := q
    obtain rfl : why = none := filterMap_eq_nil_iff.1 hnone _ hq
    rfl
  rw [hmap, p.ownership_eq, map_fst_judged]

theorem Program.sublist_errors (p : Program) :
    (p.repeated.map fun q => Diagnostic.of (.declaredTwice q.1.name q.2) q.1.loc).Sublist
      p.globals.errors := by
  have hfound : (p.repeated.map fun q => Diagnostic.of (.declaredTwice q.1.name q.2) q.1.loc) =
      (p.ownership.filterMap fun q => q.1.control?.map fun c => (c, q.2)).filterMap Prod.snd := by
    rw [p.ownership_eq, Declaration.controls_judged, filterMap_map, repeated, map_filterMap]
    refine filterMap_congr fun q _ => ?_
    obtain ⟨c, kind⟩ := q
    cases kind <;> rfl
  have hall : ((p.ownership.filterMap fun q => q.1.control?.map fun c => (c, q.2)).filterMap
      Prod.snd).Sublist (p.ownership.filterMap Prod.snd) := by
    induction p.ownership with
    | nil => exact .slnil
    | cons q l ih =>
      obtain ⟨d, why⟩ := q
      cases hd : d.control? with
      | none =>
        rw [filterMap_cons_none (by rw [hd]; rfl)]
        exact ih.trans ((sublist_cons_self _ l).filterMap _)
      | some c =>
        rw [filterMap_cons_some (b := (c, why)) (by rw [hd]; rfl)]
        cases why with
        | none => exact ih
        | some e => exact ih.cons_cons e
  rw [hfound]
  exact hall.trans p.prefix_errors.sublist

end ControlReach
