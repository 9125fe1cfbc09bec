import ControlReach.Proofs.Translation

/-!
# The top-level names

In the global scope of a program names stand for what they stand for in executions. Each name is
owned by one declaration, so a constant is settled once.
-/

namespace ControlReach

open List Declaration

/-! ### The global scope -/

namespace GlobalScope

variable {g : GlobalScope} {f : List (String × Meaning Nat (Heap → Option Datum))}

def Pending (g : GlobalScope) (rest : List (Declaration × Option Diagnostic)) : Prop :=
  ∀ d, (constant d, none) ∈ rest →
    ∀ q ∈ g.scope.inner.symbols, q.1 = d.name → q.2 = .constant none

theorem env_update (g : GlobalScope) (x : String) (b : Binding) :
    (g.update x b).scope.env = (updateName x b.meaning g.scope.inner.names) ::
      g.scope.outer.map Frame.names := by
  rw [Scope.env, Scope.frames, map_cons]
  congr 1
  simp only [update, Frame.update, Frame.names, updateName, map_map]
  refine map_congr_left fun p _ => ?_
  dsimp only [Function.comp_apply]
  split <;> rfl

variable {b : Binding}

theorem models_update (hs : g.scope.Models time [] [f]) (x : String)
    (hm : b.meaning.Rel (fun v k => ([] : List Nat)[k]? = some v.uid) (Stands time []) m) :
    (g.update x b).scope.Models time [] [updateName x m f] := by
  rw [Scope.Models, env_update]
  obtain ⟨hf, houter⟩ := forall₂_cons.1 hs
  refine .cons ?_ houter
  rw [updateName, updateName, forall₂_map_left_iff, forall₂_map_right_iff]
  refine hf.imp fun p q hpq => ?_
  rw [hpq.1]
  split
  · exact ⟨rfl, hm⟩
  · exact hpq

theorem Pending.update (h : g.Pending rest)
    (hx : ∀ d, (constant d, none) ∈ rest → d.name ≠ x) :
    (g.update x b).Pending rest := by
  intro d hd q hq hname
  obtain ⟨q', hq', rfl⟩ := mem_map.1 hq
  split at hname
  · exact absurd hname.symm (hx d hd)
  · rename_i hne
    rw [if_neg hne]
    exact h d hd q' hq' hname

section

variable (hs : g.scope.Models time [] [f])

include hs

theorem models_addConstant (hfits : g.scope.Fits structs [])
    (hpending : g.Pending ((.constant d, none) :: rest))
    (hdiffer : ∀ q ∈ rest, Declaration.Differ (.constant d, none) q) :
    (g.addConstant d).scope.Models time []
        [updateName d.name (.const fun _ => d.value.eval [f] []) f] ∧
      (g.addConstant d).Pending rest := by
  have hrest : g.Pending rest := fun d' hd' => hpending d' (mem_cons_of_mem _ hd')
  rw [addConstant]
  split
  · rename_i known hknown
    obtain ⟨ty, r⟩ := known
    obtain ⟨hty, hr⟩ := constantValue_eq_ok hknown
    have hclosed := hfits.lowerAs (hfits.resolveType hty) hr
    refine ⟨models_update hs d.name (.const ?_), hrest.update fun d' hd' heq => ?_⟩
    · rintro _ _ ⟨⟩
      have hsame : ∀ σ σ', r.value Selection.all σ = r.value Selection.all σ' := fun σ σ' =>
        hclosed.value_congr (by simp)
      refine ⟨fun us' n h σ _ _ => ?_, fun _ => hsame⟩
      exact (hs.lowerAs (Mirrors.nil 0 State.empty) hr).trans (hsame _ _)
    · exact hdiffer _ hd' rfl rfl (by rw [declares?, declares?, heq])
  · -- The name keeps a binding without a value, so nothing reads the constant.
    refine ⟨?_, hrest⟩
    obtain ⟨hf, houter⟩ := forall₂_cons.1 hs
    rw [Frame.names, forall₂_map_left_iff] at hf
    refine .cons ?_ houter
    rw [Frame.names, updateName, forall₂_map_left_iff, forall₂_map_right_iff]
    have hnone := hpending d mem_cons_self
    refine ((forall₂_and_left _ _).2 ⟨hnone, hf⟩).imp fun p q hpq => ?_
    obtain ⟨hp, hname, hrel⟩ := hpq
    split
    · rename_i hq
      rw [hname, hp (hname.trans hq)]
      refine ⟨hq, .const ?_⟩
      rintro _ _ ⟨⟩
    · exact ⟨hname, hrel⟩

theorem rel_lookup (x : String) :
    Option.Rel (Meaning.Rel (fun v k => ([] : List Nat)[k]? = some v.uid) (Stands time []))
      ((g.scope.inner.lookup x).map Binding.meaning) (f.lookup x) := by
  obtain ⟨hf, -⟩ := forall₂_cons.1 hs
  rw [← Scope.lookup_names]
  exact Assoc.rel_lookup hf x

theorem lookup_iff (x : String) :
    (∀ c, g.scope.inner.lookup x = some (.inst c) ↔ f.lookup x = some (.inst c)) ∧
      ∀ d, g.scope.inner.lookup x = some (.control d) ↔ f.lookup x = some (.control d) := by
  rcases rel_cases (rel_lookup hs x) with ⟨hb, hm⟩ | ⟨m, m', hb, hm, hrel⟩
  · rw [hm, Option.map_eq_none_iff.1 hb]
    simp
  · obtain ⟨b, hx, rfl⟩ := Option.map_eq_some_iff.1 hb
    rw [hx, hm]
    cases b <;> cases hrel <;> simp

theorem models_addInstance (hpending : g.Pending rest) :
    (g.addInstance d).scope.Models time [] [addMeaning f (.inst d, why)] ∧
      (g.addInstance d).Pending rest := by
  by_cases hboth : ∃ c control, g.scope.inner.lookup d.name = some (.inst c) ∧
      g.scope.inner.lookup d.typeName = some (.control control)
  · obtain ⟨c, control, hname, htype⟩ := hboth
    simp only [addInstance, addMeaning, hname, htype, ((lookup_iff hs _).1 _).1 hname,
      ((lookup_iff hs _).2 _).1 htype]
    refine ⟨models_update hs d.name .inst, hpending.update fun d' hd' heq => ?_⟩
    have := hpending d' hd' _ (Assoc.mem_of_lookup hname) heq.symm
    cases this
  · have hscope : (g.addInstance d).scope = g.scope := by
      rw [addInstance]
      split
      · exact absurd ⟨_, _, ‹_›, ‹_›⟩ hboth
      · rfl
      · rfl
    have hmeaning : addMeaning f (.inst d, why) = f := by
      simp only [addMeaning]
      split
      · exact absurd ⟨_, _, ((lookup_iff hs _).1 _).2 ‹_›, ((lookup_iff hs _).2 _).2 ‹_›⟩ hboth
      · rfl
    rw [hmeaning, Pending, hscope]
    exact ⟨hs, hpending⟩

theorem models_foldl (hfits : g.scope.Fits structs [])
    (hpending : g.Pending rest) (hdiffer : rest.Pairwise Declaration.Differ) :
    (rest.foldl add g).scope.Models time [] [rest.foldl addMeaning f] := by
  induction rest generalizing g f with
  | nil => exact hs
  | cons q rest ih =>
    obtain ⟨hq, hrest⟩ := pairwise_cons.1 hdiffer
    have hkept : g.Pending rest := fun d hd => hpending d (mem_cons_of_mem _ hd)
    have hstep : (g.add q).scope.Models time [] [addMeaning f q] ∧ (g.add q).Pending rest := by
      obtain ⟨d, why⟩ := q
      cases d with
      | constant d =>
        cases why with
        | none => exact models_addConstant hs hfits hpending hq
        | some _ => exact ⟨hs, hkept⟩
      | inst d => exact models_addInstance hs hkept
      | _ => exact ⟨hs, hkept⟩
    exact ih hstep.1 (fits_add hfits q) hstep.2 hrest

end

theorem declares?_of_bindingOf {t : TypeTable} {structs : List (String × Ty)} {d : Declaration}
    {q : String × Binding} (h : bindingOf t structs d = some q) :
    d.declares?.map Prod.fst = some q.1 := by
  cases d <;> cases h <;> rfl

theorem rel_bindingOf (t : TypeTable) (l : List Declaration) : Forall₂ (fun p q => p.1 = q.1 ∧
        Meaning.Rel (fun v k => ([] : List Nat)[k]? = some v.uid) (Stands time []) p.2.meaning q.2)
      (l.filterMap (bindingOf t t.structTypes)) (l.filterMap (meaning t)) := by
  induction l with
  | nil => exact .nil
  | cons d l ih =>
    cases d with
    | struct d | typedef d => exact .cons ⟨rfl, .type⟩ ih
    | control d => exact .cons ⟨rfl, .control⟩ ih
    | constant d => exact .cons ⟨rfl, .const (by rintro _ _ ⟨⟩)⟩ ih
    | inst d => exact .cons ⟨rfl, .inst⟩ ih
    | other _ _ => exact ih

end GlobalScope

/-- In the global scope names stand for what they stand for in executions. -/
theorem Program.models_globals (p : Program) (time : BindingTime) :
    p.globals.scope.Models time [] p.environment := by
  obtain ⟨hdiffer, howned⟩ := pairwise_ownership [] p.declarations
  have hfits : ∀ g : GlobalScope, g.scope.outer = [] → g.scope.inner.symbols =
      p.owned.filterMap (GlobalScope.bindingOf p.typeTable p.typeTable.structTypes) →
      g.scope.Fits p.typeTable.structTy [] := by
    intro g houter hsymbols f hf
    rw [Scope.frames, houter] at hf
    obtain rfl := mem_singleton.1 hf
    rw [hsymbols]
    exact p.fits_symbols
  refine GlobalScope.models_foldl ?_ (hfits _ rfl rfl) ?_ hdiffer
  · refine .cons ?_ .nil
    rw [Frame.names, forall₂_map_left_iff]
    exact GlobalScope.rel_bindingOf p.typeTable p.owned
  · -- A name is declared once, so what a constant's name stands for is the constant.
    intro d hd q hq hname
    obtain ⟨d', hd', hbinding⟩ := mem_filterMap.1 hq
    have heq : (d', none) = (constant d, (none : Option Diagnostic)) := by
      by_contra hne
      refine hdiffer.forall (Program.mem_owned.1 hd') hd hne rfl rfl ?_
      exact (GlobalScope.declares?_of_bindingOf hbinding).trans (congrArg some hname)
    cases heq
    cases hbinding
    rfl

end ControlReach
