import ControlReach.Proofs.Identifiers
import ControlReach.Proofs.TypePasses

/-!
# The names of a global scope

If the identifiers of a program are well-formed, all that its global scope names is made of
identifiers.
-/

namespace ControlReach

open List

variable [Letters]

/-! ### Type names -/

theorem Ty.namedFields_iff {fields : List (String × Ty)} :
    NamedFields fields ↔ ∀ f ∈ fields, IsIdentifier f.1 ∧ f.2.Named := by
  induction fields with
  | nil => simp [NamedFields]
  | cons f rest ih => simp [NamedFields, ih, and_assoc]

namespace TypeTable

theorem named_toTy {structs : List (String × Ty)} (h : ∀ s ∈ structs, s.2.Named) (n : TypeName) :
    (n.toTy structs).Named := by
  cases n with
  | bool | string => trivial
  | struct x =>
    show ((structs.lookup x).getD (.struct (some x) [])).Named
    cases hx : structs.lookup x with
    | none => trivial
    | some ty => exact h _ (Assoc.mem_of_lookup hx)

theorem named_unfolded {t : TypeTable} (h : ∀ s ∈ t.structs, ∀ f ∈ s.2, IsIdentifier f.1)
    (n : Nat) : ∀ s ∈ t.unfolded n, s.2.Named := by
  induction n with
  | zero =>
    intro s hs
    obtain ⟨s', -, rfl⟩ := mem_map.1 hs
    trivial
  | succ n ih =>
    intro s hs
    obtain ⟨s', hs', rfl⟩ := mem_map.1 hs
    refine Ty.namedFields_iff.2 fun f hf => ?_
    obtain ⟨f', hf', rfl⟩ := mem_map.1 hf
    exact ⟨h s' hs' f' hf', named_toTy ih _⟩

end TypeTable

/-! ### Programs -/

namespace Program

variable {p : Program}

variable (hp : Identifiers p.names)

include hp

theorem identifiers_of_mem_ownership :
    ∀ q ∈ p.ownership, Identifiers q.1.names := fun _ hq =>
  identifiers_flatMap.1 hp _ (Declaration.mem_of_mem_ownership hq)

theorem identifiers_of_mem_owned : ∀ d ∈ p.owned, Identifiers d.names :=
  fun _ hd => identifiers_of_mem_ownership hp _ (mem_owned.1 hd)

theorem named_typeTable : ∀ s ∈ p.typeTable.structs, ∀ g ∈ s.2, IsIdentifier g.1 := by
  intro s hs g hg
  obtain ⟨d, hd, -, f, hf, hname, -⟩ := (p.elaborated_typeTable.fields s hs).2 g hg
  have hfields := (identifiers_cons.1 (identifiers_of_mem_owned hp _ hd)).2
  rw [hname]
  exact (identifiers_cons.1 (identifiers_flatMap.1 hfields f hf)).1

end Program

namespace GlobalScope

theorem named_bindingOf {t : TypeTable} (hstructs : ∀ s ∈ structs, s.2.Named) {d : Declaration}
    (hd : Identifiers d.names) {b : Binding} (h : bindingOf t structs d = some (x, b)) :
    IsIdentifier x ∧ b.Named := by
  cases d <;> cases h <;> refine ⟨hd _ (by simp [Declaration.names, Instantiation.names,
    ControlDecl.names, ConstantDecl.names]), ?_⟩
  · exact fun ty hty => hstructs _ (Assoc.mem_of_lookup hty)
  · intro ty hty
    obtain ⟨n, -, rfl⟩ := Option.map_eq_some_iff.1 hty
    exact TypeTable.named_toTy hstructs n
  · exact hd
  · rintro ty e ⟨⟩
  · rintro d ⟨⟩

def Named (g : GlobalScope) : Prop := g.scope.outer = [] ∧ g.scope.Named

variable {g : GlobalScope}

theorem Named.add (h : g.Named) {q : Declaration × Option Diagnostic} (hq : Identifiers q.1.names) :
    (g.add q).Named := by
  obtain ⟨houter, hscope⟩ := h
  have hframe : ∀ x b, ∀ f ∈ (g.update x b).scope.frames, IsIdentifier f.name := fun x b =>
    forall_mem_cons.2 (forall_mem_cons.1 hscope.frame)
  obtain heq | ⟨d, known, hd, hknown, heq⟩ | ⟨d, c, hd, hc, heq⟩ := g.add_cases q
  · exact ⟨heq ▸ houter, heq ▸ hscope⟩
  · rw [hd] at hq
    refine ⟨heq ▸ houter, heq ▸ ⟨hframe _ _, hscope.each.update ⟨(identifiers_cons.1 hq).1, ?_⟩⟩⟩
    rintro ty e ⟨⟩
    exact hscope.lowerAs (identifiers_append.1 (identifiers_cons.1 hq).2).2
      (constantValue_eq_ok hknown).2
  · rw [hd] at hq
    refine ⟨heq ▸ houter, heq ▸ ⟨hframe _ _, hscope.each.update ⟨?_, ?_⟩⟩⟩
    · exact (identifiers_cons.1 (identifiers_cons.1 hq).2).1
    · rintro d ⟨⟩
      exact (hscope.each _ mem_cons_self _ (Assoc.mem_of_lookup hc)).2

end GlobalScope

theorem Program.named_globals {p : Program} (hp : Identifiers p.names) : p.globals.scope.Named := by
  have hstructs := TypeTable.named_unfolded (named_typeTable hp) p.typeTable.structs.length
  suffices h : p.globals.Named from h.2
  refine List.foldlRecOn (motive := GlobalScope.Named) _ _ ⟨rfl, ?_⟩ fun g hg q hq =>
    hg.add (identifiers_of_mem_ownership hp q hq)
  refine ⟨forall_mem_singleton.2 isIdentifier_empty, forall_mem_singleton.2 fun q hq => ?_⟩
  obtain ⟨d, hd, hbinding⟩ := mem_filterMap.1 hq
  exact GlobalScope.named_bindingOf hstructs (identifiers_of_mem_owned hp d hd) hbinding

end ControlReach
