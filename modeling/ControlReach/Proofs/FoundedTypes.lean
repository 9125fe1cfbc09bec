import ControlReach.Proofs.InstanceLinks

/-!
# Well-founded types

A type name has a type if and only if it can be built up from scalars. After each round of
spreading, one more struct in the order of containment is invalid unless it is well-founded.
-/

namespace ControlReach

open List TypeTable

/-! ### Invalid structs -/

namespace TypeTable

variable {t : TypeTable}

theorem spread_succ (n : Nat) (t : TypeTable) :
    t.spread (n + 1) = ((t.spread n).structs.map Prod.fst).foldl spreadTo (t.spread n) := by
  induction n generalizing t with
  | zero => rfl
  | succ n ih => exact ih _

/-- A valid struct that is not well-founded contains another such struct. -/
theorem Elaborated.exists_contained (h : t.Elaborated p) (hx : x ∈ p.structNames)
    (hfounded : ¬ p.Founded (.named x none)) :
    t.isInvalid x = true ∨ ∃ z ∈ t.contained x, z ∈ p.structNames ∧ ¬ p.Founded (.named z none) := by
  obtain ⟨d, hd, rfl⟩ := Program.mem_structNames.1 hx
  refine (h.filled d hd).imp_right fun ⟨hnodup, hfields⟩ => ?_
  by_contra hnone
  refine hfounded (.struct none hd rfl hnodup fun f hf => ?_)
  obtain ⟨g, hg, -, hstands⟩ := exists_of_forall₂ hfields hf
  refine hstands.founded fun z hz => ?_
  rw [hz] at hstands
  by_contra hnot
  exact hnone ⟨z, mem_filterMap.2 ⟨g, hg, by rw [hz]; rfl⟩,
    Program.mem_structNames.2 hstands.exists_struct, hnot⟩

/-- As many rounds as there are structs find all structs that are not well-founded. -/
theorem Elaborated.isInvalid_spread (h : t.Elaborated p) (hl : (t.spread m).Layered l) : ∀ n,
    l.length ≤ n → ∀ x ∈ l, x ∈ p.structNames → ¬ p.Founded (.named x none) → (t.spread n).isInvalid
    x = true := by
  refine hl.rounds fun n x _ ih hname hfounded => ?_
  have hbefore := h.spread n
  obtain ⟨-, hsifts, hmark⟩ := hbefore.spreadTo_all ((t.spread n).structs.map Prod.fst)
  rw [spread_succ]
  obtain hinvalid | ⟨z, hz, hzname, hzfounded⟩ := hbefore.exists_contained hname hfounded
  · exact hsifts.invalid x hinvalid
  · -- What the struct contains has been found a round before it.
    refine hmark x (by rwa [hbefore.keys]) z hz (ih z ?_ hzname hzfounded)
    obtain ⟨_, hn⟩ := t.exists_spread n
    obtain ⟨_, hm⟩ := t.exists_spread m
    rw [hn] at hz
    rwa [hm]

end TypeTable

namespace Program

variable {p : Program} {r : TypeRef}

theorem founded_of_valid (hx : x ∈ p.structNames) (hvalid : p.typeTable.isInvalid x = false) :
    p.Founded (.named x none) := by
  by_contra hfounded
  obtain ⟨l, hlen, hall, hl⟩ := p.exists_layered_typeTable
  have hcount : p.typeTable.structs.length = p.ownedStructs.length := by
    rw [← length_map Prod.fst, p.elaborated_typeTable.keys, structNames, length_map]
  have hinvalid := p.elaborated_acyclicTable.isInvalid_spread hl _ (hcount ▸ hlen) x (hall x hx) hx
    hfounded
  exact absurd (hvalid.symm.trans hinvalid) Bool.false_ne_true

/-- A reference stands for something in the table if and only if it is well-founded. -/
theorem resolve_typeTable {n : TypeName} :
    p.typeTable.resolve r = .ok n ↔ p.Founded r ∧ p.Stands r n := by
  have h := p.elaborated_typeTable
  rw [resolve_eq_ok_iff h.owned h.stands fun d _ hd _ => h.settled d hd]
  constructor
  · rintro ⟨hstands, hclear⟩
    refine ⟨hstands.founded fun z hz => ?_, hstands⟩
    subst hz
    exact founded_of_valid (mem_structNames.2 hstands.exists_struct) (hclear.2 z rfl)
  · exact fun ⟨hfounded, hstands⟩ => ⟨hstands, h.clear hfounded hstands⟩

end Program

/-! ### Types in the global scope -/

theorem TypeTable.exists_toTy_struct (t : TypeTable) (x : String) :
    ∃ fields, (TypeName.struct x).toTy t.structTypes = .struct (some x) fields := by
  rw [structTypes]
  cases t.structs.length with
  | zero => exact ⟨[], t.toTy_struct_zero x⟩
  | succ n => exact ⟨_, t.toTy_struct n x⟩

namespace Program

variable {p : Program} {r : TypeRef} {ty : Ty}

theorem lookup_globals_type : p.globals.scope.lookup x = some (.type known) ↔
    p.declared.scope.inner.lookup x = some (.type known) := by
  obtain ⟨hsingle, hsame, hglobals⟩ := p.bare_spec
  rw [hglobals, (hsingle.linked _).lookup, GlobalScope.lookup_linked,
    hsame.lookup x _ fun _ => Binding.noConfusion]
  cases p.bare.scope.inner.lookup x with
  | none => rfl
  | some b => cases b <;> simp [Binding.linked]

theorem invalid_globals (p : Program) : p.globals.scope.invalid = p.typeTable.invalid := by
  obtain ⟨-, hsame, hglobals⟩ := p.bare_spec
  rw [hglobals]
  exact hsame.invalid.symm

theorem lookup_declared_type : p.declared.scope.inner.lookup x = some (.type (some ty)) ↔
    ∃ n, p.typeTable.meaning? x = some n ∧ n.toTy p.typeTable.structTypes = ty := by
  have htable := p.elaborated_typeTable
  simp only [meaning?_eq_some_iff htable.owned]
  constructor
  · intro h
    obtain ⟨d, hd, hb⟩ := mem_filterMap.1 (Assoc.mem_of_lookup h)
    cases d with
    | struct d =>
      obtain ⟨rfl, hknown⟩ := Prod.mk.inj (Option.some.inj hb)
      refine ⟨_, .inl ⟨d, hd, rfl, rfl⟩, ?_⟩
      rw [TypeName.toTy, Binding.type.inj hknown]
      rfl
    | typedef d =>
      obtain ⟨rfl, hknown⟩ := Prod.mk.inj (Option.some.inj hb)
      obtain ⟨n, hn, rfl⟩ := Option.map_eq_some_iff.1 (Binding.type.inj hknown)
      exact ⟨n, .inr ⟨d, hd, rfl, hn⟩, rfl⟩
    | _ => cases hb
  · rintro ⟨n, ⟨d, hd, rfl, rfl⟩ | ⟨d, hd, rfl, hn⟩, rfl⟩
    · have hsome : (p.typeTable.structTypes.lookup d.name).isSome = true := by
        rw [Option.isSome_iff_ne_none, Ne, Assoc.lookup_eq_none_iff, not_not,
          structTypes, keys_unfolded, htable.keys]
        exact mem_structNames.2 ⟨d, hd, rfl⟩
      obtain ⟨ty, hty⟩ := Option.isSome_iff_exists.1 hsome
      rw [lookup_declared hd rfl, TypeName.toTy, hty]
      rfl
    · rw [lookup_declared hd rfl, hn]
      rfl

/-- A reference has the type of what it stands for, if it is well-founded. -/
theorem resolveType_globals : p.globals.scope.resolveType r = .ok ty ↔
    p.Founded r ∧ ∃ n, p.Stands r n ∧ n.toTy p.typeTable.structTypes = ty := by
  have hinvalid : ∀ x n, p.globals.scope.invalid? x (some (TypeName.toTy p.typeTable.structTypes n)) =
      (p.typeTable.fault? x).or (n.struct?.bind p.typeTable.fault?) := by
    intro x n
    unfold Scope.invalid?
    rw [invalid_globals]
    cases n with
    | struct z =>
      obtain ⟨fields, hfields⟩ := p.typeTable.exists_toTy_struct z
      rw [hfields]
      rfl
    | _ => rfl
  have hresolve : p.globals.scope.resolveType r = .ok ty ↔
      ∃ n, p.typeTable.resolve r = .ok n ∧ n.toTy p.typeTable.structTypes = ty := by
    cases r with
    | bool | string => simp [Scope.resolveType, resolve, TypeName.toTy]
    | other => simp [Scope.resolveType, resolve, reject]
    | named x loc =>
      rw [Scope.resolveType_named, lookup_globals_type, lookup_declared_type]
      simp only [resolve_named, clear_named]
      constructor
      · rintro ⟨⟨n, hn, rfl⟩, hclear⟩
        exact ⟨n, ⟨hn, hinvalid x n ▸ hclear⟩, rfl⟩
      · rintro ⟨n, ⟨hn, hclear⟩, rfl⟩
        exact ⟨⟨n, hn, rfl⟩, (hinvalid x n).trans hclear⟩
  simp only [hresolve, resolve_typeTable, and_assoc, exists_and_left]

theorem toTy_structTypes (hx : x ∈ p.structNames) :
    (TypeName.struct x).toTy p.typeTable.structTypes = .struct (some x)
      ((p.typeTable.fields x).map fun g => (g.1, g.2.toTy p.typeTable.structTypes)) := by
  obtain ⟨l, hlen, hall, hl⟩ := p.exists_layered_typeTable
  exact hl.structTy_eq hlen (hall x hx)

/-- The type of a struct has the fields of the struct, in order and with their types. -/
theorem resolveType_struct (hd : .struct d ∈ p.owned)
    (hty : p.globals.scope.resolveType (.named d.name loc) = .ok ty) :
    ∃ fields, ty = .struct (some d.name) fields ∧
      Forall₂ (fun f g => g.1 = f.name ∧ p.globals.scope.resolveType f.type = .ok g.2)
        d.fields fields := by
  obtain ⟨hfounded, n, hn, rfl⟩ := resolveType_globals.1 hty
  cases hn.unique (.struct loc hd rfl)
  refine ⟨_, toTy_structTypes (mem_structNames.2 ⟨d, hd, rfl⟩), forall₂_map_right_iff.2 ?_⟩
  have hfields : Forall₂ p.FieldStands d.fields (p.typeTable.fields d.name) := by
    refine ((p.elaborated_typeTable.filled d hd).resolve_left fun hinvalid => ?_).2
    exact p.elaborated_typeTable.fails _ hinvalid (hfounded.relocate none)
  refine ((forall₂_and_left _ _).2 ⟨(hfounded.of_struct hd).2, hfields⟩).imp ?_
  rintro f g ⟨hf, hname, hstands⟩
  exact ⟨hname, resolveType_globals.2 ⟨hf, _, hstands, rfl⟩⟩

/-- A reference has a type exactly if it is well-founded: a struct has its fields, an alias the type
it refers to. -/
theorem resolveType_founded (p : Program) :
    (∀ r, (∃ ty, p.globals.scope.resolveType r = .ok ty) ↔ p.Founded r) ∧
    (∀ d loc ty, .struct d ∈ p.owned → p.globals.scope.resolveType (.named d.name loc) = .ok ty →
      ∃ fields, ty = .struct (some d.name) fields ∧
        Forall₂ (fun f g => g.1 = f.name ∧ p.globals.scope.resolveType f.type = .ok g.2)
          d.fields fields) ∧
    ∀ d loc ty, .typedef d ∈ p.owned →
      (p.globals.scope.resolveType (.named d.name loc) = .ok ty ↔
        p.globals.scope.resolveType d.type = .ok ty) := by
  refine ⟨fun r => ⟨?_, fun hfounded => ?_⟩, fun d loc ty hd => resolveType_struct hd, ?_⟩
  · rintro ⟨ty, hty⟩
    exact (resolveType_globals.1 hty).1
  · obtain ⟨n, hn⟩ := hfounded.exists_stands
    exact ⟨_, resolveType_globals.2 ⟨hfounded, n, hn, rfl⟩⟩
  · intro d loc ty hd
    rw [resolveType_globals, resolveType_globals]
    refine and_congr ⟨.of_typedef hd, .typedef loc hd rfl⟩ (exists_congr fun n => ?_)
    exact and_congr_left fun _ => ⟨.of_typedef hd, .typedef loc hd rfl⟩

end Program

end ControlReach
