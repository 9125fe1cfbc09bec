import ControlReach.Proofs.Datum
import ControlReach.Proofs.GlobalNaming

/-!
# Struct types

Structs that contain themselves have lost their fields before types are unfolded, so a named struct
type has one list of fields wherever it occurs, and types that agree are equal up to names.
-/

namespace ControlReach

open List

/-! ### Types with declared structs -/

namespace Ty

mutual

/-- Every named struct inside a type is the declared one. -/
def Declared (structs : String → Ty) : Ty → Prop
  | .bool => True
  | .string => True
  | .struct none fields => DeclaredFields structs fields
  | .struct (some x) fields => structs x = .struct (some x) fields ∧ DeclaredFields structs fields

def DeclaredFields (structs : String → Ty) : List (String × Ty) → Prop
  | [] => True
  | (_, ty) :: rest => Declared structs ty ∧ DeclaredFields structs rest

end

/-- Named structs are the declared ones, and no field name is repeated. -/
structure Proper (structs : String → Ty) (ty : Ty) : Prop where
  declared : ty.Declared structs
  distinct : ty.Distinct

theorem declaredFields_iff {fields : List (String × Ty)} :
    DeclaredFields structs fields ↔ ∀ f ∈ fields, f.2.Declared structs := by
  induction fields with
  | nil => simp [DeclaredFields]
  | cons f rest ih => simp [DeclaredFields, ih]

theorem Declared.fields {name : Option String} {fields : List (String × Ty)}
    (h : (Ty.struct name fields).Declared structs) : DeclaredFields structs fields := by
  cases name with
  | none => exact h
  | some x => exact h.2

theorem proper_bool : Proper structs .bool := ⟨trivial, trivial⟩

theorem proper_string : Proper structs .string := ⟨trivial, trivial⟩

theorem Proper.fields {name : Option String} {fields : List (String × Ty)}
    (h : Proper structs (.struct name fields)) : ∀ f ∈ fields, f.2.Proper structs := fun f hf =>
  ⟨declaredFields_iff.1 h.declared.fields f hf, distinctFields_iff.1 h.distinct.2 f hf⟩

theorem Proper.field {ty t : Ty} (h : ty.Proper structs) (hf : ty.field? f = some t) :
    t.Proper structs := by
  cases ty with
  | bool | string => cases hf
  | struct name fields => exact h.fields _ (Assoc.mem_of_lookup hf)

theorem proper_anonymous {fields : List (String × Ty)} (hnodup : (fields.map Prod.fst).Nodup)
    (h : ∀ f ∈ fields, f.2.Proper structs) : Proper structs (.struct none fields) :=
  ⟨declaredFields_iff.2 fun f hf => (h f hf).declared,
    hnodup, distinctFields_iff.2 fun f hf => (h f hf).distinct⟩

mutual

theorem Declared.bare_eq : ∀ {a b : Ty}, a.Declared structs → b.Declared structs →
    a.agrees b = true → a.bare = b.bare
  | .bool, .bool, _, _, _ | .string, .string, _, _, _ => rfl
  | .struct (some x) as, .struct (some y) bs, ha, hb, h => by
    obtain rfl : x = y := by simpa [agrees, sameName] using h
    have heq : Ty.struct (some x) as = .struct (some x) bs := ha.1.symm.trans hb.1
    rw [heq]
  | .struct none as, .struct name bs, ha, hb, h => by
    have hfields : agreesFields as bs = true := by simpa [agrees, sameName] using h
    rw [bare, bare, DeclaredFields.bareFields_eq ha hb.fields hfields]
  | .struct (some x) as, .struct none bs, ha, hb, h => by
    have hfields : agreesFields as bs = true := by simpa [agrees, sameName] using h
    rw [bare, bare, DeclaredFields.bareFields_eq ha.2 hb hfields]

theorem DeclaredFields.bareFields_eq : ∀ {as bs : List (String × Ty)}, DeclaredFields structs as →
    DeclaredFields structs bs → agreesFields as bs = true → bareFields as = bareFields bs
  | [], [], _, _, _ => rfl
  | (f, a) :: as, (g, b) :: bs, ha, hb, h => by
    obtain ⟨⟨rfl, hab⟩, hrest⟩ : (f = g ∧ a.agrees b = true) ∧ agreesFields as bs = true := by
      simpa [agreesFields] using h
    rw [bareFields, bareFields, Declared.bare_eq ha.1 hb.1 hab,
      DeclaredFields.bareFields_eq ha.2 hb.2 hrest]

end

theorem bare_eq_of_agrees {a b : Ty} (ha : a.Proper structs) (hb : b.Proper structs)
    (h : a.agrees b = true) : a.bare = b.bare := ha.declared.bare_eq hb.declared h

mutual

theorem Distinct.bare : ∀ {ty : Ty}, ty.Distinct → ty.bare.Distinct
  | .bool, _ | .string, _ => trivial
  | .struct _ fields, h => by
    refine ⟨?_, DistinctFields.bare h.2⟩
    rw [names_bareFields]
    exact h.1

theorem DistinctFields.bare : ∀ {fields : List (String × Ty)}, DistinctFields fields →
    DistinctFields (bareFields fields)
  | [], _ => trivial
  | (_, _) :: _, h => ⟨h.1.bare, DistinctFields.bare h.2⟩

end

theorem lookup_bareFields (fields : List (String × Ty)) (f : String) :
    (bareFields fields).lookup f = (fields.lookup f).map bare := by
  rw [bareFields_eq_map, Assoc.lookup_map]

end Ty

/-! ### Containment -/

namespace TypeTable

/-- Each struct of the list contains only structs that come later in the list. -/
def Layered (t : TypeTable) : List String → Prop
  | [] => True
  | x :: rest => (∀ y ∈ t.contained x, y ∈ rest) ∧ Layered t rest

theorem layered_of_ordered {t : TypeTable}
    (h : ∀ before x after, l = before ++ x :: after → ∀ y ∈ t.contained x, y ∈ after) :
    t.Layered l := by
  induction l with
  | nil => trivial
  | cons x rest ih =>
    refine ⟨h [] x rest rfl, ih fun before y after heq => ?_⟩
    exact h (x :: before) y after (by rw [heq]; rfl)

theorem fields_foldl_rejectRecursive (place : String → Option Location) (l : List String)
    (t : TypeTable) (y : String) :
    (l.foldl (rejectRecursive place) t).fields y = if y ∈ l then [] else t.fields y := by
  induction l generalizing t with
  | nil => simp
  | cons x l ih =>
    rw [foldl_cons, ih, fields_of_set rfl]
    by_cases hx : y = x <;> by_cases hl : y ∈ l <;> simp [hx, hl]

/-- The structs that do not contain themselves can be listed so that each contains only later ones.
-/
theorem Sifted.exists_layered {t t' : TypeTable} (h : t.Sifted p)
    (hfields : ∀ x, t'.fields x = if x ∈ t.recursiveStructs then [] else t.fields x) :
    ∃ l, l.length ≤ p.structNames.length ∧ (∀ x ∈ p.structNames, x ∈ l) ∧ t'.Layered l := by
  obtain ⟨⟨hs, hall, hreach⟩, hwithin⟩ := h.explore_spec
  refine ⟨_, Search.length_le_of_nodup (by simpa using hs.nodup) fun x hx => ?_,
    fun x hx => hall x (by rw [h.keys]; exact hx), layered_of_ordered fun before x after hd y hy => ?_⟩
  · obtain ⟨v, hv, hpath⟩ := hreach x hx
    rw [h.keys] at hv
    cases Relation.ReflTransGen.cases_tail hpath with
    | inl heq => rwa [heq]
    | inr hlast =>
      obtain ⟨z, -, hz⟩ := hlast
      exact (h.mem_structNames hz).2
  · -- A struct that keeps its fields is the source of no edge that closes a cycle.
    by_cases hx : x ∈ t.recursiveStructs
    · simp [contained, hfields x, hx] at hy
    · have hy : y ∈ t.contained x := by simpa [contained, hfields x, hx] using hy
      rcases hs.ordered before x after hd y hy with hafter | ⟨l, hl, rfl, -⟩
      · exact hafter
      · exact absurd (mem_recursiveStructs.2 ⟨l, hl, (hwithin l hl).1.1⟩) hx

/-! ### Unfolding -/

theorem toTy_struct_zero (t : TypeTable) (x : String) :
    (TypeName.struct x).toTy (t.unfolded 0) = .struct (some x) [] := by
  show ((t.unfolded 0).lookup x).getD _ = _
  rw [unfolded, Assoc.lookup_map]
  cases t.structs.lookup x <;> rfl

theorem toTy_struct (t : TypeTable) (n : Nat) (x : String) :
    (TypeName.struct x).toTy (t.unfolded (n + 1)) =
      .struct (some x) ((t.fields x).map fun f => (f.1, f.2.toTy (t.unfolded n))) := by
  show ((t.unfolded (n + 1)).lookup x).getD _ = _
  rw [unfolded, Assoc.lookup_map, fields]
  cases t.structs.lookup x <;> rfl

variable {t : TypeTable}

theorem Layered.rounds (h : t.Layered l) {P : Nat → String → Prop}
    (hP : ∀ n, ∀ x ∈ l, (∀ z ∈ t.contained x, P n z) → P (n + 1) x) :
    ∀ n, l.length ≤ n → ∀ x ∈ l, P n x := by
  induction l with
  | nil => simp
  | cons y rest ih =>
    intro n hn x hx
    obtain ⟨hcontained, hrest⟩ := h
    have hlater := ih hrest fun n x hx => hP n x (mem_cons_of_mem _ hx)
    rcases mem_cons.1 hx with rfl | hx
    · obtain ⟨n, rfl⟩ : ∃ k, n = k + 1 := Nat.exists_eq_add_of_le' (Nat.le_trans (by simp) hn)
      exact hP n x mem_cons_self fun z hz => hlater n (by simpa using hn) z (hcontained z hz)
    · exact hlater n (Nat.le_trans (by simp) hn) x hx

theorem Layered.toTy_unfolded (h : t.Layered l) : ∀ n, l.length ≤ n → ∀ x ∈ l,
      (TypeName.struct x).toTy (t.unfolded (n + 1)) = (TypeName.struct x).toTy (t.unfolded n) := by
  refine h.rounds fun n x _ ih => ?_
  rw [toTy_struct, toTy_struct]
  congr 1
  refine map_congr_left fun f hf => ?_
  congr 1
  cases hname : f.2 with
  | bool | string => rfl
  | struct z => exact ih z (mem_filterMap.2 ⟨f, hf, by rw [hname]; rfl⟩)

def structTy (t : TypeTable) (x : String) : Ty := (TypeName.struct x).toTy t.structTypes

theorem Layered.structTy_eq (h : t.Layered l) (hlen : l.length ≤ t.structs.length) (hx : x ∈ l) :
    t.structTy x = .struct (some x) ((t.fields x).map fun g => (g.1, g.2.toTy t.structTypes)) :=
  (h.toTy_unfolded _ hlen x hx).symm.trans (t.toTy_struct _ _)

theorem Layered.declared (h : t.Layered l) (hlen : l.length ≤ t.structs.length) :
    ∀ x ∈ l, (t.structTy x).Declared t.structTy := by
  refine h.rounds (P := fun _ x => (t.structTy x).Declared t.structTy) (fun _ x hx ih => ?_) _ hlen
  have heq := h.structTy_eq hlen hx
  rw [heq]
  refine ⟨heq, Ty.declaredFields_iff.2 fun f hf => ?_⟩
  obtain ⟨f', hf', rfl⟩ := mem_map.1 hf
  show (f'.2.toTy t.structTypes).Declared t.structTy
  cases hname : f'.2 with
  | bool | string => trivial
  | struct z => exact ih z (mem_filterMap.2 ⟨f', hf', by rw [hname]; rfl⟩)

theorem Sifted.distinct (h : t.Sifted p) :
    ∀ n (name : TypeName), (name.toTy (t.unfolded n)).Distinct
  | _, .bool | _, .string => trivial
  | 0, .struct x => by
    rw [toTy_struct_zero]
    exact ⟨nodup_nil, trivial⟩
  | n + 1, .struct x => by
    rw [toTy_struct]
    refine ⟨?_, Ty.distinctFields_iff.2 fun f hf => ?_⟩
    · rw [map_map]
      exact (h.fields_of x).1
    · obtain ⟨f', -, rfl⟩ := mem_map.1 hf
      exact h.distinct n f'.2

end TypeTable

/-! ### Programs -/

namespace Program

variable (p : Program)

theorem exists_layered_typeTable : ∃ l, l.length ≤ p.typeTable.structs.length ∧
    (∀ x ∈ p.structNames, x ∈ l) ∧ p.typeTable.Layered l := by
  have hlength : p.typeTable.structs.length = p.structNames.length := by
    rw [← p.elaborated_typeTable.keys, length_map]
  rw [hlength]
  refine p.elaborated_filledTable.exists_layered fun x => ?_
  obtain ⟨invalid, hspread⟩ := TypeTable.exists_spread p.ownedStructs.length p.acyclicTable
  rw [typeTable_eq, hspread]
  exact TypeTable.fields_foldl_rejectRecursive _ _ _ _

theorem proper_toTy {n : TypeName} (hn : ∀ z, n = .struct z → z ∈ p.structNames) :
    (n.toTy p.typeTable.structTypes).Proper p.typeTable.structTy := by
  refine ⟨?_, p.elaborated_typeTable.distinct _ n⟩
  cases n with
  | bool | string => trivial
  | struct x =>
    obtain ⟨l, hlen, hall, hlayered⟩ := p.exists_layered_typeTable
    exact hlayered.declared hlen x (hall x (hn x rfl))

end Program

end ControlReach
