import ControlReach.Typing.Global
import Mathlib.Data.List.Pairwise
import Mathlib.Logic.Relation

/-!
# Type names

Following an alias ends at a scalar or a struct, or comes back to an alias that has been passed. A
type name is well-founded if it can be built up from scalars.
-/

namespace ControlReach

open List Relation

/-! ### Owned names -/

/-- Two declarations that own a name own different names. -/
def Declaration.Differ (q q' : Declaration × Option Diagnostic) : Prop :=
  q.2 = none → q'.2 = none → q.1.declares?.map Prod.fst ≠ q'.1.declares?.map Prod.fst

instance : Std.Symm Declaration.Differ := ⟨fun _ _ h hq hq' heq => h hq' hq heq.symm⟩

theorem Declaration.pairwise_ownership (seen : List (String × BindingKind)) (l : List Declaration) :
    (ownership seen l).Pairwise Differ ∧ ∀ q ∈ ownership seen l, q.2 = none →
      ∃ x kind, q.1.declares? = some (x, kind) ∧ seen.lookup x = none := by
  induction l generalizing seen with
  | nil => exact ⟨.nil, by simp [ownership]⟩
  | cons d l ih =>
    have hskip : ∀ why : Diagnostic, ((d, some why) :: ownership seen l).Pairwise Differ ∧
        ∀ q ∈ (d, some why) :: ownership seen l, q.2 = none →
          ∃ x kind, q.1.declares? = some (x, kind) ∧ seen.lookup x = none := by
      intro why
      obtain ⟨hpairwise, howned⟩ := ih seen
      refine ⟨pairwise_cons.2 ⟨?_, hpairwise⟩, forall_mem_cons.2 ⟨?_, howned⟩⟩
      · rintro _ _ ⟨⟩
      · rintro ⟨⟩
    rw [ownership]
    split
    · exact hskip _
    · rename_i x kind hd
      split
      · exact hskip _
      · rename_i hx
        obtain ⟨hpairwise, howned⟩ := ih ((x, kind) :: seen)
        -- What comes later owns a name that is not seen, and `x` is.
        have hlater : ∀ q ∈ ownership ((x, kind) :: seen) l, q.2 = none →
            ∃ y k, q.1.declares? = some (y, k) ∧ y ≠ x ∧ seen.lookup y = none := by
          intro q hq hnone
          obtain ⟨y, k, hy, hlookup⟩ := howned q hq hnone
          rw [lookup_cons] at hlookup
          cases hyx : y == x with
          | true =>
            rw [hyx] at hlookup
            cases hlookup
          | false =>
            rw [hyx] at hlookup
            exact ⟨y, k, hy, beq_eq_false_iff_ne.1 hyx, hlookup⟩
        refine ⟨pairwise_cons.2 ⟨fun q hq _ hnone heq => ?_, hpairwise⟩,
          forall_mem_cons.2 ⟨fun _ => ⟨x, kind, hd, hx⟩, fun q hq hnone => ?_⟩⟩
        · obtain ⟨y, k, hy, hne, -⟩ := hlater q hq hnone
          rw [hd, hy] at heq
          exact hne (Option.some.inj heq).symm
        · obtain ⟨y, k, hy, -, hlookup⟩ := hlater q hq hnone
          exact ⟨y, k, hy, hlookup⟩

theorem Declaration.mem_of_mem_ownership (h : q ∈ ownership seen l) : q.1 ∈ l := by
  induction l generalizing seen with
  | nil => cases h
  | cons d rest ih =>
    rw [ownership] at h
    split at h <;> (try split at h) <;> obtain rfl | h := mem_cons.1 h <;>
      first | exact mem_cons_self | exact mem_cons_of_mem _ (ih h)

namespace Program

variable {p : Program}

theorem mem_owned : d ∈ p.owned ↔ (d, none) ∈ p.ownership := by
  rw [owned, mem_filterMap]
  constructor
  · rintro ⟨⟨d', why⟩, hmem, heq⟩
    cases why with
    | none =>
      cases heq
      exact hmem
    | some _ => cases heq
  · exact fun hmem => ⟨_, hmem, rfl⟩

theorem nodup_owned (p : Program) :
    (p.owned.filterMap fun d => d.declares?.map Prod.fst).Nodup := by
  obtain ⟨hdiffer, -⟩ := Declaration.pairwise_ownership [] p.declarations
  rw [Nodup, owned, filterMap_filterMap, pairwise_filterMap]
  refine hdiffer.imp fun {q q'} h x hx x' hx' heq => ?_
  obtain ⟨d, _ | why⟩ := q
  · obtain ⟨d', _ | why'⟩ := q'
    · exact h rfl rfl (hx.trans (heq ▸ hx'.symm))
    · cases hx'
  · cases hx

def named (p : Program) : List (String × Declaration) :=
  p.owned.filterMap fun d => d.declares?.map fun n => (n.1, d)

theorem lookup_named :
    p.named.lookup x = some d ↔ d ∈ p.owned ∧ d.declares?.map Prod.fst = some x := by
  have hkeys : p.named.map Prod.fst = p.owned.filterMap fun d => d.declares?.map Prod.fst := by
    rw [named, map_filterMap]
    refine congrArg (filterMap · p.owned) (funext fun d => ?_)
    rw [Option.map_map]
    rfl
  constructor
  · intro h
    obtain ⟨d', hd', heq⟩ := mem_filterMap.1 (Assoc.mem_of_lookup h)
    obtain ⟨n, hn, heq⟩ := Option.map_eq_some_iff.1 heq
    cases heq
    exact ⟨hd', by rw [hn]; rfl⟩
  · rintro ⟨hd, hx⟩
    obtain ⟨n, hn, rfl⟩ := Option.map_eq_some_iff.1 hx
    refine Assoc.lookup_of_mem (hkeys ▸ p.nodup_owned) (mem_filterMap.2 ⟨d, hd, ?_⟩)
    rw [hn]
    rfl

theorem owner_unique (hd : d ∈ p.owned) (hx : d.declares?.map Prod.fst = some x)
    (hd' : d' ∈ p.owned) (hx' : d'.declares?.map Prod.fst = some x) : d = d' :=
  Option.some.inj ((lookup_named.2 ⟨hd, hx⟩).symm.trans (lookup_named.2 ⟨hd', hx'⟩))

variable {d : StructDecl}

theorem struct_unique (hd : .struct d ∈ p.owned) (hd' : .struct d' ∈ p.owned)
    (h : d.name = d'.name) : d = d' := by
  cases owner_unique hd rfl hd' (congrArg some h.symm)
  rfl

theorem typedef_unique {d d' : TypedefDecl} (hd : .typedef d ∈ p.owned)
    (hd' : .typedef d' ∈ p.owned) (h : d.name = d'.name) : d = d' := by
  cases owner_unique hd rfl hd' (congrArg some h.symm)
  rfl

theorem struct_ne_typedef {d' : TypedefDecl} (hd : .struct d ∈ p.owned)
    (hd' : .typedef d' ∈ p.owned) : d.name ≠ d'.name := by
  intro h
  cases owner_unique hd rfl hd' (congrArg some h.symm)

def ownedStructs (p : Program) : List StructDecl :=
  p.owned.filterMap fun | .struct d => some d | _ => none

def ownedTypedefs (p : Program) : List TypedefDecl :=
  p.owned.filterMap fun | .typedef d => some d | _ => none

def structNames (p : Program) : List String := p.ownedStructs.map StructDecl.name

theorem mem_ownedStructs : d ∈ p.ownedStructs ↔ .struct d ∈ p.owned := by
  rw [ownedStructs, mem_filterMap]
  constructor
  · rintro ⟨d', hd', heq⟩
    cases d' <;> cases heq
    exact hd'
  · exact fun hd => ⟨_, hd, rfl⟩

theorem mem_ownedTypedefs {d : TypedefDecl} : d ∈ p.ownedTypedefs ↔ .typedef d ∈ p.owned := by
  rw [ownedTypedefs, mem_filterMap]
  constructor
  · rintro ⟨d', hd', heq⟩
    cases d' <;> cases heq
    exact hd'
  · exact fun hd => ⟨_, hd, rfl⟩

theorem mem_structNames : x ∈ p.structNames ↔ ∃ d, .struct d ∈ p.owned ∧ d.name = x := by
  rw [structNames, mem_map]
  exact exists_congr fun d => and_congr_left fun _ => mem_ownedStructs

/-! ### The end of a chain -/

/-- What a reference stands for when all aliases are followed. -/
inductive Stands (p : Program) : TypeRef → TypeName → Prop
  | bool (loc : Option Location) : Stands p (.bool loc) .bool
  | string (loc : Option Location) : Stands p (.string loc) .string
  | struct {d : StructDecl} {x : String} (loc : Option Location) :
      .struct d ∈ p.owned → d.name = x → Stands p (.named x loc) (.struct x)
  | typedef {d : TypedefDecl} {x : String} (loc : Option Location) {n : TypeName} :
      .typedef d ∈ p.owned → d.name = x → Stands p d.type n → Stands p (.named x loc) n

def Refers (p : Program) (x y : String) : Prop :=
  ∃ d, .typedef d ∈ p.owned ∧ d.name = x ∧ ∃ loc, d.type = .named y loc

namespace Stands

variable {p : Program} {r : TypeRef} {n : TypeName}

theorem relocate (h : p.Stands (.named x loc) n) (loc' : Option Location) :
    p.Stands (.named x loc') n := by
  cases h with
  | struct _ hd hx => exact .struct loc' hd hx
  | typedef _ hd hx hn => exact .typedef loc' hd hx hn

theorem of_typedef {d : TypedefDecl} (hd : .typedef d ∈ p.owned)
    (h : p.Stands (.named d.name loc) n) : p.Stands d.type n := by
  cases h with
  | struct _ hd' hx => exact absurd hx (struct_ne_typedef hd' hd)
  | typedef _ hd' hx hn =>
    rw [typedef_unique hd hd' hx.symm]
    exact hn

theorem unique (h : p.Stands r n) (h' : p.Stands r n') : n = n' := by
  induction h with
  | bool | string => cases h'; rfl
  | struct _ hd hx =>
    cases h' with
    | struct => rfl
    | typedef _ hd' hx' => exact absurd (hx.trans hx'.symm) (struct_ne_typedef hd hd')
  | typedef _ hd hx _ ih =>
    subst hx
    exact ih (h'.of_typedef hd)

theorem exists_struct (h : p.Stands r (.struct x)) : ∃ d, .struct d ∈ p.owned ∧ d.name = x := by
  generalize hn : TypeName.struct x = n at h
  induction h with
  | bool | string => cases hn
  | struct _ hd hx =>
    cases hn
    exact ⟨_, hd, hx⟩
  | typedef _ _ _ _ ih => exact ih hn

theorem not_cyclic (h : p.Stands (.named x loc) n) : ¬ TransGen p.Refers x x := by
  generalize hr : TypeRef.named x loc = r at h
  induction h generalizing x loc with
  | bool | string => cases hr
  | struct _ hd hx =>
    cases hr
    intro hcycle
    obtain ⟨y, ⟨d', hd', hx', -⟩, -⟩ := TransGen.head'_iff.1 hcycle
    exact struct_ne_typedef hd hd' (hx.trans hx'.symm)
  | typedef _ hd hx _ ih =>
    cases hr
    intro hcycle
    obtain ⟨y, hxy, hyx⟩ := TransGen.head'_iff.1 hcycle
    obtain ⟨d', hd', hx', loc', htype⟩ := id hxy
    rw [typedef_unique hd' hd (hx'.trans hx.symm)] at htype
    exact ih htype.symm (TransGen.tail'_iff.2 ⟨_, hyx, hxy⟩)

end Stands

/-! ### Well-founded types -/

/-- References to types that can be built up from scalars. -/
inductive Founded (p : Program) : TypeRef → Prop
  | bool (loc : Option Location) : Founded p (.bool loc)
  | string (loc : Option Location) : Founded p (.string loc)
  | typedef {d : TypedefDecl} {x : String} (loc : Option Location) :
      .typedef d ∈ p.owned → d.name = x → Founded p d.type → Founded p (.named x loc)
  | struct {d : StructDecl} {x : String} (loc : Option Location) :
      .struct d ∈ p.owned → d.name = x → (d.fields.map StructField.name).Nodup →
      (∀ f ∈ d.fields, Founded p f.type) → Founded p (.named x loc)

namespace Founded

variable {p : Program}

theorem relocate (h : p.Founded (.named x loc)) (loc' : Option Location) :
    p.Founded (.named x loc') := by
  cases h with
  | typedef _ hd hx h => exact .typedef loc' hd hx h
  | struct _ hd hx hnodup h => exact .struct loc' hd hx hnodup h

theorem of_typedef {d : TypedefDecl} (hd : .typedef d ∈ p.owned)
    (h : p.Founded (.named d.name loc)) : p.Founded d.type := by
  cases h with
  | struct _ hd' hx => exact absurd hx (struct_ne_typedef hd' hd)
  | typedef _ hd' hx h =>
    rw [typedef_unique hd hd' hx.symm]
    exact h

theorem of_struct (hd : .struct d ∈ p.owned) (h : p.Founded (.named d.name loc)) :
    (d.fields.map StructField.name).Nodup ∧ ∀ f ∈ d.fields, p.Founded f.type := by
  cases h with
  | typedef _ hd' hx => exact absurd hx.symm (struct_ne_typedef hd hd')
  | struct _ hd' hx hnodup hfields =>
    rw [struct_unique hd hd' hx.symm]
    exact ⟨hnodup, hfields⟩

theorem exists_stands (h : p.Founded r) : ∃ n, p.Stands r n := by
  induction h with
  | bool loc => exact ⟨_, .bool loc⟩
  | string loc => exact ⟨_, .string loc⟩
  | typedef loc hd hx _ ih =>
    obtain ⟨n, hn⟩ := ih
    exact ⟨n, .typedef loc hd hx hn⟩
  | struct loc hd hx _ _ _ => exact ⟨_, .struct loc hd hx⟩

theorem of_stands (h : p.Founded r) (hz : p.Stands r (.struct z)) : p.Founded (.named z none) := by
  induction h with
  | bool | string => cases hz
  | typedef loc hd hx _ ih =>
    subst hx
    exact ih (hz.of_typedef hd)
  | struct loc hd hx hnodup hfields _ =>
    cases hz.unique (.struct loc hd hx)
    exact .struct none hd hx hnodup hfields

end Founded

/-- A field of a struct has another struct as its type, when aliases are followed. -/
def Contains (p : Program) (x y : String) : Prop :=
  ∃ d, .struct d ∈ p.owned ∧ d.name = x ∧ ∃ f ∈ d.fields, p.Stands f.type (.struct y)

namespace Founded

variable {p : Program}

theorem of_contains (h : p.Founded (.named x none)) (hxy : p.Contains x y) :
    p.Founded (.named y none) := by
  obtain ⟨d, hd, rfl, f, hf, hstands⟩ := hxy
  exact ((h.of_struct hd).2 f hf).of_stands hstands

theorem acc (h : p.Founded r) (hz : p.Stands r (.struct z)) :
    Acc (fun y x => p.Contains x y) z := by
  induction h generalizing z with
  | bool | string => cases hz
  | typedef _ hd hx _ ih =>
    subst hx
    exact ih (hz.of_typedef hd)
  | struct loc hd hx _ _ ih =>
    subst hx
    cases hz.unique (.struct loc hd rfl)
    refine ⟨_, fun y hy => ?_⟩
    obtain ⟨d', hd', hname, f, hf, hstands⟩ := hy
    rw [struct_unique hd' hd hname] at hf
    exact ih f hf hstands

theorem not_cyclic (h : p.Founded (.named x none)) : ¬ TransGen p.Contains x x := by
  intro hcycle
  obtain ⟨y, ⟨d, hd, hname, -⟩, -⟩ := TransGen.head'_iff.1 hcycle
  have hacc := (h.acc (.struct none hd hname)).transGen
  exact hacc.rec (motive := fun x _ => ¬ TransGen (fun y x => p.Contains x y) x x)
    (fun x _ ih hx => ih x hx hx) (transGen_swap.2 hcycle)

end Founded

theorem Stands.founded {r : TypeRef} {n : TypeName} (h : p.Stands r n)
    (hn : ∀ z, n = .struct z → p.Founded (.named z none)) : p.Founded r := by
  induction h with
  | bool loc => exact .bool loc
  | string loc => exact .string loc
  | struct loc _ _ => exact (hn _ rfl).relocate loc
  | typedef loc hd hx _ ih => exact .typedef loc hd hx (ih hn)

def FieldStands (p : Program) (f : StructField) (g : String × TypeName) : Prop :=
  g.1 = f.name ∧ p.Stands f.type g.2

end Program

end ControlReach
