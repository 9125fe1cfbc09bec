import ControlReach.Proofs.SearchOrder
import ControlReach.Proofs.Success
import ControlReach.Proofs.TypeChains

/-!
# The elaboration of type names

Aliases are elaborated first, then the fields of structs; then structs that contain themselves are
rejected, and last what contains an invalid struct. Only names that are not well-founded become
invalid.
-/

namespace ControlReach

open List Relation TypeTable

def Program.HasField (p : Program) (x : String) (g : String × TypeName) : Prop :=
  ∃ d, .struct d ∈ p.owned ∧ d.name = x ∧ ∃ f ∈ d.fields, p.FieldStands f g

namespace TypeTable

variable {p : Program} {t t' : TypeTable} {x : String} {d : StructDecl}

/-- It has been found out what an alias stands for, or that it is invalid. -/
def Settled (t : TypeTable) (x : String) : Prop :=
  (t.aliases.lookup x).isSome = true ∨ t.isInvalid x = true

/-- What holds of a table at any time. -/
structure Sifted (p : Program) (t : TypeTable) : Prop where
  owned : t.owned = p.named
  keys : t.structs.map Prod.fst = p.structNames
  stands : ∀ x n, t.aliases.lookup x = some n → p.Stands (.named x none) n
  fails : ∀ x, t.isInvalid x = true → ¬ p.Founded (.named x none)
  fields : ∀ s ∈ t.structs, (s.2.map Prod.fst).Nodup ∧ ∀ g ∈ s.2, p.HasField s.1 g

/-- A change of a table after which nothing is unsettled or valid again. -/
structure Sifts (p : Program) (t t' : TypeTable) : Prop where
  sifted : t'.Sifted p
  settled : ∀ x, t.Settled x → t'.Settled x
  invalid : ∀ x, t.isInvalid x = true → t'.isInvalid x = true

theorem Sifts.refl (h : t.Sifted p) : Sifts p t t := ⟨h, fun _ hx => hx, fun _ hx => hx⟩

theorem Sifts.trans (h : Sifts p t t') (h' : Sifts p t' t'') : Sifts p t t'' :=
  ⟨h'.sifted, fun x hx => h'.settled x (h.settled x hx),
    fun x hx => h'.invalid x (h.invalid x hx)⟩

theorem Sifts.record (h : Sifts p t t') (why : Diagnostic) : Sifts p t (t'.record why) :=
  ⟨⟨h.sifted.owned, h.sifted.keys, h.sifted.stands, h.sifted.fails, h.sifted.fields⟩, h.settled,
    h.invalid⟩

/-! ### Invalid names -/

theorem isInvalid_eq_false : t.isInvalid x = false ↔ t.fault? x = none := by
  rw [isInvalid, Option.isSome_eq_false_iff, Option.isNone_iff_eq_none]

/-- Neither a reference nor what it stands for is invalid so far. -/
def Clear (t : TypeTable) (r : TypeRef) (n : TypeName) : Prop :=
  (∀ x loc, r = .named x loc → t.isInvalid x = false) ∧ ∀ z, n = .struct z → t.isInvalid z = false

variable {n : TypeName} {r : TypeRef}

theorem clear_named :
    t.Clear (.named x loc) n ↔ (t.fault? x).or ((n.struct?).bind t.fault?) = none := by
  rw [Option.or_eq_none_iff, Clear, ← isInvalid_eq_false]
  refine and_congr ⟨fun h => h x loc rfl, ?_⟩ ?_
  · rintro h _ _ ⟨⟩
    exact h
  · cases n with
    | bool | string => simp [TypeName.struct?]
    | struct z => simp [TypeName.struct?, isInvalid_eq_false]

theorem meaning?_eq_some_iff (howned : t.owned = p.named) :
    t.meaning? x = some n ↔ (∃ d, .struct d ∈ p.owned ∧ d.name = x ∧ n = .struct x) ∨
      ∃ d, .typedef d ∈ p.owned ∧ d.name = x ∧ t.aliases.lookup x = some n := by
  rw [meaning?, howned]
  constructor
  · intro h
    split at h
    · rename_i d hd
      cases h
      obtain ⟨hd, hx⟩ := Program.lookup_named.1 hd
      exact .inl ⟨d, hd, Option.some.inj hx, rfl⟩
    · rename_i d hd
      obtain ⟨hd, hx⟩ := Program.lookup_named.1 hd
      exact .inr ⟨d, hd, Option.some.inj hx, h⟩
    · cases h
  · rintro (⟨d, hd, rfl, rfl⟩ | ⟨d, hd, rfl, hn⟩) <;> rw [Program.lookup_named.2 ⟨hd, rfl⟩]
    exact hn

theorem declares?_of_meaning? (h : t.meaning? x = some n) :
    ∃ y, (t.owned.lookup x).bind Declaration.declares? = some (y, .type) := by
  rw [meaning?] at h
  split at h <;> first | cases h; done | exact ⟨_, by rw [‹t.owned.lookup x = _›]; rfl⟩

theorem resolve_named :
    t.resolve (.named x loc) = .ok n ↔ t.meaning? x = some n ∧ t.Clear (.named x loc) n := by
  rw [resolve, clear_named]
  cases hmeaning : t.meaning? x with
  | none =>
    refine iff_of_false (fun h => ?_) (fun h => nomatch h.1)
    split at h
    · cases h
    · revert h
      cases t.invalid? x <;> rintro ⟨⟩
    · cases h
  | some m =>
    obtain ⟨y, hy⟩ := declares?_of_meaning? hmeaning
    rw [hy]
    dsimp only
    rw [invalid?, hmeaning, Option.bind_some]
    cases hinvalid : (t.fault? x).or (m.struct?.bind t.fault?) with
    | some why =>
      refine iff_of_false (by simp [reject]) ?_
      rintro ⟨⟨⟩, hclear⟩
      rw [hinvalid] at hclear
      cases hclear
    | none =>
      constructor
      · rintro ⟨⟩
        exact ⟨rfl, hinvalid⟩
      · rintro ⟨⟨⟩, -⟩
        rfl

/-- A reference stands for what its chain of aliases leads to, if nothing there is invalid. -/
theorem resolve_eq_ok_iff (howned : t.owned = p.named)
    (hstands : ∀ x n, t.aliases.lookup x = some n → p.Stands (.named x none) n)
    (hsettled : ∀ d loc, .typedef d ∈ p.owned → r = .named d.name loc → t.Settled d.name) :
    t.resolve r = .ok n ↔ p.Stands r n ∧ t.Clear r n := by
  cases r with
  | bool | string =>
    constructor
    · rintro ⟨⟩
      exact ⟨by constructor, by simp [Clear]⟩
    · rintro ⟨⟨⟩, -⟩
      rfl
  | other typeName => exact iff_of_false (by simp [resolve, reject]) (fun h => nomatch h.1)
  | named x loc =>
    rw [resolve_named, meaning?_eq_some_iff howned]
    refine and_congr_left fun hclear => ⟨?_, fun h => ?_⟩
    · rintro (⟨d, hd, hx, rfl⟩ | ⟨d, -, -, hn⟩)
      · exact .struct loc hd hx
      · exact (hstands _ _ hn).relocate loc
    · cases id h with
      | struct _ hd hx => exact .inl ⟨_, hd, hx, rfl⟩
      | typedef _ hd hx =>
        subst hx
        refine .inr ⟨_, hd, rfl, ?_⟩
        obtain halias | hinvalid := hsettled _ loc hd rfl
        · obtain ⟨n', hn'⟩ := Option.isSome_iff_exists.1 halias
          exact hn'.trans (congrArg some (((hstands _ _ hn').relocate loc).unique h))
        · rw [hclear.1 _ _ rfl] at hinvalid
          cases hinvalid

/-! ### Changes -/

namespace Sifted

theorem fields_of (h : t.Sifted p) (x : String) :
    ((t.fields x).map Prod.fst).Nodup ∧ ∀ g ∈ t.fields x, p.HasField x g := by
  unfold TypeTable.fields
  cases hx : t.structs.lookup x with
  | none => simp
  | some fields => exact h.fields _ (Assoc.mem_of_lookup hx)

theorem mark (h : t.Sifted p) (hx : ¬ p.Founded (.named x none)) (howned : t'.owned = t.owned)
    (haliases : t'.aliases = t.aliases) (hstructs : t'.structs = t.structs)
    (hinvalid : ∀ y, t'.isInvalid y = true ↔ y = x ∨ t.isInvalid y = true) : Sifts p t t' where
  sifted :=
    { owned := howned.trans h.owned
      keys := hstructs ▸ h.keys
      stands := haliases ▸ h.stands
      fails := fun y hy => ((hinvalid y).1 hy).elim (fun heq => heq ▸ hx) (h.fails y)
      fields := hstructs ▸ h.fields }
  settled := fun y hy => hy.imp (haliases ▸ id) fun hy => (hinvalid y).2 (.inr hy)
  invalid := fun y hy => (hinvalid y).2 (.inr hy)

theorem isInvalid_invalidate (t : TypeTable) (x : String) (why : Diagnostic) (y : String) :
    (t.invalidate x why).isInvalid y = true ↔ y = x ∨ t.isInvalid y = true := by
  rw [isInvalid, isInvalid, fault?, fault?, invalidate, Assoc.lookup_set]
  by_cases h : y = x <;> simp [h]

theorem settled_invalidate (t : TypeTable) (x : String) (why : Diagnostic) :
    (t.invalidate x why).Settled x := .inr ((isInvalid_invalidate t x why x).2 (.inl rfl))

theorem isInvalid_failField (t : TypeTable) (x : String) (why : Diagnostic) (y : String) :
    (t.failField x why).isInvalid y = true ↔ y = x ∨ t.isInvalid y = true := by
  show ((Assoc.setNew x why t.invalid).lookup y).isSome = true ↔ _ ∨ (t.invalid.lookup y).isSome = true
  rw [Assoc.setNew]
  split
  · rename_i hx
    exact ⟨.inr, fun hy => hy.elim (fun heq => heq ▸ hx) id⟩
  · rw [lookup_append]
    by_cases h : y = x
    · simp [h]
    · simp [h, lookup_cons, beq_eq_false_iff_ne.2 h]

section

variable (h : t.Sifted p)

include h

theorem invalidate (hx : ¬ p.Founded (.named x none)) (why : Diagnostic) :
    Sifts p t (t.invalidate x why) :=
  h.mark hx rfl rfl rfl (isInvalid_invalidate t x why)

theorem setAlias (hn : p.Stands (.named x none) n) :
    Sifts p t { t with aliases := Assoc.set x n t.aliases } where
  sifted :=
    { h with
      stands := fun y m hm => by
        rw [Assoc.lookup_set] at hm
        split at hm
        · rename_i heq
          cases hm
          exact heq ▸ hn
        · exact h.stands y m hm }
  settled := fun y hy => hy.imp_left fun hsome => by
    rw [Assoc.lookup_set]
    split
    · rfl
    · exact hsome
  invalid := fun _ hy => hy

theorem setFields (hx : x ∈ p.structNames) (fields : List (String × TypeName))
    (hfields : (fields.map Prod.fst).Nodup ∧ ∀ g ∈ fields, p.HasField x g) :
    Sifts p t { t with structs := Assoc.set x fields t.structs } where
  sifted :=
    { h with
      keys := by rw [Assoc.keys_set_of_mem _ (h.keys ▸ hx), h.keys]
      fields := fun s hs => by
        rcases Assoc.mem_of_mem_set hs with hs | rfl
        · exact h.fields s hs
        · exact hfields }
  settled := fun _ hy => hy
  invalid := fun _ hy => hy

theorem clear (hr : p.Founded r) (hn : p.Stands r n) : t.Clear r n := by
  constructor
  · rintro x loc rfl
    by_contra hinvalid
    exact h.fails x (Bool.not_eq_false _ ▸ hinvalid) (hr.relocate none)
  · rintro z rfl
    by_contra hinvalid
    exact h.fails z (Bool.not_eq_false _ ▸ hinvalid) (hr.of_stands hn)

theorem not_founded_of_resolve
    (hsettled : ∀ d loc, .typedef d ∈ p.owned → r = .named d.name loc → t.Settled d.name)
    (hr : t.resolve r = .error why) : ¬ p.Founded r := by
  intro hfounded
  obtain ⟨n, hn⟩ := hfounded.exists_stands
  rw [(resolve_eq_ok_iff h.owned h.stands hsettled).2 ⟨hn, h.clear hfounded hn⟩] at hr
  cases hr

/-! ### Aliases -/

theorem alias?_eq_some {d : TypedefDecl} (hr : t.alias? r = some d) :
    .typedef d ∈ p.owned ∧ ∃ loc, r = .named d.name loc := by
  unfold alias? at hr
  split at hr
  · rename_i x loc
    split at hr
    · rename_i hlookup
      cases hr
      rw [h.owned, Program.lookup_named] at hlookup
      obtain ⟨hd, hx⟩ := hlookup
      cases hx
      exact ⟨hd, loc, rfl⟩
    · cases hr
  · cases hr

theorem alias?_named {d : TypedefDecl} (hd : .typedef d ∈ p.owned)
    (loc : Option Location) : t.alias? (.named d.name loc) = some d := by
  rw [alias?, h.owned, Program.lookup_named.2 ⟨hd, rfl⟩]

theorem settleAlias {d : TypedefDecl} (hd : .typedef d ∈ p.owned)
    (hsettled : ∀ target, t.alias? d.type = some target → t.Settled target.name) :
    Sifts p t (TypeTable.settleAlias d t) ∧ (TypeTable.settleAlias d t).Settled d.name := by
  have hfounded : p.Founded (.named d.name none) → p.Founded d.type := fun hn => hn.of_typedef hd
  rw [TypeTable.settleAlias]
  cases hfault : (t.alias? d.type).bind fun target => t.fault? target.name with
  | some why =>
    obtain ⟨target, htarget, hwhy⟩ := Option.bind_eq_some_iff.1 hfault
    obtain ⟨-, loc, htype⟩ := h.alias?_eq_some htarget
    refine ⟨h.invalidate (fun hn => ?_) why, settled_invalidate t _ why⟩
    refine h.fails target.name (by rw [isInvalid, hwhy]; rfl) ?_
    exact (htype ▸ hfounded hn).relocate none
  | none =>
    have htarget : ∀ target loc, .typedef target ∈ p.owned → d.type = .named target.name loc →
        t.Settled target.name :=
      fun target loc htarget htype => hsettled target (htype ▸ h.alias?_named htarget loc)
    dsimp only
    cases hresolve : t.resolve d.type with
    | ok n =>
      obtain ⟨hn, -⟩ := (resolve_eq_ok_iff h.owned h.stands htarget).1 hresolve
      refine ⟨h.setAlias (.typedef none hd rfl hn), .inl ?_⟩
      rw [Assoc.lookup_set_self]
      rfl
    | error why =>
      refine ⟨(h.invalidate (fun hn => ?_) why).record why, settled_invalidate t _ why⟩
      exact h.not_founded_of_resolve htarget hresolve (hfounded hn)

end

/-- One alias and those it waits for, which differ, so the fuel lasts; one that is met again is on a
cycle. -/
theorem elaborateAlias {names : List String} (hnames : ∀ d, .typedef d ∈ p.owned → d.name ∈ names)
    (fuel : Nat) : ∀ stack d t, t.Sifted p →
      .typedef d ∈ p.owned → stack.Nodup → (∀ x ∈ stack, x ∈ names) →
      (∀ x ∈ stack, TransGen p.Refers x d.name) → names.length < fuel + stack.length →
      Sifts p t (TypeTable.elaborateAlias fuel stack d t) ∧
        (TypeTable.elaborateAlias fuel stack d t).Settled d.name := by
  induction fuel with
  | zero =>
    intro stack d t _ _ hnodup hstack _ hfuel
    have hlength := Search.length_le_of_nodup hnodup hstack
    omega
  | succ fuel ih =>
    intro stack d t h hd hnodup hstack hchain hfuel
    rw [TypeTable.elaborateAlias]
    split
    · rename_i hdone
      rw [Bool.or_eq_true] at hdone
      exact ⟨.refl h, hdone⟩
    · split
      · rename_i hback
        refine ⟨(h.invalidate (fun hn => ?_) _).record _, settled_invalidate t _ _⟩
        obtain ⟨n, hn⟩ := hn.exists_stands
        exact hn.not_cyclic (hchain _ hback)
      · rename_i hnew
        split
        · rename_i target htarget
          obtain ⟨htarget', loc, htype⟩ := h.alias?_eq_some htarget
          have hstep : p.Refers d.name target.name := ⟨d, hd, rfl, loc, htype⟩
          have hdistinct : (stack ++ [d.name]).Nodup := concat_eq_append ▸ hnodup.concat hnew
          obtain ⟨hinner, hsettled⟩ := ih (stack ++ [d.name]) target t h htarget' hdistinct
            (forall_mem_append.2 ⟨hstack, by simpa using hnames d hd⟩)
            (forall_mem_append.2
              ⟨fun x hx => (hchain x hx).tail hstep, by simpa using TransGen.single hstep⟩)
            (by simp; omega)
          have houter := hinner.sifted.settleAlias hd fun target' htarget'' => ?_
          · exact ⟨hinner.trans houter.1, houter.2⟩
          · rw [htype, hinner.sifted.alias?_named htarget'] at htarget''
            cases htarget''
            exact hsettled
        · rename_i hnone
          exact h.settleAlias hd fun target htarget => by rw [hnone] at htarget; cases htarget

/-! ### Structs -/

end Sifted

theorem fields_of_set {fields : List (String × TypeName)}
    (h : t'.structs = Assoc.set x fields t.structs) (y : String) :
    t'.fields y = if y = x then fields else t.fields y := by
  rw [TypeTable.fields, h, Assoc.lookup_set]
  split <;> rfl

/-- A struct is invalid, or some of its fields have been elaborated in order. -/
def Filled (p : Program) (d : StructDecl) (l : List StructField) (t : TypeTable) : Prop :=
  t.isInvalid d.name = true ∨
    (l.map StructField.name).Nodup ∧ Forall₂ p.FieldStands l (t.fields d.name)

/-- A table is made from another by elaborating some fields of a struct in order. -/
structure Fills (p : Program) (d : StructDecl) (l : List StructField) (t t' : TypeTable) : Prop where
  sifts : Sifts p t t'
  known : ∀ g ∈ t'.fields d.name, ∃ f ∈ l, p.FieldStands f g
  filled : t'.Filled p d l
  others : ∀ y, y ≠ d.name → t'.fields y = t.fields y

/-- All aliases are settled, and the fields of all structs have been elaborated. -/
structure Elaborated (p : Program) (t : TypeTable) : Prop extends t.Sifted p where
  settled : ∀ d, .typedef d ∈ p.owned → t.Settled d.name
  filled : ∀ d, .struct d ∈ p.owned → t.Filled p d d.fields

theorem Filled.of_sifts (h : t.Filled p d d.fields) (hsifts : Sifts p t t')
    (hfields : t'.fields d.name = t.fields d.name) : t'.Filled p d d.fields :=
  h.imp (hsifts.invalid _) fun hall => ⟨hall.1, hfields ▸ hall.2⟩

section

variable (hsettled : ∀ d, .typedef d ∈ p.owned → t.Settled d.name) (hd : .struct d ∈ p.owned)

include hsettled hd

theorem Fills.elaborateField (h : Fills p d l t t') (hl : d.fields = l ++ f :: rest) :
    Fills p d (l ++ [f]) t (TypeTable.elaborateField d.name t' f) := by
  have ht := h.sifts.sifted
  have hdone : ∀ target loc, .typedef target ∈ p.owned → f.type = .named target.name loc →
      t'.Settled target.name := fun target _ htarget _ => h.sifts.settled _ (hsettled target htarget)
  have hf : f ∈ d.fields := hl ▸ mem_append_right _ mem_cons_self
  have hkeep : ∀ g ∈ t'.fields d.name, ∃ f' ∈ l ++ [f], p.FieldStands f' g := fun g hg =>
    (h.known g hg).imp fun _ hf' => ⟨mem_append_left _ hf'.1, hf'.2⟩
  have hfail : ∀ why, ¬ p.Founded (.named d.name none) →
      Fills p d (l ++ [f]) t (t'.failField d.name why) := fun why hn =>
    ⟨h.sifts.trans (ht.mark hn rfl rfl rfl (Sifted.isInvalid_failField t' d.name why)), hkeep,
      .inl ((Sifted.isInvalid_failField t' d.name why _).2 (.inl rfl)), h.others⟩
  unfold TypeTable.elaborateField
  split
  · rename_i hsome
    refine hfail _ fun hn => ?_
    obtain ⟨n, hlookup⟩ := Option.isSome_iff_exists.1 hsome
    obtain ⟨f', hf', hname, -⟩ := h.known _ (Assoc.mem_of_lookup hlookup)
    have hnodup := (hn.of_struct hd).1
    rw [hl, map_append, map_cons] at hnodup
    exact (nodup_append.1 hnodup).2.2 _ (mem_map_of_mem hf') _ mem_cons_self hname.symm
  · rename_i hnone
    have hnew : f.name ∉ (t'.fields d.name).map Prod.fst :=
      Assoc.lookup_eq_none_iff.1 (Option.not_isSome_iff_eq_none.1 hnone)
    split
    · rename_i n hn
      obtain ⟨hstands, -⟩ := (resolve_eq_ok_iff ht.owned ht.stands hdone).1 hn
      have hg : p.FieldStands f (f.name, n) := ⟨rfl, hstands⟩
      have hfields : ∀ y, TypeTable.fields { t' with structs := _ } y =
          if y = d.name then t'.fields d.name ++ [(f.name, n)] else t'.fields y := fields_of_set rfl
      obtain ⟨hdistinct, hall⟩ := ht.fields_of d.name
      refine ⟨h.sifts.trans (ht.setFields (Program.mem_structNames.2 ⟨d, hd, rfl⟩) _ ⟨?_, ?_⟩), ?_,
        h.filled.imp_right ?_, fun y hy => ((hfields y).trans (if_neg hy)).trans (h.others y hy)⟩
      · rw [map_append, map_singleton, ← concat_eq_append]
        exact hdistinct.concat hnew
      · exact forall_mem_append.2 ⟨hall, forall_mem_singleton.2 ⟨d, hd, rfl, f, hf, hg⟩⟩
      · rw [hfields, if_pos rfl]
        exact forall_mem_append.2 ⟨hkeep, forall_mem_singleton.2
          ⟨f, mem_append_right _ mem_cons_self, hg⟩⟩
      · rintro ⟨hnodup, hall⟩
        rw [hfields, if_pos rfl]
        refine ⟨?_, rel_append hall (.cons hg .nil)⟩
        rw [map_append, map_singleton, ← concat_eq_append]
        refine hnodup.concat fun hmem => hnew ?_
        obtain ⟨f', hf', hname'⟩ := mem_map.1 hmem
        obtain ⟨g, hmem, hname, -⟩ := exists_of_forall₂ hall hf'
        rw [← hname', ← hname]
        exact mem_map_of_mem hmem
    · rename_i why hwhy
      exact hfail why fun hn =>
        ht.not_founded_of_resolve hdone hwhy ((hn.of_struct hd).2 f hf)

theorem Sifted.elaborateStruct (h : t.Sifted p) :
    Fills p d d.fields t (TypeTable.elaborateStruct d t) := by
  have hrun : ∀ (rest l : List StructField) (t' : TypeTable), d.fields = l ++ rest →
      Fills p d l t t' → Fills p d d.fields t (rest.foldl (TypeTable.elaborateField d.name) t') := by
    intro rest
    induction rest with
    | nil =>
      intro l t' hl hfills
      rwa [hl, append_nil]
    | cons f rest ih =>
      intro l t' hl hfills
      exact ih (l ++ [f]) _ (by rw [hl, append_assoc]; rfl) (hfills.elaborateField hsettled hd hl)
  have hfields : ∀ y, TypeTable.fields { t with structs := _ } y =
      if y = d.name then [] else t.fields y := fields_of_set rfl
  have hempty := (hfields d.name).trans (if_pos rfl)
  refine hrun d.fields [] _ rfl ⟨h.setFields (Program.mem_structNames.2 ⟨d, hd, rfl⟩) []
    ⟨nodup_nil, nofun⟩, fun g hg => ?_, .inr ⟨nodup_nil, ?_⟩,
    fun y hy => (hfields y).trans (if_neg hy)⟩
  · rw [hempty] at hg
    cases hg
  · rw [hempty]
    exact .nil

end

/-! ### Invalid structs -/

theorem Sifted.contains (h : t.Sifted p) (hy : y ∈ t.contained x) : p.Contains x y := by
  obtain ⟨⟨name, n⟩, hg, hstruct⟩ := mem_filterMap.1 hy
  obtain ⟨d, hd, hname, f, hf, -, hstands⟩ := (h.fields_of _).2 _ hg
  cases n <;> cases hstruct
  exact ⟨d, hd, hname, f, hf, hstands⟩

theorem Sifted.mem_structNames (h : t.Sifted p) (hy : y ∈ t.contained x) :
    x ∈ p.structNames ∧ y ∈ p.structNames := by
  obtain ⟨d, hd, hname, f, -, hstands⟩ := h.contains hy
  exact ⟨Program.mem_structNames.2 ⟨d, hd, hname⟩, Program.mem_structNames.2 hstands.exists_struct⟩

def search (t : TypeTable) : Search.Trace String :=
  Search.explore t.contained (t.structs.map Prod.fst).length (t.structs.map Prod.fst)

theorem mem_recursiveStructs : x ∈ t.recursiveStructs ↔ ∃ l ∈ t.search.loops, x ∈ l.path := by
  simp [recursiveStructs, search, mem_flatMap]

theorem Sifted.explore_spec (h : t.Sifted p) :
    (Search.Sound t.contained [] t.search ∧ (∀ x ∈ t.structs.map Prod.fst, x ∈ t.search.done) ∧
      ∀ x ∈ t.search.done, ∃ y ∈ t.structs.map Prod.fst,
        ReflTransGen (Search.Edge t.contained) y x) ∧
    ∀ l ∈ t.search.loops, l.Within p.structNames := by
  have hclosed : ∀ x ∈ p.structNames, ∀ y ∈ t.contained x, y ∈ p.structNames :=
    fun x _ y hy => (h.mem_structNames hy).2
  have hroots : ∀ x ∈ t.structs.map Prod.fst, x ∈ p.structNames := fun x hx => h.keys ▸ hx
  have hfuel : p.structNames.length ≤ (t.structs.map Prod.fst).length :=
    Nat.le_of_eq (by rw [h.keys])
  exact ⟨Search.explore_spec hclosed hfuel hroots, Search.within_explore hclosed hroots _⟩

theorem Sifted.cyclic_of_recursive (h : t.Sifted p) (hx : x ∈ t.recursiveStructs) :
    TransGen p.Contains x x := by
  obtain ⟨l, hl, hx⟩ := mem_recursiveStructs.1 hx
  exact TransGen.mono (fun _ _ => h.contains) x x (Search.cyclic_explore _ _ l hl x hx)

theorem Sifted.not_founded_of_recursive (h : t.Sifted p) (hx : x ∈ t.recursiveStructs) :
    x ∈ p.structNames ∧ ¬ p.Founded (.named x none) := by
  have hcycle := h.cyclic_of_recursive hx
  obtain ⟨y, ⟨d, hd, hname, -⟩, -⟩ := TransGen.head'_iff.1 hcycle
  exact ⟨Program.mem_structNames.2 ⟨d, hd, hname⟩, fun hfounded => hfounded.not_cyclic hcycle⟩

theorem Elaborated.of_sifts (h : t.Elaborated p) (hsifts : Sifts p t t')
    (hfields : ∀ x, t'.isInvalid x = true ∨ t'.fields x = t.fields x) : t'.Elaborated p where
  toSifted := hsifts.sifted
  settled := fun d hd => hsifts.settled _ (h.settled d hd)
  filled := fun d hd => (hfields d.name).elim .inl ((h.filled d hd).of_sifts hsifts)

theorem Elaborated.rejectRecursive (h : t.Elaborated p) (place : String → Option Location)
    (hx : x ∈ p.structNames ∧ ¬ p.Founded (.named x none)) :
    (t.rejectRecursive place x).Elaborated p := by
  have hmark := h.invalidate hx.2 (.of (.recursiveStruct x) (place x))
  have hclear := (hmark.sifted.setFields hx.1 [] ⟨nodup_nil, nofun⟩).record
    (.of (.recursiveStruct x) (place x))
  refine h.of_sifts (hmark.trans hclear) fun y => ?_
  by_cases hy : y = x
  · exact .inl (hclear.invalid y ((Sifted.isInvalid_invalidate _ _ _ _).2 (.inl hy)))
  · exact .inr ((fields_of_set rfl y).trans (if_neg hy))

theorem exists_spreadTo (t : TypeTable) (x : String) :
    ∃ invalid, t.spreadTo x = { t with invalid } := by
  unfold spreadTo
  split
  · exact ⟨_, rfl⟩
  · split <;> exact ⟨_, rfl⟩

theorem structs_spreadTo (t : TypeTable) (x : String) : (t.spreadTo x).structs = t.structs := by
  obtain ⟨invalid, h⟩ := t.exists_spreadTo x
  rw [h]

theorem Elaborated.spreadTo (h : t.Elaborated p) (x : String) : (t.spreadTo x).Elaborated p ∧
    Sifts p t (t.spreadTo x) ∧
    ∀ y ∈ t.contained x, t.isInvalid y = true → (t.spreadTo x).isInvalid x = true := by
  have hsifts : Sifts p t (t.spreadTo x) ∧
      ∀ y ∈ t.contained x, t.isInvalid y = true → (t.spreadTo x).isInvalid x = true := by
    unfold TypeTable.spreadTo
    split
    · rename_i hinvalid
      exact ⟨.refl h.toSifted, fun _ _ _ => hinvalid⟩
    · split
      · rename_i why hwhy
        obtain ⟨y, hy, hfault⟩ := exists_of_findSome?_eq_some hwhy
        refine ⟨h.invalidate (fun hfounded => ?_) why,
          fun _ _ _ => (Sifted.isInvalid_invalidate _ _ _ _).2 (.inl rfl)⟩
        refine h.fails y ?_ (hfounded.of_contains (h.contains hy))
        rw [isInvalid, hfault]
        rfl
      · rename_i hnone
        refine ⟨.refl h.toSifted, fun y hy hinvalid => ?_⟩
        rw [isInvalid, findSome?_eq_none_iff.1 hnone y hy] at hinvalid
        cases hinvalid
  refine ⟨h.of_sifts hsifts.1 fun y => .inr ?_, hsifts⟩
  rw [TypeTable.fields, TypeTable.fields, structs_spreadTo]

/-- Spreading makes names invalid, and does nothing else. -/
theorem exists_spread (n : Nat) (t : TypeTable) : ∃ invalid, spread n t = { t with invalid } := by
  induction n generalizing t with
  | zero => exact ⟨_, rfl⟩
  | succ n ih =>
    obtain ⟨invalid, h⟩ := foldlRecOn (motive := fun t' : TypeTable => ∃ invalid, t' = { t with invalid })
      (t.structs.map Prod.fst) spreadTo ⟨t.invalid, rfl⟩ fun t' ht x _ => by
        obtain ⟨invalid, rfl⟩ := ht
        exact exists_spreadTo _ x
    rw [spread, h]
    exact ih _

theorem Elaborated.spreadTo_all (h : t.Elaborated p) (names : List String) :
    (names.foldl TypeTable.spreadTo t).Elaborated p ∧ Sifts p t (names.foldl TypeTable.spreadTo t) ∧
    ∀ x ∈ names, ∀ y ∈ t.contained x, t.isInvalid y = true →
      (names.foldl TypeTable.spreadTo t).isInvalid x = true := by
  induction names generalizing t with
  | nil => exact ⟨h, .refl h.toSifted, nofun⟩
  | cons x names ih =>
    obtain ⟨hfirst, hsifts, hmark⟩ := h.spreadTo x
    obtain ⟨hrest, hsifts', hmarks⟩ := ih hfirst
    refine ⟨hrest, hsifts.trans hsifts', forall_mem_cons.2 ⟨fun y hy hinvalid => ?_, ?_⟩⟩
    · exact hsifts'.invalid x (hmark y hy hinvalid)
    · intro x' hx' y hy hinvalid
      refine hmarks x' hx' y ?_ (hsifts.invalid y hinvalid)
      rwa [contained, TypeTable.fields, structs_spreadTo]

theorem Elaborated.spread (h : t.Elaborated p) (n : Nat) : (t.spread n).Elaborated p := by
  induction n generalizing t with
  | zero => exact h
  | succ n ih => exact ih (h.spreadTo_all _).1

end TypeTable

/-! ### Programs -/

namespace Program

variable (p : Program)

def aliasTable : TypeTable :=
  p.ownedTypedefs.foldl (fun t d => elaborateAlias (p.ownedTypedefs.length + 1) [] d t)
    ⟨p.named, [], p.ownedStructs.map fun d => (d.name, []), [], []⟩

def filledTable : TypeTable :=
  p.ownedStructs.foldl (fun t d => elaborateStruct d t) p.aliasTable

def acyclicTable : TypeTable :=
  p.filledTable.recursiveStructs.foldl (rejectRecursive p.structPlace) p.filledTable

theorem typeTable_eq : p.typeTable = p.acyclicTable.spread p.ownedStructs.length := rfl

theorem sifted_aliasTable : p.aliasTable.Sifted p ∧
    ∀ d, .typedef d ∈ p.owned → p.aliasTable.Settled d.name := by
  have hnames : ∀ d, .typedef d ∈ p.owned → d.name ∈ p.ownedTypedefs.map TypedefDecl.name :=
    fun d hd => mem_map_of_mem (mem_ownedTypedefs.2 hd)
  have hrun : ∀ (l : List TypedefDecl) (t : TypeTable), (∀ d ∈ l, .typedef d ∈ p.owned) →
      t.Sifted p →
      let t' := l.foldl
        (fun t d => elaborateAlias (p.ownedTypedefs.length + 1) [] d t) t
      TypeTable.Sifts p t t' ∧ ∀ d ∈ l, t'.Settled d.name := by
    intro l
    induction l with
    | nil => exact fun t _ ht => ⟨.refl ht, nofun⟩
    | cons d l ih =>
      intro t hl ht
      obtain ⟨hd, hl⟩ := forall_mem_cons.1 hl
      obtain ⟨hfirst, hsettled⟩ := ht.elaborateAlias hnames (p.ownedTypedefs.length + 1) [] d t hd
        nodup_nil (by simp) (by simp) (by simp)
      obtain ⟨hrest, hall⟩ := ih _ hl hfirst.sifted
      exact ⟨hfirst.trans hrest, forall_mem_cons.2 ⟨hrest.settled _ hsettled, hall⟩⟩
  have hstart : TypeTable.Sifted p
      ⟨p.named, [], p.ownedStructs.map fun d => (d.name, []), [], []⟩ := by
    refine ⟨rfl, by simp [structNames], by simp, ?_, ?_⟩ <;>
      simp [isInvalid, fault?]
  obtain ⟨hsifts, hsettled⟩ := hrun p.ownedTypedefs _ (fun d hd => mem_ownedTypedefs.1 hd) hstart
  exact ⟨hsifts.sifted, fun d hd => hsettled d (mem_ownedTypedefs.2 hd)⟩

theorem elaborated_filledTable : p.filledTable.Elaborated p := by
  have hrun : ∀ (l : List StructDecl) (t : TypeTable), (∀ d ∈ l, .struct d ∈ p.owned) →
      t.Sifted p → (∀ d, .typedef d ∈ p.owned → t.Settled d.name) →
      let t' := l.foldl (fun t d => elaborateStruct d t) t
      TypeTable.Sifts p t t' ∧ ∀ d, .struct d ∈ p.owned → d ∈ l ∨ t.Filled p d d.fields →
        t'.Filled p d d.fields := by
    intro l
    induction l with
    | nil => exact fun t _ ht _ => ⟨.refl ht, fun d _ hd => hd.resolve_left not_mem_nil⟩
    | cons d l ih =>
      intro t hl ht hsettled
      obtain ⟨hd, hl⟩ := forall_mem_cons.1 hl
      obtain ⟨hfirst, -, hfilled, hothers⟩ := ht.elaborateStruct hsettled hd
      obtain ⟨hrest, hall⟩ := ih _ hl hfirst.sifted fun d hd => hfirst.settled _ (hsettled d hd)
      refine ⟨hfirst.trans hrest, fun d' hd' hcase => hall d' hd' ?_⟩
      by_cases hname : d'.name = d.name
      · exact .inr (struct_unique hd hd' hname.symm ▸ hfilled)
      · refine hcase.imp (fun hmem => (mem_cons.1 hmem).resolve_left fun heq => ?_) fun hdone => ?_
        · exact hname (congrArg StructDecl.name heq)
        · exact hdone.of_sifts hfirst (hothers _ hname)
  obtain ⟨hstart, hsettled⟩ := p.sifted_aliasTable
  obtain ⟨hsifts, hall⟩ := hrun p.ownedStructs _ (fun d hd => mem_ownedStructs.1 hd) hstart hsettled
  exact ⟨hsifts.sifted, fun d hd => hsifts.settled _ (hsettled d hd),
    fun d hd => hall d hd (.inl (mem_ownedStructs.2 hd))⟩

theorem elaborated_acyclicTable : p.acyclicTable.Elaborated p :=
  List.foldlRecOn (motive := TypeTable.Elaborated p) _ _ p.elaborated_filledTable
    fun _ ht _ hx => ht.rejectRecursive _ (p.elaborated_filledTable.not_founded_of_recursive hx)

theorem elaborated_typeTable : p.typeTable.Elaborated p := p.elaborated_acyclicTable.spread _

end Program

end ControlReach
