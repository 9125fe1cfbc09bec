import ControlReach.Proofs.Unknown

/-!
# Joins

Definitions say of each edge into a block: if it is selected, it is open, and the joined store has
its values. What is joined is determined by its unknowns.
-/

namespace ControlReach

open List SymValue

variable {v : Valuation String} {types : Nat → Ty}

/-! ### Selected edges -/

variable {ty : Ty} {t : Term} {β α : Type} {w : SymValue}

theorem holds_selected {δ : Type} [DecidableEq δ] {denote : String → δ} {v : Valuation δ}
    {sel : Term} : (selected sel t).holds denote v = true ↔
      (sel.holds denote v = true → t.holds denote v = true) := by
  rw [selected, Term.holds_mkOr_pair, Term.holds_mkNot]
  cases sel.holds denote v <;> simp

theorem formula_selected {sel : Term} (hsel : sel.Formula) (ht : t.Formula) :
    (selected sel t).Formula :=
  .mkOr (by simp [hsel.mkNot, ht])

theorem forall_mem_zipWith {γ : Type} {f : α → β → γ} {as : List α} {bs : List β} {P : γ → Prop} :
    (∀ c ∈ zipWith f as bs, P c) ↔ ∀ p ∈ as.zip bs, P (f p.1 p.2) := by
  induction as generalizing bs with
  | nil => simp
  | cons a as ih => cases bs <;> simp [ih]

theorem forall_mem_zip_congr {γ : Type} {R : β → γ → Prop} {P : α → β → Prop} {Q : α → γ → Prop}
    {bs : List β} {cs : List γ} (h : Forall₂ R bs cs) (hiff : ∀ a b c, R b c → (P a b ↔ Q a c))
    (as : List α) : (∀ p ∈ as.zip bs, P p.1 p.2) ↔ ∀ p ∈ as.zip cs, Q p.1 p.2 := by
  induction h generalizing as with
  | nil => simp
  | cons hbc _ ih =>
    cases as with
    | nil => simp
    | cons a as =>
      rw [zip_cons_cons, zip_cons_cons, forall_mem_cons, forall_mem_cons, ih]
      exact and_congr_left fun _ => hiff a _ _ hbc

theorem holds_mergeDefinitions (joined : Term) (selectors : List Term) {values : List Term}
    (hs : ∀ t ∈ values, joined.sort = t.sort) :
    (∀ t ∈ mergeDefinitions joined selectors values, t.holds id v = true) ↔
      ∀ p ∈ selectors.zip values, p.1.holds id v = true → joined.datum v = p.2.datum v := by
  rw [mergeDefinitions, forall_mem_zipWith]
  refine forall₂_congr fun p hp => ?_
  rw [holds_selected, Term.holds_mkEq_iff (hs _ (of_mem_zip hp).2)]

theorem formula_mergeDefinitions {joined : Term} {selectors values : List Term}
    (hsel : ∀ t ∈ selectors, t.Formula) (hj : joined.WellSorted)
    (hs : ∀ t ∈ values, joined.sort = t.sort ∧ t.WellSorted) :
    ∀ t ∈ mergeDefinitions joined selectors values, t.Formula := by
  rw [mergeDefinitions, forall_mem_zipWith]
  intro p hp
  obtain ⟨hp, hq⟩ := of_mem_zip hp
  exact formula_selected (hsel _ hp) (.mkEq (hs _ hq).1 hj (hs _ hq).2)

/-! ### Values -/

namespace SymValue

theorem hasType_symbol (name : String) (h : (term t).HasType ty) :
    (term (.symbol ⟨name, t.sort⟩)).HasType ty := by
  cases ty with
  | bool => exact ⟨h.1, trivial⟩
  | string => exact h
  | struct => exact h.elim

theorem eq_of_lookup {as bs : List (String × β)} (hkeys : as.map Prod.fst = bs.map Prod.fst)
    (hn : (bs.map Prod.fst).Nodup) (h : ∀ q ∈ as, bs.lookup q.1 = some q.2) : as = bs := by
  refine ext_getElem (by simpa using congrArg length hkeys) fun i hi hi' => ?_
  have hkey : as[i].1 = bs[i].1 := by simpa [hi, hi'] using congrArg (·[i]?) hkeys
  exact inj_on_of_nodup_map hn (Assoc.mem_of_lookup (h _ (getElem_mem hi))) (getElem_mem hi') hkey

theorem struct_datum_eq_iff {fields : List (String × SymValue)} {ds : List (String × Datum)}
    (hkeys : fields.map Prod.fst = ds.map Prod.fst) (hn : (ds.map Prod.fst).Nodup) :
    (struct fields).datum v = .struct ds ↔
      ∀ q ∈ fields, (Datum.struct ds).get? q.1 = some (q.2.datum v) := by
  rw [datum, Datum.struct.injEq, data_eq_map]
  constructor
  · rintro rfl q hq
    exact Assoc.lookup_of_mem hn (mem_map.2 ⟨q, hq, rfl⟩)
  · intro h
    refine eq_of_lookup (by rw [map_map]; exact hkeys) hn fun q hq => ?_
    obtain ⟨p, hp, rfl⟩ := mem_map.1 hq
    exact h p hp

theorem names_data (fields : List (String × SymValue)) :
    (data v fields).map Prod.fst = fields.map Prod.fst := by
  rw [data_eq_map, map_map]
  rfl

theorem exists_get {tys : List (String × Ty)} {f : String} (h : w.HasType (.struct name tys))
    (hf : tys.lookup f = some ty) : ∃ u, w.get f = .ok u := by
  obtain ⟨fields, rfl, hfields⟩ := h.of_struct
  obtain ⟨u, hu, -⟩ := hfields.lookup hf
  exact ⟨u, by rw [get]; simp only [hu]⟩

theorem HasType.exists_term (ht : (term t).HasType ty) (h : w.HasType ty) : ∃ t', .term t' = w := by
  cases w with
  | term t' => exact ⟨t', rfl⟩
  | struct fields =>
    cases ty with
    | bool | string => exact h.elim
    | struct => exact ht.elim

end SymValue

theorem merge_same {others : List SymValue} (h : (others.all fun o => first = o) = true) :
    ∀ u ∈ first :: others, first = u := by
  intro u hu
  rcases mem_cons.1 hu with rfl | hu
  · rfl
  · simpa using all_eq_true.1 h u hu

theorem mapM_scalar (ts : List Term) : (ts.map term).mapM scalar = .ok ts := by
  rw [mapM_eq_ok, forall₂_map_left_iff]
  exact forall₂_same.2 fun _ _ => rfl

theorem exists_forall₂ {R : α → β → Prop} {l : List α} (h : ∀ a ∈ l, ∃ b, R a b) :
    ∃ bs, Forall₂ R l bs := by
  induction l with
  | nil => exact ⟨[], .nil⟩
  | cons a l ih =>
    obtain ⟨⟨b, hb⟩, hl⟩ := forall_mem_cons.1 h
    obtain ⟨bs, hbs⟩ := ih hl
    exact ⟨b :: bs, .cons hb hbs⟩

theorem Ty.Distinct.lookup {tys : List (String × Ty)} (h : (Ty.struct name tys).Distinct) :
    ∀ q ∈ tys, tys.lookup q.1 = some q.2 :=
  fun _ hq => Assoc.lookup_of_mem h.1 hq

theorem mapM_get_spec {os us : List SymValue} {all : List (String × Ty)} {f : String}
    (hos : ∀ o ∈ os, o.HasType (.struct name all)) (hf : all.lookup f = some ty)
    (h : Forall₂ (fun o u => o.get f = .ok u) os us) : (∀ u ∈ us, u.HasType ty) ∧
      ∀ v, Forall₂ (fun o u => (o.datum v).get? f = some (u.datum v)) os us := by
  induction h with
  | nil => simp
  | cons hget _ ih =>
    obtain ⟨ho, hos⟩ := forall_mem_cons.1 hos
    obtain ⟨hus, hvals⟩ := ih hos
    obtain ⟨hu, hval⟩ := get_spec ho hf hget
    exact ⟨forall_mem_cons.2 ⟨hu, hus⟩, fun v => .cons (hval v) (hvals v)⟩

/-- A value joined from others, with its definitions, at a place of some datum. -/
structure Merged (selectors : List Term) (values : List SymValue) (ty : Ty)
    (unknowns : List String → List (List String × Symbol)) (w : SymValue) (defs : List Term) :
    Prop where
  hasType : w.HasType ty
  formulas : ∀ t ∈ defs, t.Formula
  /-- The definitions say that the joined value is that of each selected edge. -/
  holds_iff : ∀ v, (∀ t ∈ defs, t.holds id v = true) ↔
    ∀ p ∈ selectors.zip values, p.1.holds id v = true → w.datum v = p.2.datum v
  /-- The joined value is one of the values if its unknowns have the leaves of that. -/
  determined : ∀ v root path, ∀ u ∈ values, root.at? path = some (u.datum v) →
    v.Fits (unknowns path) root → w.datum v = u.datum v

/-- The fields of a value joined from others, with their definitions. -/
structure MergedFields (selectors : List Term) (values : List SymValue) (tys : List (String × Ty))
    (unknowns : List String → List (List String × Symbol)) (ws : List (String × SymValue))
    (defs : List Term) : Prop where
  haveTypes : SymValue.HaveTypes ws tys
  formulas : ∀ t ∈ defs, t.Formula
  holds_iff : ∀ v, (∀ t ∈ defs, t.holds id v = true) ↔
    ∀ p ∈ selectors.zip values, p.1.holds id v = true →
      ∀ q ∈ ws, (p.2.datum v).get? q.1 = some (q.2.datum v)
  determined : ∀ v root path, ∀ u ∈ values, root.at? path = some (u.datum v) →
    v.Fits (unknowns path) root → ∀ q ∈ ws, (u.datum v).get? q.1 = some (q.2.datum v)

theorem Merged.same {others : List SymValue} (h : (others.all fun o => first = o) = true)
    (hfirst : first.HasType ty) : Merged selectors (first :: others) ty unknowns first [] where
  hasType := hfirst
  formulas := by simp
  holds_iff v := ⟨fun _ p hp _ => by rw [merge_same h _ (of_mem_zip hp).2], by simp⟩
  determined v root path u hu _ _ := by rw [merge_same h u hu]

mutual

/-- Values of one type can be joined. -/
theorem merge_spec : ∀ name selectors first others ty, (∀ t ∈ selectors, t.Formula) →
    (∀ o ∈ first :: others, o.HasType ty) → ty.Distinct →
    ∃ w defs, merge name selectors first others = .ok (w, defs) ∧
      Merged selectors (first :: others) ty (mergeUnknowns name · first others) w defs
  | name, selectors, .term t, others, ty, hsel, hall, _ => by
    obtain ⟨hfirst, hothers⟩ := forall_mem_cons.1 hall
    rw [merge]
    split
    · rename_i hsame
      exact ⟨_, _, rfl, .same hsame hfirst⟩
    · rename_i hsame
      obtain ⟨ts, hts⟩ := exists_forall₂ fun o ho => hfirst.exists_term (hothers o ho)
      obtain rfl : ts.map SymValue.term = others := by
        rw [← forall₂_eq_eq_eq, forall₂_map_left_iff]
        exact hts.flip
      have hts : ∀ u ∈ t :: ts, (SymValue.term u).HasType ty := by
        rwa [← forall_mem_map (f := SymValue.term) (P := (SymValue.HasType · ty))]
      have hsort : ∀ u ∈ t :: ts, t.sort = u.sort := fun u hu =>
        hfirst.sort.trans (hts u hu).sort.symm
      refine ⟨_, _, bind_eq_ok.2 ⟨ts, mapM_scalar ts, rfl⟩, SymValue.hasType_symbol name hfirst,
        formula_mergeDefinitions hsel trivial fun u hu => ⟨hsort u hu, (hts u hu).wellSorted⟩,
        fun v => ?_, fun v root path u hu hat hfit => ?_⟩
      · rw [holds_mergeDefinitions (.symbol ⟨name, t.sort⟩) selectors hsort, ← map_cons,
          zip_map_right, forall_mem_map]
        rfl
      · rw [mergeUnknowns, if_neg hsame] at hfit
        rw [← map_cons] at hu
        obtain ⟨t', ht', rfl⟩ := mem_map.1 hu
        refine hfit _ mem_cons_self _ hat ?_
        rw [hsort t' ht']
        exact Term.sort?_datum t' v
  | name, selectors, .struct fields, others, .struct sname tys, hsel, hall, hd => by
    have hfirst : SymValue.HaveTypes fields tys := hall _ mem_cons_self
    rw [merge]
    split
    · rename_i hsame
      exact ⟨_, _, rfl, .same hsame hfirst⟩
    · rename_i hsame
      have hn : (fields.map Prod.fst).Nodup := by rw [hfirst.names]; exact hd.1
      obtain ⟨ws, defs, hfields, hmerged⟩ := mergeFields_spec name selectors fields others
        (.struct fields) sname tys tys hsel hall hfirst hd.lookup
        (fun q hq => by rw [SymValue.get]; simp only [Assoc.lookup_of_mem hn hq]) hd.2
      have hdatum : ∀ v, ∀ u ∈ SymValue.struct fields :: others,
          ((SymValue.struct ws).datum v = u.datum v ↔
            ∀ q ∈ ws, (u.datum v).get? q.1 = some (q.2.datum v)) := by
        intro v u hu
        obtain ⟨fs, rfl, hfs⟩ := (hall u hu).of_struct
        refine SymValue.struct_datum_eq_iff ?_ ?_
        · rw [SymValue.names_data, hmerged.haveTypes.names, hfs.names]
        · rw [SymValue.names_data, hfs.names]
          exact hd.1
      refine ⟨_, _, bind_eq_ok.2 ⟨_, hfields, rfl⟩, hmerged.haveTypes, hmerged.formulas,
        fun v => ?_, fun v root path u hu hat hfit => ?_⟩
      · exact (hmerged.holds_iff v).trans
          (forall₃_congr fun p hp _ => (hdatum v _ (of_mem_zip hp).2).symm)
      · rw [mergeUnknowns, if_neg hsame] at hfit
        exact (hdatum v u hu).2 (hmerged.determined v root path u hu hat hfit)
  | _, _, .struct _, _, .bool, _, hall, _ | _, _, .struct _, _, .string, _, hall, _ =>
    (hall _ mem_cons_self).elim

theorem mergeFields_spec : ∀ name selectors fields others whole sname all tys,
    (∀ t ∈ selectors, t.Formula) →
    (∀ o ∈ whole :: others, o.HasType (.struct sname all)) → SymValue.HaveTypes fields tys →
    (∀ q ∈ tys, all.lookup q.1 = some q.2) → (∀ q ∈ fields, whole.get q.1 = .ok q.2) →
    Ty.DistinctFields tys → ∃ ws defs, mergeFields name selectors fields others = .ok (ws, defs) ∧
      MergedFields selectors (whole :: others) tys (mergeUnknownsOf name · fields others) ws defs
  | _, _, [], _, _, _, _, [], _, _, _, _, _, _ =>
    ⟨[], [], by rw [mergeFields], trivial, by simp, by simp, by simp⟩
  | name, selectors, (f, u) :: fields, others, whole, sname, all, (_, ty) :: tys, hsel, hothers,
      hfields, hall, hwhole, hd => by
    obtain ⟨rfl, -, hfields⟩ := hfields
    obtain ⟨hf, hall⟩ := forall_mem_cons.1 hall
    obtain ⟨hget, hwhole⟩ := forall_mem_cons.1 hwhole
    obtain ⟨us, hus⟩ := exists_forall₂ fun o ho =>
      exists_get (hothers o (mem_cons_of_mem _ ho)) hf
    obtain ⟨hty, hvals⟩ := mapM_get_spec hothers hf (.cons hget hus)
    obtain ⟨w, here, hmerge, hw⟩ := merge_spec (name ++ "." ++ f) selectors u us ty hsel hty hd.1
    obtain ⟨rest, there, hrest, hws⟩ := mergeFields_spec name selectors fields others whole sname
      all tys hsel hothers hfields hall hwhole hd.2
    replace hus := mapM_eq_ok.2 hus
    refine ⟨(f, w) :: rest, here ++ there, ?_, ⟨rfl, hw.hasType, hws.haveTypes⟩,
      forall_mem_append.2 ⟨hw.formulas, hws.formulas⟩, fun v => ?_,
      fun v root path o ho hat hfit => ?_⟩
    · rw [mergeFields]
      exact bind_eq_ok.2 ⟨us, hus, bind_eq_ok.2 ⟨_, hmerge, bind_eq_ok.2 ⟨_, hrest, rfl⟩⟩⟩
    · have hfield := forall_mem_zip_congr (hvals v)
        (P := fun sel o => sel.holds id v = true → (o.datum v).get? f = some (w.datum v))
        (Q := fun sel u => sel.holds id v = true → w.datum v = u.datum v)
        (fun sel o u hou => by rw [hou, Option.some.injEq]; exact imp_congr_right fun _ => eq_comm)
        selectors
      rw [forall_mem_append, hw.holds_iff, hws.holds_iff, ← hfield, ← forall₂_and]
      refine forall₂_congr fun p _ => ?_
      rw [forall_mem_cons]
      tauto
    · rw [mergeUnknownsOf, hus] at hfit
      obtain ⟨hhere, hthere⟩ := forall_mem_append.1 hfit
      obtain ⟨y, hy, hval⟩ := exists_of_forall₂ (hvals v) ho
      have hat' : root.at? (path ++ [f]) = some (y.datum v) := by
        rw [Datum.at?_append, hat]
        exact hval
      refine forall_mem_cons.2 ⟨?_, hws.determined v root path o ho hat hthere⟩
      rw [hw.determined v root _ y hy hat' hhere]
      exact hval
  | _, _, _ :: _, _, _, _, _, [], _, _, h, _, _, _
  | _, _, [], _, _, _, _, _ :: _, _, _, h, _, _, _ => h.elim

end

/-! ### Stores -/

def Store.Matches (s o : Store) (v : Valuation String) : Prop :=
  ∀ q ∈ s, ∃ e ∈ o, e.1 = q.1 ∧ q.2.2.datum v = e.2.2.datum v

namespace Store

variable {s : Store}

theorem Matches.describes (h : s.Matches o v) (ho : o.Describes v σ) : s.Describes v σ := by
  intro q hq
  obtain ⟨e, he, heq, hval⟩ := h q hq
  rw [← heq, hval]
  exact ho e he

theorem Describes.matches (hs : s.Describes v σ) (ho : o.Describes v σ)
    (h : ∀ q ∈ s, ∃ e ∈ o, e.1 = q.1) : s.Matches o v := by
  intro q hq
  obtain ⟨e, he, heq⟩ := h q hq
  refine ⟨e, he, heq, ?_⟩
  rw [← Option.some.injEq, ← hs q hq, ← ho e he, heq]

theorem value_iff (h : s.Typed types) : s.value? x = some w ↔ ∃ y, (x.uid, y, w) ∈ s := by
  refine ⟨mem_of_value, ?_⟩
  rintro ⟨y, hy⟩
  rw [value?, Assoc.lookup_of_mem h.nodup hy, Option.map_some]

end Store

theorem values_spec (hos : ∀ o ∈ os, o.Typed types)
    (h : Forall₂ (fun o u => o.value? x = some u) os us) :
    (∀ u ∈ us, u.HasType (types x.uid)) ∧ (∀ o ∈ os, ∃ e ∈ o, e.1 = x.uid) ∧
      ∀ v w, Forall₂ (fun (o : Store) u =>
        (∃ e ∈ o, e.1 = x.uid ∧ w = e.2.2.datum v) ↔ w = u.datum v) os us := by
  induction h with
  | nil => simp
  | @cons o u os us hou _ ih =>
    obtain ⟨ho, hos⟩ := forall_mem_cons.1 hos
    obtain ⟨hus, hheld, hvals⟩ := ih hos
    obtain ⟨y, hy⟩ := Store.mem_of_value hou
    refine ⟨forall_mem_cons.2 ⟨ho.value hou, hus⟩,
      forall_mem_cons.2 ⟨⟨_, hy, rfl⟩, hheld⟩, fun v w => .cons ⟨?_, ?_⟩ (hvals v w)⟩
    · rintro ⟨⟨n, z, u'⟩, he, rfl, rfl⟩
      obtain rfl : u' = u :=
        Option.some.inj (((Store.value_iff ho).2 ⟨z, he⟩).symm.trans hou)
      rfl
    · rintro rfl
      exact ⟨_, hy, rfl, rfl⟩

/-- A store joined from others, with its definitions, from some variable on. -/
structure Store.Merged (types : Nat → Ty) (block : BlockId) (selectors : List Term) (whole : Store)
    (others : List Store) (first s : Store) (defs : List Term) : Prop where
  typed : s.Typed types
  keys : (s.map Prod.fst).Sublist (first.map Prod.fst)
  held : ∀ o ∈ whole :: others, ∀ q ∈ s, ∃ e ∈ o, e.1 = q.1
  kept : ∀ x : Variable, x.uid ∈ first.map Prod.fst → (∀ o ∈ others, ∃ w, o.value? x = some w) →
    x.uid ∈ s.map Prod.fst
  formulas : ∀ t ∈ defs, t.Formula
  /-- The definitions say that the joined values are those of each selected edge. -/
  holds_iff : ∀ v, (∀ t ∈ defs, t.holds id v = true) ↔
    ∀ p ∈ selectors.zip (whole :: others), p.1.holds id v = true → s.Matches p.2 v
  determined : ∀ v m σ, (∀ uid path, m (.joined block uid path) =
    (σ uid).bind fun d => d.at? path) → v.Agrees m (storeUnknowns block others first) →
    ∀ o ∈ whole :: others, o.Describes v σ → s.Describes v σ

/-- Typed stores can be joined. -/
theorem mergeStores_spec (block : BlockId) {selectors : List Term} {whole : Store}
    {others : List Store} (hdist : ∀ n, (types n).Distinct) (hsel : ∀ t ∈ selectors, t.Formula)
    (hall : ∀ o ∈ whole :: others, o.Typed types) {first : Store} (hsub : first.Sublist whole) :
    ∃ s defs, mergeStores block selectors others first = .ok (s, defs) ∧
      Store.Merged types block selectors whole others first s defs := by
  induction first with
  | nil =>
    refine ⟨[], [], by rw [mergeStores], Store.typed_nil types, by simp, by simp, by simp, by simp,
      fun v => ?_, fun v _ σ _ _ _ _ _ => Store.describes_nil v σ⟩
    simp [Store.Matches]
  | cons q rest ih =>
    obtain ⟨uid, x, w⟩ := q
    have hq : (uid, x, w) ∈ whole := hsub.subset mem_cons_self
    have hwhole := hall whole mem_cons_self
    obtain rfl : x.uid = uid := hwhole.uid _ hq
    obtain ⟨s, defs, hrest, hs⟩ := ih ((sublist_cons_self _ _).trans hsub)
    cases hvalues : others.mapM fun o => o.value? x with
    | none =>
      refine ⟨s, defs, by rw [mergeStores, hvalues]; exact hrest, hs.typed, hs.keys.cons _, hs.held,
        fun y hy hheld => ?_, hs.formulas, hs.holds_iff, fun v m σ hm hv =>
          hs.determined v m σ hm (forall_mem_append.1 hv).2⟩
      rcases mem_cons.1 hy with huid | hy
      · -- All stores hold the variable, so its values are there.
        obtain ⟨us, hus⟩ := exists_forall₂ hheld
        simp only [Store.value?, show y.uid = x.uid from huid] at hus
        cases hvalues.symm.trans (mapM_eq_some.2 hus)
      · exact hs.kept y hy hheld
    | some us =>
      have hvals := Forall₂.cons (R := fun (o : Store) u => o.value? x = some u)
        ((Store.value_iff hwhole).2 ⟨x, hq⟩) (mapM_eq_some.1 hvalues)
      obtain ⟨hus, hheld, hiff⟩ := values_spec hall hvals
      obtain ⟨w', here, hmerge, hw⟩ := merge_spec (x.display ++ "@join" ++ toString block) selectors
        w us _ hsel hus (hdist _)
      have hnot : x.uid ∉ s.map Prod.fst := fun hmem =>
        (nodup_cons.1 (hwhole.nodup.sublist (hsub.map Prod.fst))).1 (hs.keys.subset hmem)
      refine ⟨(x.uid, x, w') :: s, here ++ defs, ?_,
        ⟨nodup_cons.2 ⟨hnot, hs.typed.nodup⟩, forall_mem_cons.2 ⟨rfl, hs.typed.uid⟩,
          forall_mem_cons.2 ⟨hw.hasType, hs.typed.hasType⟩⟩, hs.keys.cons_cons _,
        fun o ho => forall_mem_cons.2 ⟨hheld o ho, hs.held o ho⟩, fun y hy hheld => ?_,
        forall_mem_append.2 ⟨hw.formulas, hs.formulas⟩, fun v => ?_, fun v m σ hm hv o ho hσ => ?_⟩
      · rw [mergeStores, hvalues]
        exact bind_eq_ok.2 ⟨_, hmerge, bind_eq_ok.2 ⟨_, hrest, rfl⟩⟩
      · rw [map_cons, mem_cons] at hy ⊢
        exact hy.imp_right fun hy => hs.kept y hy hheld
      · have hvar := forall_mem_zip_congr (hiff v (w'.datum v))
          (P := fun sel (o : Store) => sel.holds id v = true →
            ∃ e ∈ o, e.1 = x.uid ∧ w'.datum v = e.2.2.datum v)
          (Q := fun sel u => sel.holds id v = true → w'.datum v = u.datum v)
          (fun sel o u hou => imp_congr_right fun _ => hou) selectors
        rw [forall_mem_append, hw.holds_iff, hs.holds_iff, ← hvar, ← forall₂_and]
        refine forall₂_congr fun p _ => ?_
        rw [Store.Matches, Store.Matches, forall_mem_cons, imp_and]
      · obtain ⟨hhere, hthere⟩ := forall_mem_append.1 hv
        simp only [hvalues, forall_mem_map] at hhere
        obtain ⟨u, hu, hou⟩ := exists_of_forall₂ hvals ho
        have hroot : σ x.uid = some (u.datum v) := hσ.value hou
        refine forall_mem_cons.2 ⟨?_, hs.determined v m σ hm hthere o ho hσ⟩
        rw [hroot, hw.determined v (u.datum v) [] u hu rfl]
        intro p hp leaf hleaf hsort
        refine hhere p hp leaf ?_ hsort
        rw [hm, hroot]
        exact hleaf

/-! ### The join -/

def Arrival.Typed (a : Arrival) (types : Nat → Ty) : Prop :=
  a.condition.Formula ∧ a.store.Typed types

def selectors (block : BlockId) (n : Nat) : List Term := (range n).map (selector block)

theorem formula_selectors (block : BlockId) (n : Nat) : ∀ t ∈ selectors block n, t.Formula := by
  simp only [selectors, forall_mem_map]
  exact fun i _ => Term.formula_flag _

/-- Where several edges meet: some edge is selected, a selected edge is open and has the joined
values. -/
structure Arrival.Joins (types : Nat → Ty) (block : BlockId) (arrivals : List Arrival)
    (a : Arrival) (defs : List Term) : Prop where
  two_le : 2 ≤ arrivals.length
  condition : a.condition = Term.mkOr (selectors block arrivals.length)
  typed : a.Typed types
  formulas : ∀ t ∈ defs, t.Formula
  held : ∀ b ∈ arrivals, ∀ q ∈ a.store, ∃ e ∈ b.store, e.1 = q.1
  holds_iff : ∀ v, (∀ t ∈ defs, t.holds id v = true) ↔
    ∀ p ∈ (selectors block arrivals.length).zip arrivals, p.1.holds id v = true →
      p.2.condition.holds id v = true ∧ a.store.Matches p.2.store v
  determined : ∀ v m σ, (∀ uid path, m (.joined block uid path) =
    (σ uid).bind fun d => d.at? path) → v.Agrees m (joinUnknowns block arrivals) →
    ∀ b ∈ arrivals, b.store.Describes v σ → a.store.Describes v σ

theorem join_spec {a : Arrival} (hdist : ∀ n, (types n).Distinct)
    (hall : ∀ b ∈ arrivals, b.Typed types) (h : join block arrivals = .ok (some (a, defs))) :
    (arrivals = [a] ∧ defs = []) ∨ a.Joins types block arrivals defs := by
  fun_cases join block arrivals with
  | case1 => cases h
  | case2 b =>
    cases h
    exact .inl ⟨rfl, rfl⟩
  | case3 first others hne =>
    rw [join.eq_3 block first others hne] at h
    simp only [bind_eq_ok, pure_eq_ok, Option.some.injEq, Prod.mk.injEq] at h
    obtain ⟨⟨s, defs'⟩, hstores, rfl, rfl⟩ := h
    have hstore : ∀ o ∈ first.store :: others.map Arrival.store, o.Typed types := by
      rw [← map_cons, forall_mem_map]
      exact fun b hb => (hall b hb).2
    obtain ⟨s', defs'', hmerge, hs⟩ := mergeStores_spec block hdist
      (formula_selectors block (first :: others).length) hstore (Sublist.refl _)
    obtain ⟨rfl, rfl⟩ := Prod.mk.inj (Except.ok.inj (hstores.symm.trans hmerge))
    refine .inr ⟨?_, rfl, ⟨.mkOr (formula_selectors _ _), hs.typed⟩, ?_, ?_, fun v => ?_,
      fun v m σ hm hv b hb hσ => ?_⟩
    · cases others with
      | nil => exact absurd rfl hne
      | cons => simp
    · refine forall_mem_append.2 ⟨?_, hs.formulas⟩
      rw [forall_mem_zipWith]
      intro p hp
      obtain ⟨hsel, hp⟩ := of_mem_zip hp
      exact formula_selected (formula_selectors _ _ _ hsel) (hall _ hp).1
    · have hheld := hs.held
      rw [← map_cons, forall_mem_map] at hheld
      exact hheld
    · rw [forall_mem_append, hs.holds_iff, ← map_cons, zip_map_right, forall_mem_map,
        forall_mem_zipWith]
      refine forall₂_and.symm.trans (forall₂_congr fun p _ => ?_)
      rw [holds_selected, imp_and]
      rfl
    · rw [joinUnknowns.eq_3 block first others hne] at hv
      have ho : b.store ∈ first.store :: others.map Arrival.store := by
        rw [← map_cons]
        exact mem_map_of_mem hb
      exact hs.determined v m σ hm (forall_mem_append.1 hv).2 b.store ho hσ

end ControlReach
