import ControlReach.Proofs.ExactVerdict
import ControlReach.Proofs.GraphShape
import ControlReach.Proofs.Spelling

/-!
# The sorts of queries

In the query of an error location all terms are well-sorted, and different leaves have different
keys. If the mark of a half is no letter, the names have encodings, so the query has a verdict.
-/

namespace ControlReach

open List Relation Term

/-! ### Texts without halves -/

/-- The text does not hold the mark of a half. -/
def Unmarked (s : String) : Prop := Text.mark ∉ s.toList

instance (s : String) : Decidable (Unmarked s) := inferInstanceAs (Decidable (_ ∉ _))

theorem Unmarked.append (hs : Unmarked s) (ht : Unmarked t) : Unmarked (s ++ t) := by
  rw [Unmarked, String.toList_append, mem_append, not_or]
  exact ⟨hs, ht⟩

theorem unmarked_toString_nat (n : Nat) : Unmarked (toString n) := by
  intro h
  have hdigit := isDigit_of_mem_toString h
  revert hdigit
  decide

theorem unmarked_toString_int (i : Int) : Unmarked (toString i) := by
  intro h
  have hchar := isNumberChar_of_mem_toString h
  revert hchar
  decide

theorem firstHalves?_toNat (start : Nat) (l : List Char) :
    Text.firstHalves? (fun _ => false) start (l.map Char.toNat) = none := by
  induction l generalizing start with
  | nil => rfl
  | cons c l ih =>
    rw [map_cons, Text.firstHalves?, StringValue.isHalf_toNat]
    exact ih (start + 1)

theorem Unmarked.encode (h : Unmarked s) : ∃ bytes, Text.encode s = .ok bytes := by
  rw [Text.encode, StringValue.codes_of_unmarked s.toList h, firstHalves?_toNat]
  exact ⟨_, rfl⟩

/-! ### Types and leaves -/

def Ty.sort? : Ty → Option Sorts
  | .bool => some .bool
  | .string => some .string
  | .struct _ _ => none

theorem Ty.sort?_bare (ty : Ty) : ty.bare.sort? = ty.sort? := by
  cases ty <;> rfl

mutual

theorem SymValue.HasType.sort_leaf : ∀ {w : SymValue} {ty : Ty} (path : List String), w.HasType ty →
    ty.Distinct → ∀ q ∈ w.leaves path, q.2.WellSorted ∧ ∃ more inner, q.1 = path ++ more ∧
      ty.at? more = some inner ∧ inner.sort? = some q.2.sort
  | .term t, .bool, path, h, _ => by
    refine forall_mem_singleton.2 ⟨HasType.wellSorted h, [], .bool, (append_nil path).symm, rfl, ?_⟩
    rw [h.1]
    rfl
  | .term t, .string, path, h, _ => by
    refine forall_mem_singleton.2
      ⟨HasType.wellSorted h, [], .string, (append_nil path).symm, rfl, ?_⟩
    exact congrArg some (Eq.symm h)
  | .struct fields, .struct name tys, path, h, hd => by
    intro q hq
    obtain ⟨hsorted, f, ty, more, inner, hf, hq, hat⟩ := HaveTypes.sort_leaf path h hd.2 q hq
    refine ⟨hsorted, f :: more, inner, hq, ?_, hat.2⟩
    rw [Ty.at?, Assoc.lookup_of_mem hd.1 hf]
    exact hat.1
  | .term _, .struct _ _, _, h, _ | .struct _, .bool, _, h, _
  | .struct _, .string, _, h, _ => h.elim

theorem SymValue.HaveTypes.sort_leaf : ∀ {fields} {tys} path, HaveTypes fields tys →
    Ty.DistinctFields tys →
    ∀ q ∈ SymValue.leavesOf path fields, q.2.WellSorted ∧ ∃ f ty more inner, (f, ty) ∈ tys ∧
      q.1 = path ++ f :: more ∧ ty.at? more = some inner ∧ inner.sort? = some q.2.sort
  | [], [], _, _, _ => forall_mem_nil _
  | (f, w) :: fields, (f', ty) :: tys, path, h, hd => by
    obtain ⟨rfl, hw, hfields⟩ := h
    refine forall_mem_append.2 ⟨fun q hq => ?_, fun q hq => ?_⟩
    · obtain ⟨hsorted, more, inner, hq, hat⟩ := HasType.sort_leaf (path ++ [f]) hw hd.1 q hq
      rw [append_assoc] at hq
      exact ⟨hsorted, f, ty, more, inner, mem_cons_self, hq, hat⟩
    · obtain ⟨hsorted, g, ty', more, inner, hmem, hq⟩ := HaveTypes.sort_leaf path hfields hd.2 q hq
      exact ⟨hsorted, g, ty', more, inner, mem_cons_of_mem _ hmem, hq⟩
  | [], _ :: _, _, h, _ | _ :: _, [], _, h, _ => h.elim

end

mutual

theorem Ty.nodup_leaves : ∀ (ty : Ty) (path : List String), ty.Distinct →
    (ty.leaves path).Nodup ∧ ∀ q ∈ ty.leaves path, path <+: q
  | .bool, path, _ | .string, path, _ =>
    ⟨nodup_singleton path, forall_mem_singleton.2 (prefix_refl path)⟩
  | .struct _ fields, path, h => by
    obtain ⟨hnodup, hleaves⟩ := nodup_leavesOf fields path h.1 h.2
    refine ⟨hnodup, fun q hq => ?_⟩
    obtain ⟨f, -, hf⟩ := hleaves q hq
    exact (prefix_append path [f]).trans hf

theorem Ty.nodup_leavesOf : ∀ (fields : List (String × Ty)) (path : List String),
    (fields.map Prod.fst).Nodup → DistinctFields fields → (leavesOf path fields).Nodup ∧
      ∀ q ∈ leavesOf path fields, ∃ f ∈ fields.map Prod.fst, path ++ [f] <+: q
  | [], _, _, _ => ⟨nodup_nil, forall_mem_nil _⟩
  | (f, ty) :: rest, path, hn, h => by
    obtain ⟨hf, hn⟩ := nodup_cons.1 hn
    obtain ⟨hfirst, hhere⟩ := nodup_leaves ty (path ++ [f]) h.1
    obtain ⟨hrest, hthere⟩ := nodup_leavesOf rest path hn h.2
    refine ⟨nodup_append.2 ⟨hfirst, hrest, ?_⟩, forall_mem_append.2 ⟨fun q hq => ?_, fun q hq => ?_⟩⟩
    · -- A leaf of two fields would have both names at one place of its path.
      rintro q hq _ hq' rfl
      obtain ⟨g, hg, hprefix⟩ := hthere q hq'
      have heq := (prefix_of_prefix_length_le (hhere q hq) hprefix (by simp)).eq_of_length (by simp)
      obtain rfl : f = g := by simpa using heq
      exact hf hg
    · exact ⟨f, mem_cons_self, hhere q hq⟩
    · obtain ⟨g, hg, hprefix⟩ := hthere q hq
      exact ⟨g, mem_cons_of_mem _ hg, hprefix⟩

end

/-! ### Keys -/

def Target.keys (t : Target) : List String :=
  t.observed.flatMap fun q => (q.2.ty.leaves []).map (observationKey q.1)

theorem pathChars_cons_eq (x : String) (path : List String) :
    pathChars (x :: path) = '.' :: (observationKey x path).toList := by
  induction path generalizing x with
  | nil => simp [pathChars, observationKey, Text.join]
  | cons f path ih =>
    have hrest := ih f
    rw [pathChars, flatMap_cons, ← pathChars, hrest]
    simp [observationKey, Text.join]

section Names

variable [Letters]

mutual

theorem Ty.Named.leaves : ∀ {ty : Ty} {path : List String}, ty.Named → Identifiers path →
    ∀ q ∈ ty.leaves path, Identifiers q
  | .bool, _, _, hpath | .string, _, _, hpath => forall_mem_singleton.2 hpath
  | .struct _ _, _, h, hpath => Ty.NamedFields.leaves h hpath

theorem Ty.NamedFields.leaves : ∀ {fields} {path},
    NamedFields fields → Identifiers path → ∀ q ∈ leavesOf path fields, Identifiers q
  | [], _, _, _ => forall_mem_nil _
  | (f, _) :: _, path, h, hpath => by
    have hf : Identifiers (path ++ [f]) :=
      forall_mem_append.2 ⟨hpath, forall_mem_singleton.2 h.1⟩
    exact forall_mem_append.2 ⟨Ty.Named.leaves h.2.1 hf, Ty.NamedFields.leaves h.2.2 hpath⟩

end

theorem observationKey_inj (hx : IsIdentifier x) (hpath : Identifiers path) (hx' : IsIdentifier x')
    (hpath' : Identifiers path') (h : observationKey x path = observationKey x' path') :
    x = x' ∧ path = path' := by
  have hchars : pathChars (x :: path) = pathChars (x' :: path') := by
    rw [pathChars_cons_eq, pathChars_cons_eq, h]
  exact cons.inj (pathChars_inj (forall_mem_cons.2 ⟨hx, hpath⟩) (forall_mem_cons.2 ⟨hx', hpath'⟩)
    hchars)

theorem FlowGraph.NamedTarget.nodup_keys (h : FlowGraph.NamedTarget t)
    (hd : ∀ q ∈ t.observed, q.2.ty.bare.Distinct) : t.keys.Nodup := by
  have hleaf : ∀ q ∈ t.observed, ∀ path ∈ q.2.ty.leaves [], Identifiers path := fun q hq =>
    (h.observed q hq).2.ty.leaves identifiers_nil
  refine nodup_flatMap.2 ⟨fun q hq => ?_, ?_⟩
  · have hnodup := (Ty.nodup_leaves _ [] (hd q hq)).1
    rw [Ty.leaves_bare] at hnodup
    refine (nodup_map_iff_inj_on hnodup).2 fun path hp path' hp' heq => ?_
    exact (observationKey_inj (h.observed q hq).1 (hleaf q hq path hp) (h.observed q hq).1
      (hleaf q hq path' hp') heq).2
  · refine (pairwise_map.1 h.nodup).imp_of_mem fun {q q'} hq hq' hne => ?_
    refine disjoint_left.2 fun key hkey hkey' => ?_
    obtain ⟨path, hpath, rfl⟩ := mem_map.1 hkey
    obtain ⟨path', hpath', heq⟩ := mem_map.1 hkey'
    exact hne (observationKey_inj (h.observed q' hq').1 (hleaf q' hq' path' hpath')
      (h.observed q hq).1 (hleaf q hq path hpath) heq).1.symm

end Names

/-! ### Well-typed graphs -/

theorem Op.Sequence.wellTyped (htypes : ∀ v ∈ known, types v.uid = v.ty.bare) : ∀ {ops} {defined},
    Op.Sequence known defined ops → defined ⊆ known →
    ∀ op ∈ ops, op.WellTyped sites types
  | [], _, _, _ => forall_mem_nil _
  | op :: ops, defined, h, hsub => by
    have hdefined : ∀ v ∈ defined, types v.uid = v.ty.bare := fun v hv => htypes v (hsub hv)
    refine forall_mem_cons.2 ⟨?_, h.2.wellTyped htypes (append_subset.2 ⟨hsub, h.1.stores_subset⟩)⟩
    cases op with
    | assign v path e loc =>
      obtain ⟨⟨hv, -, ty, hat, he⟩, -⟩ := h
      refine ⟨htypes v hv, ty, ?_, he.hasType hdefined⟩
      rwa [htypes v hv]
    | havoc v n loc => exact htypes v h.1
    | assume e loc => exact Rvalue.Fits.hasType hdefined h.1

namespace FlowGraph

variable {g : FlowGraph}

theorem block?_of_mem (hunique : g.ids.Nodup) (hb : b ∈ g.blocks) : g.block? b.id = some b := by
  obtain ⟨b', hb'⟩ := exists_block (mem_map_of_mem hb)
  rw [hb', inj_on_of_nodup_map hunique (mem_blocks_of_block hb') hb (id_of_block hb')]

theorem Assigned.subset_known (hg : g.Assigned known A) (h : g.Walk g.entry i) : A i ⊆ known :=
  (append_subset.1 (hg.subset_of_stores (fun i => (hg.ops i).stores_subset) h)).1

variable [Letters]

theorem Assigned.wellTyped (hg : g.Assigned known A) (hn : g.Named)
    (hd : ∀ n, (types n).Distinct) (htypes : ∀ v ∈ known, types v.uid = v.ty.bare)
    (hunique : g.ids.Nodup)
    (hreach : ∀ i ∈ g.ids, g.Walk g.entry i) :
    g.WellTyped types := by
  have hblock : ∀ b ∈ g.blocks, g.block? b.id = some b ∧ A b.id ⊆ known := fun b hb =>
    ⟨block?_of_mem hunique hb, hg.subset_known (hreach _ (mem_map_of_mem hb))⟩
  refine ⟨hd, fun b hb => ?_, fun b hb e he r hr => ?_⟩
  · obtain ⟨hfound, hsub⟩ := hblock b hb
    rw [← opsOf_of_block hfound]
    exact (hg.ops b.id).wellTyped htypes hsub
  · obtain ⟨hfound, hsub⟩ := hblock b hb
    rcases hn.guard b hb e he r hr with hplain | ⟨s, label, hs, hlabel, rfl⟩
    · have hguard := hg.guard b.id e (by rwa [edgesOf_of_block hfound]) r hr
      rcases hguard with hfits | ⟨_, _, _, rfl⟩
      · refine hfits.hasType fun v hv => htypes v ?_
        exact append_subset.2 ⟨hsub, (hg.ops b.id).stores_subset⟩ hv
      · exact hplain.elim
    · exact ⟨rfl, s, hs.found, hlabel, rfl⟩

end FlowGraph

/-! ### The terms of a query -/

def Symbol.Unmarked (s : Symbol) : Prop := ControlReach.Unmarked s.name

def Term.Sound (t : Term) : Prop := t.Formula ∧ t.Over Symbol.Unmarked

theorem Term.Sound.mkOne (h : ∀ a ∈ as, a.Sound) : (Term.mkOne as).Sound := by
  fun_cases Term.mkOne as with
  | case1 => exact ⟨formula_bool false, over_bool false⟩
  | case2 a => exact h a mem_cons_self
  | case3 as =>
    exact ⟨⟨rfl, wellSortedAll_iff.2 fun a ha => (h a ha).1⟩, over_and.2 fun a ha => (h a ha).2⟩

theorem Term.Sound.mkAnd (h : ∀ a ∈ as, a.Sound) : (mkAnd as).Sound :=
  ⟨.mkAnd fun a ha => (h a ha).1, .mkAnd fun a ha => (h a ha).2⟩

theorem Term.sound_flag (h : Unmarked name) : (flag name).Sound :=
  ⟨formula_flag name, over_symbol.2 h⟩

theorem unmarked_selector (block : BlockId) (k : Nat) : (selector block k).Over Symbol.Unmarked :=
  over_symbol.2 (((Unmarked.append (by decide) (unmarked_toString_int block)).append
    (by decide)).append (unmarked_toString_nat k))

section Visits

variable [Letters]

/-- The mark of a half is no letter, so names put together from identifiers hold no halves. -/
theorem IsDotted.unmarked (hmark : Letters.isLetter Text.mark = false) (h : IsDotted s) :
    Unmarked s := by
  intro hmem
  have hchar := h _ hmem
  rw [isDottedChar, isWordChar, hmark, Bool.and_false] at hchar
  revert hchar
  decide

/-- Values in stores and conditions are of the given types, and no name holds a half. -/
structure Progress.Sound (g : FlowGraph) (types : Nat → Ty) (p : Progress) : Prop where
  arrival : ∀ j, ∀ a ∈ p.arrivals j, a.condition.Sound ∧ a.store.Typed types ∧
    a.store.Over g.stored Symbol.Unmarked
  definitions : ∀ t ∈ p.definitions, t.Sound

/-- Its store is typed, and its terms are sound. -/
structure Passage.Sound (g : FlowGraph) (types : Nat → Ty) (c : Passage) : Prop where
  typed : c.store.Typed types
  store : c.store.Over g.stored Symbol.Unmarked
  condition : c.condition.Sound
  definitions : ∀ t ∈ c.definitions, t.Sound

theorem FlowGraph.sound_start (g : FlowGraph) (types : Nat → Ty) : g.start.Sound g types := by
  refine ⟨fun j a ha => ?_, forall_mem_nil _⟩
  obtain ⟨-, rfl⟩ := mem_arrivals_start ha
  exact ⟨⟨formula_bool true, over_bool true⟩, Store.typed_nil types, forall_mem_nil _⟩

variable (hmark : Letters.isLetter Text.mark = false)

include hmark

theorem hasLeaves_unmarked (h : Unmarked name) : HasLeaves Symbol.Unmarked name := by
  intro path hpath sort
  show Text.mark ∉ (leafName name path).toList
  rw [toList_leafName, mem_append, not_or]
  refine ⟨h, fun hmem => ?_⟩
  obtain ⟨f, hf, hmem⟩ := mem_flatMap.1 hmem
  rcases mem_cons.1 hmem with hdot | hmem
  · revert hdot
    decide
  · exact (hpath f hf).dotted.unmarked hmark hmem

theorem freshIn_unmarked (hknown : ∀ x ∈ known, x.Named) :
    FreshIn Symbol.Unmarked known := fun x hx n => hasLeaves_unmarked hmark
  ((((hknown x hx).display.unmarked hmark).append (by decide)).append (unmarked_toString_nat n))

theorem joinsIn_unmarked (hknown : ∀ x ∈ known, x.Named) (block : BlockId) :
    JoinsIn Symbol.Unmarked known block := fun x hx => hasLeaves_unmarked hmark
  ((((hknown x hx).display.unmarked hmark).append (by decide)).append (unmarked_toString_int block))

theorem TableSite.Named.unmarked {s : TableSite} (h : s.Named) {label : String}
    (hl : label ∈ s.labels) : Unmarked (s.guardName label) := by
  have hlabel : Unmarked label := by
    rcases h.label label hl with rfl | hl
    · decide
    · exact hl.dotted.unmarked hmark
  exact ((((h.table.unmarked hmark).append (by decide)).append (unmarked_toString_nat s.id)).append
    (by decide)).append hlabel

variable {g : FlowGraph} {p : Progress} {c : Passage}

theorem Progress.Sound.pass (hp : p.Sound g types) (hg : g.WellTyped types) (hn : g.Named)
    (h : g.pass i p = .ok (some c)) : c.Sound g types := by
  have htyped : p.Typed types := fun j a ha => ⟨(hp.arrival j a ha).1.1, (hp.arrival j a ha).2.1⟩
  obtain ⟨a, defs, new, hc⟩ := FlowGraph.pass_spec hg htyped h
  obtain ⟨a', defs', assumed, hjoin, hdefinitions, hcondition, hs, hassumed, hcases⟩ :=
    hn.over_pass (freshIn_unmarked hmark hn.named) (joinsIn_unmarked hmark hn.named i)
      (fun j a ha => (hp.arrival j a ha).2.2) h
  obtain ⟨rfl, rfl⟩ : a' = a ∧ defs' = defs := by simpa [hc.joined] using hjoin.symm
  have hsel := unmarked_selector i
  have hcond : a'.condition.Over Symbol.Unmarked ∧ ∀ t ∈ defs', t.Over Symbol.Unmarked := by
    constructor
    · rcases hcases with ⟨harr, -⟩ | ⟨values, hcond, -⟩
      · exact (hp.arrival i a' (by rw [harr]; exact mem_cons_self)).1.2
      · rw [hcond]
        exact .mkOr (forall_mem_map.2 fun k _ => hsel k)
    · intro t ht
      obtain ⟨k, hk, body, rfl, hbody⟩ := hcases.defined t ht
      refine .mkOr (forall_mem_cons.2 ⟨(hsel k).mkNot, forall_mem_singleton.2 ?_⟩)
      rcases hbody with rfl | hbody
      · exact (hp.arrival i _ (getElem_mem hk)).1.2
      · exact hbody
  have hdefs : ∀ t ∈ defs', t.Formula := by
    rcases hc.cases with ⟨-, rfl⟩ | hjoins
    · exact forall_mem_nil _
    · exact hjoins.formulas
  refine ⟨hc.faithful.typed, hs, ⟨hc.condition_formula, ?_⟩, ?_⟩
  · rw [hcondition]
    exact .mkAnd (forall_mem_cons.2 ⟨hcond.1, hassumed⟩)
  · rw [hdefinitions]
    exact forall_mem_append.2 ⟨hp.definitions, fun t ht => ⟨hdefs t ht, hcond.2 t ht⟩⟩

theorem FlowGraph.Named.over_condition (hn : g.Named) {e : Edge} (he : e ∈ g.edgesOf i) {s : Store}
    (hs : s.Over g.stored Symbol.Unmarked) {t : Term} (ht : e.condition s = .ok t) :
    t.Over Symbol.Unmarked := by
  rw [Edge.condition] at ht
  cases hr : e.guard with
  | none =>
    rw [hr] at ht
    cases ht
    exact over_bool true
  | some r =>
    rw [hr] at ht
    rcases hn.guardOf he hr with hr | ⟨site, label, hsite, hl, rfl⟩
    · exact Rvalue.over_condition hs hr ht
    · cases ht
      exact over_symbol.2 (hsite.toNamed.unmarked hmark hl)

theorem Passage.Sound.follow (hc : c.Sound g types) (hp : p.Sound g types) (hg : g.WellTyped types)
    (hn : g.Named)
    (h : follow relevant c.condition c.store ⟨p.incoming, c.definitions⟩ (g.edgesOf i) = .ok p') :
    p'.Sound g types := by
  refine ⟨fun j a ha => ?_, ?_⟩
  · rcases mem_arrivals_follow h ha with ha | ⟨e, he, -, t, ht, rfl⟩
    · exact hp.arrival j a ha
    · have hform := (Edge.condition_spec hg.distinct hc.typed (hg.guardsOf i e he) ht).1
      refine ⟨.mkAnd (forall_mem_cons.2 ⟨hc.condition, forall_mem_singleton.2 ?_⟩), hc.typed, hc.store⟩
      exact ⟨hform, hn.over_condition hmark he hc.store ht⟩
  · rw [(follow_spec h).1]
    exact hc.definitions

theorem FlowGraph.Passes.sound (h : g.Passes types known A relevant order p l)
    (hg : g.WellTyped types) (hn : g.Named) (hp : p.Sound g types) (hc : (i, c) ∈ l) :
    c.Sound g types := by
  induction h with
  | nil => cases hc
  | skip _ _ _ ih => exact ih hp hc
  | pass _ hpass _ hfollow _ ih =>
    have hc' := hp.pass hmark hg hn hpass
    rcases mem_cons.1 hc with h | hc
    · cases h
      exact hc'
    · exact ih (hc'.follow hmark hp hg hn hfollow) hc

end Visits

/-! ### Observations -/

theorem keys_bindKeys (t : Target) {bound : List (String × Symbol)}
    {reported : List (String × Term)}
    (hn : (bound.map Prod.fst ++ reported.map Prod.fst).Nodup) :
    (bindKeys t bound reported).1.map Prod.fst = bound.map Prod.fst ++ reported.map Prod.fst := by
  induction reported generalizing bound with
  | nil => simp [bindKeys]
  | cons r rest ih =>
    have hfree : bound.lookup r.1 = none := by
      rw [Assoc.lookup_eq_none_iff]
      exact fun h => (nodup_append.1 hn).2.2 _ h _ mem_cons_self rfl
    have hset : ∀ sym, (Assoc.setNew r.1 sym bound).map Prod.fst = bound.map Prod.fst ++ [r.1] := by
      simp [Assoc.setNew, hfree]
    rw [map_cons, append_cons] at hn ⊢
    rw [← hset] at hn ⊢
    exact ih hn

theorem Store.Ready.keys_reported {s : Store} (hs : s.Ready types known defined) {t : Target}
    (ht : t.Fits defined) : (s.reported t.observed).map Prod.fst = t.keys := by
  rw [Store.reported, Target.keys, map_flatMap]
  refine flatMap_congr fun q hq => ?_
  obtain ⟨w, hw⟩ := hs.value q.2 (ht q hq)
  have hty := hs.typed.value hw
  rw [hs.types_eq q.2 (hs.subset (ht q hq))] at hty
  rw [hw, ← Ty.leaves_bare, ← hty.leaves, List.map_map]
  simp

/-- The key is that of a leaf of an observed variable, and the unknown has its sort. -/
def Target.Observes (t : Target) (key : String) (sym : Symbol) : Prop :=
  ∃ x v path ty, (x, v) ∈ t.observed ∧ v.ty.at? path = some ty ∧ ty.sort? = some sym.sort ∧
    key = observationKey x path

section Outcome

variable {s : Store} {t : Target}

theorem Store.Ready.sort_reported (hs : s.Ready types known defined) (ht : t.Fits defined)
    (h : (key, u) ∈ s.reported t.observed) :
    u.WellSorted ∧ ∀ name, t.Observes key ⟨name, u.sort⟩ := by
  obtain ⟨x, v, w, path, hv, hw, hleaf, rfl⟩ := Store.mem_reported.1 h
  have heq := hs.types_eq v (hs.subset (ht _ hv))
  have hty := hs.typed.value hw
  have hd := hs.distinct v.uid
  rw [heq] at hty hd
  obtain ⟨hsorted, more, inner, hpath, hat, hsort⟩ := hty.sort_leaf [] hd _ hleaf
  obtain rfl : path = more := hpath
  rw [Scope.at?_bare] at hat
  obtain ⟨ty, hty', rfl⟩ := Option.map_eq_some_iff.1 hat
  rw [Ty.sort?_bare] at hsort
  exact ⟨hsorted, fun name => ⟨x, v, path, ty, hv, hty', hsort, rfl⟩⟩

variable [Letters] (hmark : Letters.isLetter Text.mark = false)
  (hn : FlowGraph.NamedTarget t) (ht : t.Fits defined)

include hmark hn ht

theorem Store.Ready.unmarked_key (hs : s.Ready types known defined)
    (h : (key, u) ∈ s.reported t.observed) : Unmarked (t.id ++ "|" ++ key) := by
  obtain ⟨x, v, w, path, hv, hw, hleaf, rfl⟩ := Store.mem_reported.1 h
  have hty := hs.typed.value hw
  rw [hs.types_eq v (hs.subset (ht _ hv))] at hty
  have hpath : path ∈ v.ty.leaves [] := by
    rw [← Ty.leaves_bare, ← hty.leaves]
    exact mem_map_of_mem hleaf
  have hnames : ∀ f ∈ x :: path, IsDotted f := forall_mem_cons.2 ⟨(hn.observed _ hv).1.dotted,
    fun f hf => ((hn.observed _ hv).2.ty.leaves identifiers_nil path hpath f hf).dotted⟩
  exact ((((hn.control.unmarked hmark).append (by decide)).append
    (unmarked_toString_nat t.index)).append (by decide)).append
    ((isDotted_join hnames).unmarked hmark)

theorem Passage.Sound.outcome {c : Passage} (hc : c.Sound g types)
    (hs : c.store.Ready types known defined) :
    (c.outcome t).1.Sound ∧ (c.outcome t).2.map Prod.fst = t.keys ∧
    ∀ r ∈ (c.outcome t).2, r.2.Unmarked ∧ t.Observes r.1 r.2 := by
  have hdistinct : ∀ q ∈ t.observed, q.2.ty.bare.Distinct := by
    intro q hq
    rw [← hs.types_eq q.2 (hs.subset (ht q hq))]
    exact hs.distinct q.2.uid
  have hreported := hs.keys_reported ht
  have hnodup := hn.nodup_keys hdistinct
  rw [← hreported] at hnodup
  have hbound := c.keysBound t
  have hkeys : (c.outcome t).2.map Prod.fst = (c.store.reported t.observed).map Prod.fst := by
    rw [Passage.outcome, observe_eq_bindKeys]
    exact keys_bindKeys t hnodup
  refine ⟨.mkAnd (forall_mem_append.2 ⟨hc.definitions, forall_mem_cons.2 ⟨hc.condition,
    fun eq heq => ?_⟩⟩), hkeys.trans hreported, fun r hr => ?_⟩
  · obtain ⟨key, u, sym, hu, hsym, rfl⟩ := hbound.term eq heq
    obtain ⟨u', hu', rfl⟩ := (hbound.origin key sym hsym).resolve_left not_mem_nil
    obtain rfl : u = u' := congrArg Prod.snd (inj_on_of_nodup_map hnodup hu hu' rfl)
    obtain ⟨x, v, w, path, hv, hw, hleaf, -⟩ := Store.mem_reported.1 hu
    exact ⟨.mkEq rfl trivial (hs.sort_reported ht hu).1, .mkEq (over_symbol.2
      (hs.unmarked_key hmark hn ht hu)) ((hc.store.value hw).leaves [] _ hleaf)⟩
  · obtain ⟨u, hu, hsym⟩ := (hbound.made r hr).resolve_left not_mem_nil
    rw [hsym]
    exact ⟨hs.unmarked_key hmark hn ht hu, (hs.sort_reported ht hu).2 _⟩

end Outcome

/-! ### Queries -/

theorem FlowGraph.mem_guardSymbols (sites : List TableSite) :
    ((guardSymbols sites).map Prod.fst).Nodup ∧ ∀ r ∈ guardSymbols sites,
      r.1 ∈ sites.flatMap TableSite.guardNames ∧ r.2 = ⟨r.1, .bool⟩ := by
  have hall : ∀ (names : List String) (l : List (String × Symbol)), (l.map Prod.fst).Nodup →
      ((names.foldl (fun l x => Assoc.set x ⟨x, .bool⟩ l) l).map Prod.fst).Nodup ∧
        ∀ r ∈ names.foldl (fun l x => Assoc.set x ⟨x, .bool⟩ l) l,
          r ∈ l ∨ r.1 ∈ names ∧ r.2 = ⟨r.1, .bool⟩ := by
    intro names
    induction names with
    | nil => exact fun l hl => ⟨hl, fun r hr => .inl hr⟩
    | cons x names ih =>
      intro l hl
      obtain ⟨hn, hmem⟩ := ih _ (Assoc.nodup_keys_set ⟨x, .bool⟩ hl)
      refine ⟨hn, fun r hr => ?_⟩
      rcases hmem r hr with hr | ⟨hr, heq⟩
      · rcases (Assoc.mem_set_iff hl).1 hr with rfl | ⟨hr, -⟩
        · exact .inr ⟨mem_cons_self, rfl⟩
        · exact .inl hr
      · exact .inr ⟨mem_cons_of_mem _ hr, heq⟩
  obtain ⟨hn, hmem⟩ := hall (sites.flatMap TableSite.guardNames) [] nodup_nil
  exact ⟨hn, fun r hr => (hmem r hr).resolve_left not_mem_nil⟩

theorem Query.exists_verdict {q : Query} (hkeyed : q.Keyed) (hterms : ∀ t ∈ q.assertions, t.Sound)
    (hkeys : ∀ r ∈ q.observations ++ q.guards, r.2.Unmarked) :
    ∃ verdict, q.check .never = (.ok verdict, .never) ∧ verdict.isUnknown = false := by
  have hsymbols : ∀ s ∈ q.symbols, ∃ bytes, Text.encode s.name = .ok bytes := by
    refine forall_mem_append.2 ⟨fun s hs => ?_, forall_mem_map.2 fun r hr => (hkeys r hr).encode⟩
    rw [symbolsList_eq] at hs
    obtain ⟨t, ht, hs⟩ := mem_flatMap.1 hs
    exact ((hterms t ht).2 s hs).encode
  rcases q.check_exact hkeyed with ⟨run, -, s, hs, hrun⟩ | ⟨verdict, hcheck, hexact⟩
  · obtain ⟨bytes, hbytes⟩ := hsymbols s hs
    rw [hbytes] at hrun
    cases hrun
  · refine ⟨verdict, hcheck, ?_⟩
    cases verdict with
    | unknown => exact absurd (wellSortedAll_iff.2 fun t ht => (hterms t ht).1) hexact.1
    | reachable | unreachable => rfl

namespace FlowGraph

variable [Letters]

theorem Named.sound_exclusivity (hmark : Letters.isLetter Text.mark = false) {g : FlowGraph}
    (hn : g.Named) {s : TableSite} (hs : s ∈ g.sitesIn within) :
    (∀ name ∈ s.guardNames, Unmarked name) ∧ (exclusivity s).Sound := by
  have hnames : ∀ name ∈ s.guardNames, Unmarked name :=
    forall_mem_map.2 fun label hl => (hn.site hs).1.toNamed.unmarked hmark hl
  exact ⟨hnames, .mkOne (forall_mem_map.2 fun name hname => sound_flag (hnames name hname))⟩

/-- Each error location has a well-sorted query with a verdict, whose keys and sorts are those of
the observed leaves. -/
theorem exists_wellSorted_query (hmark : Letters.isLetter Text.mark = false) {p : Program}
    (hp : Identifiers p.names) {calls : Option CallGraph} {d : ControlDecl} (hd : d ∈ p.controls)
    {g : FlowGraph} (hok : ofControl p.globals.scope calls d = (g, [])) {t : Target}
    (ht : t ∈ g.targets) (exclusive : Bool) :
    t.keys.Nodup ∧ ∃ q, (g.generate exclusive t .never).1 = .ok q ∧
      Term.WellSortedAll q.assertions ∧ (∀ r ∈ q.observations, t.Observes r.1 r.2) ∧
      ∃ verdict, q.check .never = (.ok verdict, .never) ∧ verdict.isUnknown = false := by
  obtain ⟨⟨b⟩, hback⟩ := ofControl_built hok
  have hn := b.named hp hd
  obtain ⟨known, n, A, hmade, ha⟩ := b.exists_assigned p.fits_globals
  obtain ⟨types, hdistinct, htypes⟩ := hmade.exists_types
  have hg := ha.wellTyped hn hdistinct htypes b.distinct fun i hi => b.reachable hi
  have hblock := b.mem_ids_of_mem_targets ht
  obtain ⟨q, hq, hout, hside, hguards⟩ := ha.generate_eq hdistinct htypes hback hblock exclusive
  obtain ⟨hnodup, hmem⟩ := mem_guardSymbols (g.sitesIn (g.reaching t.block))
  rw [← hguards] at hnodup hmem
  have hpasses := ha.passes_start hdistinct htypes t
  have hkeys : t.keys.Nodup := by
    refine (hn.target t ht).nodup_keys fun r hr => ?_
    have hknown := ha.subset_known (b.reachable hblock) (ha.target t ht r hr)
    rw [← htypes r.2 hknown]
    exact hdistinct r.2.uid
  have hfound : q.formula.Sound ∧ (q.observations.map Prod.fst).Nodup ∧
      ∀ r ∈ q.observations, r.2.Unmarked ∧ t.Observes r.1 r.2 := by
    cases hc : g.passage? t t.block with
    | none =>
      rw [hc] at hout
      obtain ⟨hformula, hobs⟩ := Prod.mk.inj hout
      rw [hformula, hobs]
      exact ⟨⟨Term.formula_bool false, Term.over_bool false⟩, nodup_nil, forall_mem_nil _⟩
    | some c =>
      rw [hc] at hout
      obtain ⟨hformula, hobs⟩ : q.formula = (c.outcome t).1 ∧ q.observations = (c.outcome t).2 :=
        Prod.ext_iff.1 hout
      have hpassed := (ha.passage?_eq_some_iff hdistinct htypes).1 hc
      have hsound := hpasses.sound hmark hg hn (g.sound_start types) hpassed
      have hstore := (hpasses.of_mem hpassed).2.mono (subset_append_left _ _)
      obtain ⟨hterm, hnames, hobserved⟩ :=
        hsound.outcome hmark (hn.target t ht) (ha.target t ht) hstore
      rw [hformula, hobs, hnames]
      exact ⟨hterm, hkeys, hobserved⟩
  obtain ⟨hformula, hobs, hobserved⟩ := hfound
  have hterms : ∀ u ∈ q.assertions, u.Sound := by
    refine forall_mem_cons.2 ⟨hformula, ?_⟩
    rw [hside]
    split
    · exact forall_mem_map.2 fun s hs => (hn.sound_exclusivity hmark hs).2
    · exact forall_mem_nil _
  refine ⟨hkeys, q, hq, Term.wellSortedAll_iff.2 fun u hu => (hterms u hu).1,
    fun r hr => (hobserved r hr).2, Query.exists_verdict ⟨hobs, hnodup⟩ hterms ?_⟩
  refine forall_mem_append.2 ⟨fun r hr => (hobserved r hr).1, fun r hr => ?_⟩
  obtain ⟨hname, hsymbol⟩ := hmem r hr
  obtain ⟨s, hs, hname⟩ := mem_flatMap.1 hname
  rw [hsymbol]
  exact (hn.sound_exclusivity hmark hs).1 _ hname

end FlowGraph

/-- Where a variable hides a parameter, only the variable is observed under their name. -/
theorem FlowGraph.exists_wellSorted_query_shadow : Shadow.goal.keys.Nodup ∧
    ∃ q, (Shadow.graph.generate true Shadow.goal .never).1 = .ok q ∧
      Term.WellSortedAll q.assertions ∧ (∀ r ∈ q.observations, Shadow.goal.Observes r.1 r.2) ∧
      ∃ verdict, q.check .never = (.ok verdict, .never) ∧ verdict.isUnknown = false := by
  let _ : Letters := ⟨fun c => c != Text.mark⟩
  have hnames : Identifiers Shadow.program.names := by decide +kernel
  exact exists_wellSorted_query (by decide) hnames Shadow.mem_controls Shadow.ofControl_eq
    Shadow.mem_targets true

end ControlReach
