import ControlReach.Proofs.QuerySound
import ControlReach.Proofs.StoredTerms

/-!
# More assumptions

A graph whose blocks store the same as those of another graph but assume more has fewer behaviours:
what satisfies the query of an error location satisfies its query in the other graph. The two
queries are made alike, and along the way each condition of the one entails that of the other.
-/

namespace ControlReach

open List

/-! ### Entailment -/

/-- Whatever satisfies some terms satisfies others. -/
def Entail (as bs : List Term) : Prop :=
  ∀ (δ : Type) [DecidableEq δ] (denote : String → δ) (v : Valuation δ),
    (∀ a ∈ as, a.holds denote v = true) → ∀ b ∈ bs, b.holds denote v = true

namespace Entail

theorem of_subset (h : bs ⊆ as) : Entail as bs := fun _ _ _ _ ha b hb => ha b (h hb)

theorem refl (as : List Term) : Entail as as := of_subset (Subset.refl as)

theorem append (h : Entail as bs) (h' : Entail as' bs') : Entail (as ++ as') (bs ++ bs') := by
  intro δ _ denote v ha
  obtain ⟨has, has'⟩ := forall_mem_append.1 ha
  exact forall_mem_append.2 ⟨h δ denote v has, h' δ denote v has'⟩

theorem cons (h : Entail [a] [b]) (h' : Entail as bs) : Entail (a :: as) (b :: bs) := h.append h'

theorem mkAnd (h : Entail as bs) : Entail [.mkAnd as] [.mkAnd bs] := by
  intro δ _ denote v
  simp only [forall_mem_singleton, Term.holds_mkAnd]
  exact h δ denote v

theorem selected (sel : Term) (h : Entail [a] [b]) :
    Entail [ControlReach.selected sel a] [ControlReach.selected sel b] := by
  intro δ _ denote v
  have hab := h δ denote v
  simp only [forall_mem_singleton, ControlReach.selected, Term.holds_mkOr_pair, Bool.or_eq_true]
    at hab ⊢
  exact Or.imp_right hab

end Entail

/-! ### Joins -/

/-- What comes in has the same store, and its condition entails the other. -/
def Arrival.Entails (a b : Arrival) : Prop :=
  a.store = b.store ∧ Entail [a.condition] [b.condition]

theorem map_store_eq (h : Forall₂ Arrival.Entails as bs) :
    as.map Arrival.store = bs.map Arrival.store := by
  induction h with
  | nil => rfl
  | cons hab _ ih => rw [map_cons, map_cons, hab.1, ih]

theorem entail_opened (selectors : List Term) (h : Forall₂ Arrival.Entails as bs) :
    Entail (zipWith (fun sel (a : Arrival) => selected sel a.condition) selectors as)
      (zipWith (fun sel (a : Arrival) => selected sel a.condition) selectors bs) := by
  induction h generalizing selectors with
  | nil => simp [Entail]
  | cons hab _ ih =>
    cases selectors with
    | nil => simp [Entail]
    | cons sel selectors => exact (hab.2.selected sel).cons (ih selectors)

theorem entails_join (i : BlockId) (h : Forall₂ Arrival.Entails as bs) (hjoin : join i as = .ok r) :
    ∃ r', join i bs = .ok r' ∧ Option.Rel (fun x y => x.1.Entails y.1 ∧ Entail x.2 y.2) r r' := by
  match as, bs, h with
  | [], [], .nil =>
    cases hjoin
    exact ⟨_, rfl, .none⟩
  | [a], [b], .cons hab .nil =>
    cases hjoin
    exact ⟨_, rfl, .some ⟨hab, .refl _⟩⟩
  | a :: a' :: as, b :: b' :: bs, .cons hab hrest =>
    have hlength := congrArg length (map_store_eq (.cons hab hrest))
    rw [length_map, length_map] at hlength
    simp only [join, bind_eq_ok, pure_eq_ok, hlength, map_store_eq hrest, hab.1] at hjoin
    obtain ⟨⟨store, definitions⟩, hmerge, rfl⟩ := hjoin
    have hopened := entail_opened ((range (b :: b' :: bs).length).map (selector i)) (.cons hab hrest)
    exact ⟨_, bind_eq_ok.2 ⟨_, hmerge, rfl⟩, .some ⟨⟨rfl, .refl _⟩, hopened.append (.refl _)⟩⟩

/-! ### Visits -/

/-- What has come in at each block entails the other, and so have the definitions. -/
structure Progress.Entails (p p' : Progress) : Prop where
  arrivals : ∀ i, Forall₂ Arrival.Entails (p.arrivals i) (p'.arrivals i)
  definitions : Entail p.definitions p'.definitions

/-- A passage with the same store that assumes no less. -/
structure Passage.Entails (c c' : Passage) : Prop where
  definitions : Entail c.definitions c'.definitions
  condition : Entail [c.condition] [c'.condition]
  store : c.store = c'.store

/-- The same is observed, and the formula entails the other. -/
def Outcome.Entails (out out' : Outcome) : Prop := out.2 = out'.2 ∧ Entail [out.1] [out'.1]

theorem Passage.Entails.outcome {c : Passage} (h : c.Entails c') (target : Target) :
    Outcome.Entails (c.outcome target) (c'.outcome target) := by
  rw [Passage.outcome, Passage.outcome, h.store]
  exact ⟨rfl, .mkAnd (h.definitions.append (h.condition.cons (.refl _)))⟩

theorem Progress.Entails.arrive {p : Progress} (h : p.Entails p') (i : BlockId) {a : Arrival}
    (ha : a.Entails a') : (p.arrive i a).Entails (p'.arrive i a') where
  arrivals j := by
    rw [arrivals_arrive, arrivals_arrive]
    refine rel_append (h.arrivals j) ?_
    split
    · exact .cons ha .nil
    · exact .nil
  definitions := h.definitions

theorem Progress.Entails.follow {p : Progress} (h : p.Entails p') (hreach : Entail [reach] [reach'])
    (hfollow : follow relevant reach s p edges = .ok q) :
    ∃ q', ControlReach.follow relevant reach' s p' edges = .ok q' ∧ q.Entails q' := by
  induction edges generalizing p p' with
  | nil =>
    cases hfollow
    exact ⟨p', rfl, h⟩
  | cons e edges ih =>
    by_cases he : e.target ∈ relevant
    · rw [follow_cons he, bind_eq_ok] at hfollow
      obtain ⟨t, ht, hfollow⟩ := hfollow
      simp only [follow_cons he, ht]
      show ∃ q', (if t = Term.ff then _ else _) = _ ∧ _
      split at hfollow <;> rename_i hff
      · rw [if_pos hff]
        exact ih h hfollow
      · rw [if_neg hff]
        have harrival : Arrival.Entails ⟨Term.mkAnd [reach, t], s⟩ ⟨Term.mkAnd [reach', t], s⟩ :=
          ⟨rfl, .mkAnd (hreach.cons (.refl [t]))⟩
        exact ih (h.arrive e.target harrival) hfollow
    · simp only [ControlReach.follow, if_neg he] at hfollow ⊢
      exact ih h hfollow

namespace FlowGraph

/-- A graph has the edges of another; its blocks store the same but may assume more. -/
structure AssumesMore (g g' : FlowGraph) : Prop where
  edges : ∀ i, g.edgesOf i = g'.edgesOf i
  ops : ∀ i {s s' assumed}, execute (g.opsOf i) s [] = .ok (s', assumed) →
    ∃ assumed', execute (g'.opsOf i) s [] = .ok (s', assumed') ∧ assumed' ⊆ assumed

namespace AssumesMore

variable {g g' : FlowGraph} (hg : g.AssumesMore g') {p : Progress}

include hg

theorem pass (hp : p.Entails p') (hpass : g.pass i p = .ok r) :
    ∃ r', g'.pass i p' = .ok r' ∧ Option.Rel Passage.Entails r r' := by
  rw [FlowGraph.pass, bind_eq_ok] at hpass
  obtain ⟨r₀, hjoin, hpass⟩ := hpass
  obtain ⟨r₁, hjoin', hrel⟩ := entails_join i (hp.arrivals i) hjoin
  cases hrel with
  | none =>
    cases hpass
    exact ⟨none, bind_eq_ok.2 ⟨_, hjoin', rfl⟩, .none⟩
  | @some x y hxy =>
    simp only [bind_eq_ok, pure_eq_ok] at hpass
    obtain ⟨⟨s, assumed⟩, hexec, rfl⟩ := hpass
    rw [hxy.1.1] at hexec
    obtain ⟨assumed', hexec', hsub⟩ := hg.ops i hexec
    exact ⟨_, bind_eq_ok.2 ⟨_, hjoin', bind_eq_ok.2 ⟨_, hexec', rfl⟩⟩,
      .some ⟨hp.definitions.append hxy.2, .mkAnd (hxy.1.2.cons (.of_subset hsub)), rfl⟩⟩

theorem visitBlock (hp : p.Entails p') (hvisit : visitBlock g target relevant i p = .ok r) :
    ∃ r', ControlReach.visitBlock g' target relevant i p' = .ok r' ∧
      Sum.LiftRel Outcome.Entails Progress.Entails r r' := by
  rw [visitBlock_eq, bind_eq_ok] at hvisit
  obtain ⟨r₀, hpass, hvisit⟩ := hvisit
  obtain ⟨r₁, hpass', hrel⟩ := hg.pass hp hpass
  rw [visitBlock_eq, hpass']
  cases hrel with
  | none =>
    cases hvisit
    exact ⟨_, rfl, .inr hp⟩
  | @some c c' hc =>
    show ∃ r', (if i = target.block then _ else _) = _ ∧ _
    by_cases hi : i = target.block
    · simp only [if_pos hi, pure_eq_ok] at hvisit ⊢
      cases hvisit
      exact ⟨_, rfl, .inl (hc.outcome target)⟩
    · simp only [if_neg hi, bind_eq_ok, pure_eq_ok] at hvisit ⊢
      obtain ⟨q, hfollow, rfl⟩ := hvisit
      rw [hg.edges, hc.store] at hfollow
      have hnow : Progress.Entails ⟨p.incoming, c.definitions⟩ ⟨p'.incoming, c'.definitions⟩ :=
        ⟨hp.arrivals, hc.definitions⟩
      obtain ⟨q', hfollow', hq⟩ := hnow.follow hc.condition hfollow
      exact ⟨.inr q', ⟨q', hfollow', rfl⟩, .inr hq⟩

theorem visitBlocks (hp : p.Entails p')
    (h : (visitBlocks g target relevant order token p).1 = .ok out) :
    ∃ out', (ControlReach.visitBlocks g' target relevant order token p').1 = .ok out' ∧
      out.Entails out' := by
  induction order generalizing token p p' with
  | nil =>
    cases h
    exact ⟨_, rfl, rfl, .refl _⟩
  | cons i order ih =>
    rw [ControlReach.visitBlocks] at h ⊢
    rcases hpoll : token.poll with ⟨stop, token'⟩
    simp only [hpoll] at h ⊢
    cases stop with
    | true => cases h
    | false =>
      cases hvisit : ControlReach.visitBlock g target relevant i p with
      | error => simp [hvisit] at h
      | ok r =>
        obtain ⟨r', hvisit', hrel⟩ := hg.visitBlock hp hvisit
        simp only [hvisit, hvisit', Bool.false_eq_true, if_false] at h ⊢
        cases hrel with
        | inl hout =>
          cases h
          exact ⟨_, rfl, hout⟩
        | inr hp => exact ih hp h

end AssumesMore

/-! ### An added assumption -/

def mapOps (g : FlowGraph) (f : BlockId → List Op → List Op) : FlowGraph :=
  { g with blocks := g.blocks.map fun b => { b with ops := f b.id b.ops } }

section MapOps

variable (g : FlowGraph) (f : BlockId → List Op → List Op)

theorem block?_mapOps (i : BlockId) : (g.mapOps f).block? i =
    (g.block? i).map fun b => { b with ops := f b.id b.ops } := by
  rw [block?, mapOps, find?_map]
  rfl

theorem opsOf_mapOps (hi : i ∈ g.ids) : (g.mapOps f).opsOf i = f i (g.opsOf i) := by
  obtain ⟨b, hb⟩ := exists_block hi
  rw [opsOf, opsOf, block?_mapOps, hb, ← id_of_block hb]
  rfl

theorem edgesOf_mapOps (i : BlockId) : (g.mapOps f).edgesOf i = g.edgesOf i := by
  rw [edgesOf, edgesOf, block?_mapOps, Option.map_map]
  rfl

theorem predecessors_mapOps (i : BlockId) : (g.mapOps f).predecessors i = g.predecessors i := by
  simp only [predecessors, block?_mapOps, Option.map_map, Option.isSome_map]
  rfl

theorem length_blocks_mapOps : (g.mapOps f).blocks.length = g.blocks.length := length_map _

theorem successors_mapOps : (g.mapOps f).successors = g.successors := by
  funext i
  rw [successors, successors, edgesOf_mapOps]

theorem backEdges_mapOps : (g.mapOps f).backEdges = g.backEdges := by
  rw [backEdges, backEdges, successors_mapOps, length_blocks_mapOps]
  rfl

theorem reaching_mapOps (i : BlockId) : (g.mapOps f).reaching i = g.reaching i := by
  rw [reaching, reaching, block?_mapOps, Option.isSome_map, length_blocks_mapOps,
    funext (predecessors_mapOps g f)]

theorem topological_mapOps (within : List BlockId) :
    (g.mapOps f).topological within = g.topological within := by
  rw [topological, topological, successors_mapOps, length_blocks_mapOps]
  rfl

theorem sitesIn_mapOps (within : List BlockId) :
    (g.mapOps f).sitesIn within = g.sitesIn within := by
  simp only [sitesIn, mapOps, filter_map, flatMap_map]
  rfl

end MapOps

/-- Insert an assumption among the operations of a block. -/
def assuming (g : FlowGraph) (i : BlockId) (n : Nat) (c : Rvalue) (loc : Option Location) :
    FlowGraph :=
  g.mapOps fun j ops => if j = i then ops.insertIdx n (.assume c loc) else ops

end FlowGraph

section Insertion

theorem execute_of_assume (h : execute (.assume c loc :: ops) s assumed = .ok (s', assumed')) :
    ∃ fewer, execute ops s assumed = .ok (s', fewer) ∧ fewer ⊆ assumed' := by
  obtain ⟨⟨s₁, assumed₁⟩, hop, h⟩ := bind_eq_ok.1 h
  simp only [Op.execute, bind_eq_ok, pure_eq_ok, Prod.mk.injEq] at hop
  obtain ⟨t, -, rfl, rfl⟩ := hop
  obtain ⟨new, hnew, rfl⟩ := execute_eq_ok h
  refine ⟨assumed ++ new, by rw [execute_eq, hnew]; rfl, ?_⟩
  exact append_subset.2 ⟨Subset.trans (subset_append_left _ _) (subset_append_left _ _),
    subset_append_right _ _⟩

theorem execute_of_insertIdx
    (h : execute (ops.insertIdx n (.assume c loc)) s assumed = .ok (s', assumed')) :
    ∃ fewer, execute ops s assumed = .ok (s', fewer) ∧ fewer ⊆ assumed' := by
  induction n generalizing ops s assumed with
  | zero => exact execute_of_assume h
  | succ n ih =>
    cases ops with
    | nil => exact ⟨assumed', h, Subset.refl _⟩
    | cons op ops =>
      obtain ⟨⟨s₁, assumed₁⟩, hop, h⟩ := bind_eq_ok.1 h
      obtain ⟨fewer, hfewer, hsub⟩ := ih h
      exact ⟨fewer, bind_eq_ok.2 ⟨_, hop, hfewer⟩, hsub⟩

end Insertion

namespace FlowGraph

theorem assumesMore_assuming (g : FlowGraph) (i : BlockId) (n : Nat) (c : Rvalue)
    (loc : Option Location) : (g.assuming i n c loc).AssumesMore g where
  edges := edgesOf_mapOps g _
  ops j s s' assumed h := by
    by_cases hj : j ∈ g.ids
    · rw [assuming, opsOf_mapOps g _ hj] at h
      split at h
      · exact execute_of_insertIdx h
      · exact ⟨assumed, h, Subset.refl _⟩
    · have hnone : g.block? j = none := by
        rw [← Option.not_isSome_iff_eq_none, ← mem_ids_iff]
        exact hj
      rw [opsOf, assuming, block?_mapOps, hnone] at h
      rw [opsOf, hnone]
      exact ⟨assumed, h, Subset.refl _⟩

/-- An added assumption only takes behaviours away: where there is a query with it there is one
without it, for the same observations, and whatever satisfies the assertions of the first satisfies
those of the second. -/
theorem generate_assuming (g : FlowGraph) (i : BlockId) (n : Nat) (c : Rvalue)
    (loc : Option Location) (exclusive : Bool) (t : Target) (token : Token) {q : Query}
    (hq : ((g.assuming i n c loc).generate exclusive t token).1 = .ok q) :
    ∃ q', (g.generate exclusive t token).1 = .ok q' ∧ q'.observations = q.observations ∧
      ∀ (δ : Type) [DecidableEq δ] (denote : String → δ) (v : Valuation δ),
        (∀ a ∈ q.assertions, a.holds denote v = true) →
        ∀ a ∈ q'.assertions, a.holds denote v = true := by
  obtain ⟨hback, hblock, hformula, hside⟩ := formula_of_generate hq
  have hstart : (g.assuming i n c loc).start.Entails g.start :=
    ⟨fun i => forall₂_same.2 fun a _ => ⟨rfl, .refl _⟩, .refl _⟩
  have hids : t.block ∈ g.ids := by
    rwa [mem_ids_iff, assuming, block?_mapOps, Option.isSome_map, ← mem_ids_iff] at hblock
  rw [assuming, backEdges_mapOps] at hback
  rw [formula, assuming, reaching_mapOps, topological_mapOps] at hformula
  rw [assuming, reaching_mapOps, sitesIn_mapOps] at hside
  obtain ⟨out, hout, hobs, hentail⟩ :=
    (g.assumesMore_assuming i n c loc).visitBlocks hstart hformula
  obtain ⟨q', hq', hq'out, hside', -⟩ := generate_of_formula hback hids exclusive hout
  cases hq'out
  refine ⟨q', hq', hobs.symm, ?_⟩
  rw [Query.assertions, Query.assertions, hside'.trans hside.symm]
  exact hentail.cons (.refl q.side)

/-- The assumption that `x` is true, behind the operations of the first block. -/
theorem generate_assuming_fork : ∃ q q',
    ((Fork.graph.assuming 0 2 (.read (Fork.flag 0 "x")) none).generate true Fork.goal .never).1 =
      .ok q ∧ (Fork.graph.generate true Fork.goal .never).1 = .ok q' ∧
    ∀ v : Valuation String, (∀ a ∈ q.assertions, a.holds id v = true) →
      ∀ a ∈ q'.assertions, a.holds id v = true := by
  obtain ⟨q, hq⟩ : ∃ q, ((Fork.graph.assuming 0 2 (.read (Fork.flag 0 "x")) none).generate true
      Fork.goal .never).1 = .ok q := ⟨_, rfl⟩
  obtain ⟨q', hq', -, h⟩ := Fork.graph.generate_assuming 0 2 _ none true Fork.goal .never hq
  exact ⟨q, q', hq, hq', h String id⟩

end FlowGraph

end ControlReach
