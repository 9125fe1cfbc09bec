import ControlReach.Proofs.Passage

/-!
# Solutions are executions

A valuation that satisfies a query describes an execution: its edges have true selectors, its
`havoc`s store the values of their unknowns, and it ends with the observed values.
-/

namespace ControlReach

open List FlowGraph Term

variable {g : FlowGraph} {types : Nat → Ty} {target : Target} {v : Valuation String}

/-! ### Labels -/

/-- The labels that a valuation selects. -/
def FlowGraph.selection (g : FlowGraph) (v : Valuation String) : Selection := fun n label =>
  match g.site? n with
  | some s => v.flag (s.guardName label)
  | none => false

theorem Rvalue.selected_selection {e : Rvalue} (h : e.HasType g.site? types ty) :
    e.Selected (g.selection v) v := by
  intro p hp
  obtain ⟨s, hs, -, hname⟩ := Rvalue.guards_spec e ty h p hp
  rw [selection, hs, hname]

theorem Op.selected_selection {op : Op} (h : op.WellTyped g.site? types) :
    op.Selected (g.selection v) v := by
  cases op with
  | assign x path e loc =>
    obtain ⟨-, ty, -, hty⟩ := h
    exact Rvalue.selected_selection hty
  | havoc => simp [Op.Selected, Op.guards]
  | assume e loc => exact Rvalue.selected_selection h

namespace FlowGraph

theorem id_of_site (h : g.site? n = some s) : s.id = n := by
  simpa using find?_some h

theorem decided_of_exclusivity (hs : g.site? n = some s) (h : (exclusivity s).holds id v = true) :
    s.Decided (g.selection v) := by
  have hsel : ∀ label, g.selection v s.id label = v.flag (s.guardName label) := fun label => by
    rw [id_of_site hs, selection, hs]
  rw [exclusivity, holds_mkOne, beq_iff_eq, TableSite.guardNames, map_map, countP_map] at h
  obtain ⟨label, hl⟩ : ∃ label, s.labels.filter
      (holds id v ∘ flag ∘ s.guardName) = [label] := by
    rw [← length_eq_one_iff, ← countP_eq_length_filter]
    exact h
  have hmem : ∀ l, (l ∈ s.labels ∧ g.selection v s.id l = true) ↔ l = label := fun l => by
    have : l ∈ s.labels.filter (holds id v ∘ flag ∘ s.guardName) ↔ l = label := by
      rw [hl, mem_singleton]
    rw [hsel, ← this, mem_filter]
    simp
  refine ⟨label, (hmem label).2 rfl, fun l hl => (hmem l).1 hl⟩

theorem mem_sitesIn (hi : i ∈ within) (hn : n ∈ g.choices i) (hs : g.site? n = some s) :
    s ∈ g.sitesIn within := by
  obtain ⟨e, he, hsite⟩ := mem_filterMap.1 hn
  obtain ⟨b, hb, he⟩ := mem_edgesOf.1 he
  rw [sitesIn, mem_filterMap]
  refine ⟨n, ?_, hs⟩
  rw [Order.sortNats, Order.mem_sort, mem_eraseDups, mem_flatMap]
  refine ⟨b, mem_filter.2 ⟨mem_blocks_of_block hb, ?_⟩, mem_filterMap.2 ⟨e, he, hsite⟩⟩
  simpa [id_of_block hb] using hi

end FlowGraph

/-! ### Arrivals -/

/-- What has come in under a true condition has come from an execution. -/
def Progress.Justified (p : Progress) (g : FlowGraph) (v : Valuation String) : Prop :=
  ∀ j, ∀ a ∈ p.arrivals j, a.condition.holds id v = true →
    ∃ σ, g.Arrives (.of (g.selection v) v) j σ ∧ a.store.Describes v σ

theorem FlowGraph.start_justified (g : FlowGraph) (v : Valuation String) :
    g.start.Justified g v := by
  intro j a ha _
  obtain ⟨rfl, rfl⟩ := mem_arrivals_start ha
  exact ⟨State.empty, .refl, Store.describes_nil v _⟩

section Passing

variable {p : Progress} {c : Passage}

theorem Passage.Enters.arrives (hc : c.Enters types g i p a defs new) (hp : p.Justified g v)
    (hdefs : ∀ t ∈ defs, t.holds id v = true) (ha : a.condition.holds id v = true) :
    ∃ σ, g.Arrives (.of (g.selection v) v) i σ ∧ a.store.Describes v σ := by
  rcases hc.cases with ⟨harr, -⟩ | hj
  · exact hp i a (by rw [harr]; exact mem_cons_self) ha
  · rw [hj.condition, holds_mkOr] at ha
    obtain ⟨sel, hsel, hv⟩ := ha
    obtain ⟨k, hk, rfl⟩ := mem_iff_getElem.1 hsel
    have hlen : (selectors i (p.arrivals i).length).length = (p.arrivals i).length := by
      simp [selectors]
    have hmem : ((selectors i (p.arrivals i).length)[k], (p.arrivals i)[k]) ∈
        (selectors i (p.arrivals i).length).zip (p.arrivals i) := by
      rw [mem_iff_getElem]
      exact ⟨k, by simp only [length_zip]; omega, by simp⟩
    obtain ⟨hcond, hmatch⟩ := (hj.holds_iff v).1 hdefs _ hmem hv
    obtain ⟨σ, hσ, hdesc⟩ := hp i _ (getElem_mem _) hcond
    exact ⟨σ, hσ, hmatch.describes hdesc⟩

/-- A block whose end is reached under a true condition is executed to its end. -/
theorem Passage.Enters.ends (hg : g.WellTyped types) (hc : c.Enters types g i p a defs new)
    (hp : p.Justified g v) (hdefs : ∀ t ∈ defs, t.holds id v = true)
    (hv : c.condition.holds id v = true) : ∃ σ τ, g.Arrives (.of (g.selection v) v) i σ ∧
      Op.Steps (.of (g.selection v) v) (g.opsOf i) σ τ ∧ c.store.Describes v τ := by
  obtain ⟨ha, hnew⟩ := (hc.holds_condition_iff v).1 hv
  obtain ⟨σ, hσ, hdesc⟩ := hc.arrives hp hdefs ha
  have hsel : ∀ op ∈ g.opsOf i, op.Selected (g.selection v) v := fun op hop =>
    Op.selected_selection (hg.opsOf i op hop)
  obtain ⟨τ, hsteps⟩ := hc.faithful.progress hdesc hsel hnew
  exact ⟨σ, τ, hσ, hsteps, (hc.faithful.describes hdesc hsel hsteps).2⟩

theorem visitBlock_justified (hg : g.WellTyped types) (hty : p.Typed types)
    (hp : p.Justified g v) (h : visitBlock g target relevant i p = .ok (.inr p'))
    (hdecided : ∀ n ∈ g.choices i, ∀ s, g.site? n = some s → s.Decided (g.selection v))
    (hdefs : ∀ t ∈ p'.definitions, t.holds id v = true) : p'.Justified g v := by
  rcases visitBlock_inr h with ⟨-, rfl⟩ | ⟨-, c, hpass, hfollow⟩
  · exact hp
  · obtain ⟨a, defs, new, hc⟩ := pass_spec hg hty hpass
    have hdefs : ∀ t ∈ defs, t.holds id v = true := by
      rw [(follow_spec hfollow).1, hc.definitions, forall_mem_append] at hdefs
      exact hdefs.2
    intro j b hb hcond
    rcases mem_arrivals_follow hfollow hb with hb | ⟨e, he, rfl, t, ht, rfl⟩
    · exact hp j b hb hcond
    · rw [holds_mkAnd_pair, Bool.and_eq_true] at hcond
      obtain ⟨σ, τ, hσ, hsteps, hτ⟩ := hc.ends hg hp hdefs hcond.1
      obtain ⟨-, hopen⟩ := Edge.condition_spec hg.distinct hc.faithful.typed (hg.guardsOf i e he) ht
      have hsel : e.Selected (g.selection v) v := fun guard hguard =>
        Rvalue.selected_selection (hg.guardsOf i e he guard hguard)
      refine ⟨τ, hσ.tail ?_, hτ⟩
      obtain ⟨b, hb, he⟩ := mem_edgesOf.1 he
      rw [opsOf_of_block hb] at hsteps
      exact .mk hb hsteps hdecided he ((hopen v τ _ hτ hsel).1 hcond.2)

end Passing

/-! ### The execution -/

section Solution

/-- The last visit of a traversal whose formula holds ends an execution. -/
theorem Visits.exists_ends (h : Visits g target relevant order p out) (hg : g.WellTyped types)
    (hty : p.Typed types) (hp : p.Justified g v) (hblock : target.block ∈ g.ids)
    (hdecided : ∀ i ∈ order, ∀ n ∈ g.choices i, ∀ s, g.site? n = some s → s.Decided (g.selection v))
    (hv : out.1.holds id v = true) :
    ∃ c σ, (g.passages relevant order p).lookup target.block = some c ∧ out = c.outcome target ∧
      c.store.Typed types ∧ g.Ends (.of (g.selection v) v) target.block σ ∧
      c.store.Describes v σ := by
  induction h with
  | nil => simp [holds] at hv
  | @found i rest p out hvisit =>
    obtain ⟨rfl, c, hpass, rfl⟩ := visitBlock_inl hvisit
    obtain ⟨a, defs, new, hc⟩ := pass_spec hg hty hpass
    have hall := holds_mkAnd.1 hv
    have hdefs : ∀ t ∈ defs, t.holds id v = true := fun t ht =>
      hall t (by simp [hc.definitions, ht])
    obtain ⟨σ, τ, hσ, hsteps, hτ⟩ := hc.ends hg hp hdefs (hall _ (by simp))
    refine ⟨c, τ, lookup_passages_self hpass, rfl, hc.faithful.typed, ?_, hτ⟩
    obtain ⟨b, hb⟩ := exists_block hblock
    rw [opsOf_of_block hb] at hsteps
    exact ⟨b, σ, hσ, hb, hsteps⟩
  | @next i rest p p' out hvisit hrest ih =>
    have hty' := visitBlock_typed hg hty hvisit
    obtain ⟨hi, hdecided⟩ := forall_mem_cons.1 hdecided
    have hp' := visitBlock_justified hg hty hp hvisit hi (hrest.holds_definitions hv)
    obtain ⟨c, σ, hlast, hout⟩ := ih hty' hp' hdecided hv
    exact ⟨c, σ, (lookup_passages_inr hvisit).trans hlast, hout⟩

end Solution

namespace FlowGraph

/-- The observations are the leaves at the end of an execution, as far as variables are held there.
-/
structure Observed (g : FlowGraph) (target : Target) (observations : List (String × Symbol))
    (v : Valuation String) (σ : State) : Prop where
  leaf : ∀ x y, (x, y) ∈ target.observed → y.uid ∈ g.held target →
    ∃ d, σ y.uid = some d ∧ ∀ path leaf, (path, leaf) ∈ d.leaves [] →
      ∃ sym, observations.lookup (observationKey x path) = some sym ∧
        (symbol sym).datum v = leaf
  unknown : ∀ key sym, observations.lookup key = some sym →
    ∃ x y d path, (x, y) ∈ target.observed ∧ y.uid ∈ g.held target ∧ σ y.uid = some d ∧
      observationKey x path = key ∧ (path, (symbol sym).datum v) ∈ d.leaves []

end FlowGraph

theorem Passage.observed_of_datum {c : Passage} (hheld : g.held target = c.store.map Prod.fst)
    (hty : c.store.Typed types) (hσ : c.store.Describes v σ) (hdatum : ∀ key t sym, (key, t) ∈
    c.store.reported target.observed → (c.outcome target).2.lookup key = some sym → (symbol
    sym).datum v = t.datum v) : g.Observed target (c.outcome target).2 v σ := by
  have hb := c.keysBound target
  refine ⟨fun x y hxy hy => ?_, fun key sym hsym => ?_⟩
  · rw [hheld, mem_map] at hy
    obtain ⟨⟨n, z, w⟩, hmem, rfl⟩ := hy
    have hw := (Store.value_iff hty).2 ⟨z, hmem⟩
    refine ⟨_, hσ.value hw, fun path leaf hleaf => ?_⟩
    rw [SymValue.leaves_datum, mem_map] at hleaf
    obtain ⟨⟨path', t⟩, ht, heq⟩ := hleaf
    cases heq
    have hrep : (observationKey x path', t) ∈ c.store.reported target.observed :=
      Store.mem_reported.2 ⟨x, y, w, path', hxy, hw, ht, rfl⟩
    obtain ⟨sym, hsym, -⟩ := hb.equation _ t hrep
    exact ⟨sym, hsym, hdatum _ t sym hrep hsym⟩
  · obtain ⟨t, ht, -⟩ := (hb.origin key sym hsym).resolve_left (by simp)
    obtain ⟨x, y, w, path, hxy, hw, hleaf, rfl⟩ := Store.mem_reported.1 ht
    obtain ⟨z, hz⟩ := Store.mem_of_value hw
    refine ⟨x, y, _, path, hxy, ?_, hσ.value hw, rfl, ?_⟩
    · rw [hheld]
      exact mem_map_of_mem hz
    · rw [SymValue.leaves_datum, hdatum _ t sym ht hsym]
      exact mem_map_of_mem hleaf

theorem Passage.datum_of_holds {c : Passage} (hsorted : (c.outcome target).1.WellSorted)
    (hholds : (c.outcome target).1.holds id v = true)
    (ht : (key, t) ∈ c.store.reported target.observed)
    (hsym : (c.outcome target).2.lookup key = some sym) :
    (symbol sym).datum v = t.datum v := by
  have hb := c.keysBound target
  obtain ⟨sym', hsym', heq⟩ := hb.equation key t ht
  obtain rfl := Option.some.inj (hsym'.symm.trans hsym)
  have hmem : mkEq (.symbol sym') t ∈ c.definitions ++ c.condition ::
      (observe target c.store [] target.observed).2 := by simp [heq]
  have heq := holds_mkAnd.1 hholds _ hmem
  have hsort : (symbol sym').sort = t.sort :=
    sort_of_mkEq (wellSorted_of_mkAnd hsorted hholds _ hmem) heq
  exact (holds_mkEq_iff hsort).1 heq

theorem FlowGraph.held_of_passage? (h : g.passage? target target.block = some c) :
    g.held target = c.store.map Prod.fst := by
  rw [held, h]
  rfl

/-- **Solutions are executions**, which store the values of their unknowns, take open edges and one
label at each site, and end with the observed leaves. -/
theorem FlowGraph.exists_execution_of_holds {token : Token} {q : Query} (hg : g.WellTyped types)
    (hq : (g.generate true target token).1 = .ok q)
    (hsorted : ∀ a ∈ q.assertions, a.WellSorted)
    (hholds : ∀ a ∈ q.assertions, a.holds id v = true) :
    ∃ σ, g.Ends (.of (g.selection v) v) target.block σ ∧
      g.Observed target q.observations v σ := by
  obtain ⟨hblock, hvisits, hside⟩ := generate_eq_ok hq
  have hwithin : ∀ i ∈ g.reaching target.block, i ∈ g.ids := fun i hi => reaching_subset_ids hi
  have hdecided : ∀ i ∈ g.topological (g.reaching target.block), ∀ n ∈ g.choices i, ∀ s,
      g.site? n = some s → s.Decided (g.selection v) := by
    intro i hi n hn s hs
    refine decided_of_exclusivity hs (hholds _ (mem_cons_of_mem _ ?_))
    rw [hside, if_pos rfl]
    exact mem_map_of_mem (mem_sitesIn (topological_subset hwithin hi) hn hs)
  have hformula : q.formula.holds id v = true := hholds _ mem_cons_self
  obtain ⟨c, σ, hlast, hout, hty, hends, hdesc⟩ := hvisits.exists_ends hg (g.start_typed types)
    (g.start_justified v) hblock hdecided hformula
  have hformula : (c.outcome target).1.holds id v = true := by rwa [← hout]
  have hsorted : (c.outcome target).1.WellSorted := by
    rw [← hout]
    exact hsorted _ mem_cons_self
  have hobs : q.observations = (c.outcome target).2 := congrArg Prod.snd hout
  rw [hobs]
  exact ⟨σ, hends, c.observed_of_datum (held_of_passage? hlast) hty hdesc
    fun key t sym ht hsym => Passage.datum_of_holds hsorted hformula ht hsym⟩

namespace Fork

def flag (uid : Nat) (name : String) : Variable :=
  ⟨uid, name, .bool, .ordinary, .data, false, name⟩

def site : TableSite := ⟨0, "t", ["a", "$miss"], none⟩

def goal : Target :=
  ⟨"c", 0, .bug, 4, "", none, [("x", flag 0 "x"), ("y", flag 1 "y")]⟩

/-- An action negates `x` into `y`, a miss does not, and the error location asks for `y`. -/
def graph : FlowGraph where
  name := "c"
  blocks := [
    ⟨0, "entry", [.havoc (flag 0 "x") 0 none, .havoc (flag 1 "y") 1 none],
      [⟨1, .tableAction, some (site.guard "a")⟩,
        ⟨2, .tableMiss, some (site.guard "$miss")⟩], [], none⟩,
    ⟨1, "t.a", [.assign (flag 1 "y") [] (.not (.read (flag 0 "x"))) none],
      [⟨3, .fallthrough, none⟩], [0], none⟩,
    ⟨2, "t.$miss", [], [⟨3, .fallthrough, none⟩], [0], none⟩,
    ⟨3, "t-join", [.assume (.read (flag 1 "y")) none], [⟨4, .assertFail, none⟩], [1, 2], none⟩,
    ⟨4, "bug", [], [], [3], some goal⟩]
  entry := 0
  targets := [goal]
  deadTargets := []
  sites := [site]
  inputs := []
  pruned := 0

theorem wellTyped : graph.WellTyped fun _ => .bool where
  distinct _ := by simp [Ty.Distinct]
  ops := by simp [graph, Op.WellTyped, flag, Ty.bare, Ty.at?, Rvalue.HasType]
  guards := by
    simp [graph, Rvalue.HasType, site, TableSite.guard, site?]

def query : Query :=
  match (graph.generate true goal .never).1 with
  | .ok q => q
  | .error _ => ⟨goal, ff, [], [], []⟩

theorem generate_eq : (graph.generate true goal .never).1 = .ok query := by rfl

def valuation : Valuation String where
  flag name := name ∈ ["t#0.a", "edge@3.1", "y@join3", "c#0|y"]
  text _ := ""

end Fork

/-- The valuation in which the action is selected belongs to an execution of the fork. -/
theorem FlowGraph.exists_execution_of_holds_fork :
    (∀ a ∈ Fork.query.assertions, a.WellSorted) ∧
    (∀ a ∈ Fork.query.assertions, a.holds id Fork.valuation = true) ∧
    ∃ σ, Fork.graph.Ends (.of (Fork.graph.selection Fork.valuation) Fork.valuation)
        Fork.goal.block σ ∧
      Fork.graph.Observed Fork.goal Fork.query.observations Fork.valuation σ :=
  ⟨by decide +kernel, by decide +kernel, exists_execution_of_holds Fork.wellTyped
    Fork.generate_eq (by decide +kernel) (by decide +kernel)⟩

end ControlReach
