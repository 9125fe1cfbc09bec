import ControlReach.Proofs.Traversal

/-!
# Detecting cycles

A search from the entry notes the edges that close a cycle. It notes one exactly if the entry
reaches a cycle, and without the edges noted no cycle is reached.
-/

namespace ControlReach.FlowGraph

open List Relation

variable {g : FlowGraph} {i j : BlockId} {edges : List (BlockId × BlockId)}

/-- The entry reaches no cycle. -/
def CycleFree (g : FlowGraph) : Prop :=
  ∀ i, ReflTransGen (Search.Edge g.successors) g.entry i →
    ¬ TransGen (Search.Edge g.successors) i i

/-- The graph without some of its edges. -/
def withoutEdges (g : FlowGraph) (edges : List (BlockId × BlockId)) : FlowGraph :=
  { g with blocks := g.blocks.map fun b =>
    { b with
      edges := b.edges.filter fun e => (b.id, e.target) ∉ edges
      predecessors := b.predecessors.filter fun j => (j, b.id) ∉ edges } }

theorem block?_withoutEdges (g : FlowGraph) (edges : List (BlockId × BlockId)) (i : BlockId) :
    (g.withoutEdges edges).block? i = (g.block? i).map fun b => { b with
        edges := b.edges.filter fun e => (b.id, e.target) ∉ edges
        predecessors := b.predecessors.filter fun j => (j, b.id) ∉ edges } := by
  rw [block?, withoutEdges, find?_map]
  rfl

theorem edge_withoutEdges : Search.Edge (g.withoutEdges edges).successors i j ↔
      Search.Edge g.successors i j ∧ (i, j) ∉ edges := by
  rw [Search.Edge, Search.Edge, mem_successors_iff, mem_successors_iff, block?_withoutEdges]
  constructor
  · rintro ⟨b', hb', e, he, rfl⟩
    obtain ⟨b, hb, rfl⟩ := Option.map_eq_some_iff.1 hb'
    obtain ⟨he, hkept⟩ := mem_filter.1 he
    rw [id_of_block hb] at hkept
    exact ⟨⟨b, hb, e, he, rfl⟩, of_decide_eq_true hkept⟩
  · rintro ⟨⟨b, hb, e, he, rfl⟩, hkept⟩
    refine ⟨_, Option.map_eq_some_iff.2 ⟨b, hb, rfl⟩, e, mem_filter.2 ⟨he, ?_⟩, rfl⟩
    rw [id_of_block hb]
    exact decide_eq_true hkept

def search (g : FlowGraph) : Search.Trace BlockId :=
  Search.explore g.successors g.blocks.length [g.entry]

theorem mem_backEdges : (i, j) ∈ g.backEdges ↔ Search.Noted g.search i j := by
  simp [backEdges, Search.Noted, search]

theorem Closed.sound_search (hg : g.Closed) : Search.Sound g.successors [] g.search :=
  (Search.explore_singleton_spec hg.successor length_ids hg.entry).1

/-- An edge that is found starts at a block that is reached. -/
theorem Closed.reaches_source (hg : g.Closed) (h : (i, j) ∈ g.backEdges) : g.Walk g.entry i := by
  have hdone : ∀ i, i ∈ g.search.done ↔ _ := fun i => hg.mem_reachable_iff
  obtain ⟨l, hl, rfl, -⟩ := mem_backEdges.1 h
  have hclosed : ∀ a ∈ g.search.done, ∀ b ∈ g.successors a, b ∈ g.search.done :=
    fun a ha b hb => (hdone b).2 (((hdone a).1 ha).tail hb)
  have hroots : ∀ a ∈ [g.entry], a ∈ g.search.done := by simpa using (hdone _).2 .refl
  obtain ⟨hends, hpath⟩ := Search.within_explore hclosed hroots g.blocks.length l hl
  exact (hdone _).1 (hpath _ hends.1)

theorem cycleFree_of_nil (h : g.successors g.entry = []) : g.CycleFree := by
  have hnone : ∀ j, ¬ Search.Edge g.successors g.entry j := by simp [Search.Edge, h]
  intro i hreach hcycle
  rcases ReflTransGen.cases_head hreach with rfl | ⟨j, hj, -⟩
  · obtain ⟨j, hj, -⟩ := TransGen.head'_iff.1 hcycle
    exact hnone j hj
  · exact hnone j hj

theorem backEdges_of_nil (h : g.successors g.entry = []) : g.backEdges = [] := by
  rw [backEdges, Search.explore, foldl_cons, foldl_nil]
  split
  · rfl
  · cases g.blocks.length with
    | zero => rfl
    | succ n => rw [Search.visit, h]; rfl

/-- The edges found lead back along a path; one is found exactly if the entry reaches a cycle, and
without them it reaches none. -/
theorem backEdges_exact (g : FlowGraph)
    (hedges : ∀ b ∈ g.blocks, ∀ e ∈ b.edges, e.target ∈ g.ids) :
    (g.backEdges = [] ↔ g.CycleFree) ∧
    (∀ u v, (u, v) ∈ g.backEdges →
      v ∈ g.successors u ∧ ReflTransGen (Search.Edge g.successors) v u) ∧
    (g.withoutEdges g.backEdges).CycleFree := by
  by_cases hentry : g.entry ∈ g.ids
  · have hg := closed_of_edges hentry hedges
    have hback : ∀ u v, (u, v) ∈ g.backEdges →
        v ∈ g.successors u ∧ ReflTransGen (Search.Edge g.successors) v u := by
      intro u v huv
      obtain ⟨l, hl, rfl, rfl⟩ := mem_backEdges.1 huv
      exact hg.sound_search.loops l hl
    -- An edge that is left leads to a block that was finished earlier.
    have hrest : (g.withoutEdges g.backEdges).CycleFree := by
      intro i hreach hcycle
      have hpath := ReflTransGen.mono (fun a b hab => (edge_withoutEdges.1 hab).1) _ _ hreach
      refine hg.sound_search.not_cyclic (hg.mem_reachable_iff.2 hpath)
        (TransGen.mono (fun a b hab => ?_) _ _ hcycle)
      obtain ⟨hab, hkept⟩ := edge_withoutEdges.1 hab
      exact ⟨hab, fun hnoted => hkept (mem_backEdges.2 hnoted)⟩
    refine ⟨⟨fun hnil => ?_, fun hfree => ?_⟩, hback, hrest⟩
    · have hsame : Search.Edge (g.withoutEdges []).successors = Search.Edge g.successors := by
        funext a b
        simp [edge_withoutEdges]
      rwa [hnil, CycleFree, hsame] at hrest
    · refine eq_nil_iff_forall_not_mem.2 fun ⟨u, v⟩ huv => ?_
      obtain ⟨hedge, hpath⟩ := hback u v huv
      exact hfree u (hg.reaches_source huv) (TransGen.trans_left (.single hedge) hpath)
  · -- Then no edge leaves the entry, and the search ends where it starts.
    have hnil : g.successors g.entry = [] := by
      rw [mem_ids_iff, Option.not_isSome_iff_eq_none] at hentry
      rw [successors, edgesOf, hentry]
      rfl
    have hrest : (g.withoutEdges g.backEdges).successors g.entry = [] := by
      refine eq_nil_iff_forall_not_mem.2 fun j hj => ?_
      have hedge := (edge_withoutEdges.1 hj).1
      rw [Search.Edge, hnil] at hedge
      cases hedge
    rw [backEdges_of_nil hnil] at hrest ⊢
    exact ⟨iff_of_true rfl (cycleFree_of_nil hnil), by simp, cycleFree_of_nil hrest⟩

/-- Two cycles that share an edge, a loop at a block of both, and a cycle that is not reached. -/
def knot : FlowGraph :=
  ofEdges "G" [0, 1, 2, 3, 4] [(0, 1), (1, 2), (2, 1), (2, 0), (1, 1), (2, 1), (3, 4), (4, 3)] 0 []

theorem backEdges_exact_knot : knot.backEdges = [(2, 1), (2, 0), (2, 1), (1, 1)] ∧
    ¬ knot.CycleFree ∧ ReflTransGen (Search.Edge knot.successors) 0 2 ∧
    (knot.withoutEdges [(2, 1), (2, 0), (2, 1), (1, 1)]).CycleFree := by
  have hback : knot.backEdges = [(2, 1), (2, 0), (2, 1), (1, 1)] := by decide +kernel
  obtain ⟨hfree, hedge, hrest⟩ := backEdges_exact knot (by decide)
  refine ⟨hback, fun h => ?_, (hedge 2 0 (by rw [hback]; decide)).2, hback ▸ hrest⟩
  rw [hfree.2 h] at hback
  cases hback

end ControlReach.FlowGraph
