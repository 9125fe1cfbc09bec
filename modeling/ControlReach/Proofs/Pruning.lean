import ControlReach.Proofs.Traversal

/-!
# Pruning

No execution enters blocks that the entry does not reach, and the search for a query does not come
to them either, so the query stays what it is when they are dropped.
-/

namespace ControlReach

open List Relation

/-! ### Searching a part of a graph -/

namespace Search

variable [Ord α] [DecidableEq α] [Std.TransOrd α] [Std.LawfulEqOrd α] {next next' : α → List α}
  {univ : List α}

theorem contains_visit (next : α → List α) : ∀ fuel path v t {a}, t.seen.contains a = true →
    (visit next fuel path v t).seen.contains a = true := by
  intro fuel
  induction fuel with
  | zero => exact fun _ _ _ _ h => h
  | succ fuel ih =>
    intro path v t a h
    refine foldlRecOn (motive := fun t : Trace α => t.seen.contains a = true) (next v) _
      ((contains_insert_iff _ _ _).2 (.inr h)) fun t ht w _ => ?_
    split
    · exact ih _ _ _ ht
    · split <;> exact ht

variable (hclosed : ∀ a ∈ univ, ∀ b ∈ next a, b ∈ univ) (hsame : ∀ a ∈ univ, next a = next' a)

include hclosed hsame

/-- A search does not depend on nodes it does not come to, nor on fuel it does not need. -/
theorem visit_congr :
    ∀ fuel fuel' path v t, (v :: path).Nodup →
      (∀ a ∈ v :: path, a ∈ univ) → (∀ a ∈ path, t.seen.contains a = true) →
      univ.length ≤ fuel + path.length → univ.length ≤ fuel' + path.length →
      visit next fuel path v t = visit next' fuel' path v t := by
  intro fuel
  induction fuel with
  | zero =>
    intro fuel' path v t hn hpath _ hfuel _
    have hlen := length_le_of_nodup hn hpath
    simp at hlen hfuel
    omega
  | succ fuel ih =>
    intro fuel' path v t hn hpath hseen hfuel hfuel'
    cases fuel' with
    | zero =>
      have hlen := length_le_of_nodup hn hpath
      simp at hlen hfuel'
      omega
    | succ fuel' =>
      have hhere : ∀ a ∈ v :: path, (t.seen.insert v).contains a = true := fun a ha =>
        (contains_insert_iff _ _ _).2 ((mem_cons.1 ha).imp_right (hseen a))
      unfold visit
      rw [← hsame v (hpath v mem_cons_self)]
      -- The nodes of the path stay seen while the successors are followed.
      refine congrArg (fun t : Trace α => { t with done := v :: t.done })
        (foldl_rel (r := fun t t' : Trace α => t = t' ∧ ∀ a ∈ v :: path, t.seen.contains a = true)
          (a := { t with seen := t.seen.insert v }) ⟨rfl, hhere⟩ ?_).1
      rintro w hnext t _ ⟨rfl, hseen⟩
      split
      · rename_i hw
        have hnew : w ∉ v :: path := fun hmem => by simp [hseen w hmem] at hw
        refine ⟨ih fuel' (v :: path) w t (nodup_cons.2 ⟨hnew, hn⟩) (forall_mem_cons.2 ⟨?_, hpath⟩)
          hseen (by simp; omega) (by simp; omega), fun a ha => contains_visit next _ _ _ _ (hseen a ha)⟩
        exact hclosed v (hpath v mem_cons_self) w hnext
      · split <;> exact ⟨rfl, hseen⟩

theorem explore_congr (hfuel : univ.length ≤ fuel) (hfuel' : univ.length ≤ fuel') (hv : v ∈ univ) :
    explore next fuel [v] = explore next' fuel' [v] := by
  have hvisit := visit_congr hclosed hsame fuel fuel' [] v Trace.empty (nodup_singleton v)
    (by simpa using hv) (by simp) (by simpa using hfuel) (by simpa using hfuel')
  simp only [explore, foldl_cons, foldl_nil, hvisit]

end Search

/-! ### Visits -/

section Visits

theorem follow_congr (h : ∀ e ∈ edges, (e.target ∈ relevant' ↔ e.target ∈ relevant)) (reach : Term)
    (s : Store) (p : Progress) :
    follow relevant' reach s p edges = follow relevant reach s p edges := by
  induction edges generalizing p with
  | nil => rfl
  | cons e edges ih =>
    obtain ⟨he, hrest⟩ := forall_mem_cons.1 h
    simp only [follow, he, ih hrest]

/-- A visit sees no more of a graph than the block and which of its edges are relevant. -/
theorem visitBlock_congr (hops : g'.opsOf i = g.opsOf i) (hedges : g'.edgesOf i = g.edgesOf i)
    (hrel : ∀ e ∈ g.edgesOf i, (e.target ∈ relevant' ↔ e.target ∈ relevant)) (target : Target)
    (p : Progress) : visitBlock g' target relevant' i p = visitBlock g target relevant i p := by
  simp only [visitBlock_eq, FlowGraph.pass, hops, hedges, follow_congr hrel]

theorem visitBlocks_congr (h : ∀ i ∈ order, g'.opsOf i = g.opsOf i ∧ g'.edgesOf i = g.edgesOf i ∧
    ∀ e ∈ g.edgesOf i, (e.target ∈ relevant' ↔ e.target ∈ relevant)) (target : Target)
    (token : Token) (p : Progress) :
    visitBlocks g' target relevant' order token p = visitBlocks g target relevant order token p := by
  induction order generalizing token p with
  | nil => rfl
  | cons i order ih =>
    obtain ⟨⟨hops, hedges, hrel⟩, hrest⟩ := forall_mem_cons.1 h
    simp only [visitBlocks, visitBlock_congr hops hedges hrel, ih hrest]

end Visits

/-! ### Live blocks -/

namespace FlowGraph

variable {g : FlowGraph} {i j : BlockId} {targets : List Target}

theorem block?_prune (g : FlowGraph) (targets : List Target) (i : BlockId) :
    (g.prune targets).block? i = if i ∈ g.reachable then (g.block? i).map fun b =>
      { b with predecessors := b.predecessors.filter (· ∈ g.reachable) } else none := by
  rw [block?, prune, find?_map, find?_filter]
  split
  · rename_i hlive
    congr 2
    funext b
    by_cases hb : b.id = i <;> simp [hb, hlive]
  · rename_i hdead
    rw [find?_eq_none.2, Option.map_none]
    intro b _ hb
    obtain ⟨hlive, hid⟩ : b.id ∈ g.reachable ∧ b.id = i := by simpa using hb
    exact hdead (hid ▸ hlive)

theorem code_prune (targets : List Target) (hlive : i ∈ g.reachable) :
    (g.prune targets).opsOf i = g.opsOf i ∧ (g.prune targets).edgesOf i = g.edgesOf i := by
  rw [opsOf, opsOf, edgesOf, edgesOf, block?_prune, if_pos hlive]
  cases g.block? i <;> exact ⟨rfl, rfl⟩

theorem successors_prune (targets : List Target) (hlive : i ∈ g.reachable) :
    (g.prune targets).successors i = g.successors i := by
  rw [successors, successors, (code_prune targets hlive).2]

namespace Closed

variable (hg : g.Closed)

include hg

theorem reachable_successor (hi : i ∈ g.reachable) (hj : j ∈ g.successors i) : j ∈ g.reachable :=
  hg.mem_reachable_iff.2 ((hg.mem_reachable_iff.1 hi).tail hj)

theorem mem_ids (h : i ∈ g.reachable) : i ∈ g.ids := by
  have hpath := hg.mem_reachable_iff.1 h
  clear h
  induction hpath with
  | refl => exact hg.entry
  | tail _ hedge ih => exact hg.successor _ ih _ hedge

theorem mem_ids_prune : i ∈ (g.prune targets).ids ↔ i ∈ g.reachable := by
  rw [mem_ids_iff, block?_prune]
  split
  · rename_i hlive
    rw [Option.isSome_map, ← mem_ids_iff]
    exact iff_of_true (hg.mem_ids hlive) hlive
  · rename_i hdead
    exact iff_of_false (by simp) hdead

theorem edge_prune : Search.Edge (g.prune targets).successors i j ↔
    i ∈ g.reachable ∧ Search.Edge g.successors i j := by
  by_cases hlive : i ∈ g.reachable
  · rw [Search.Edge, successors_prune targets hlive, and_iff_right hlive]
    rfl
  · refine iff_of_false (fun h => ?_) fun h => hlive h.1
    obtain ⟨b, hb, -⟩ := mem_successors_iff.1 h
    exact hlive (hg.mem_ids_prune.1 (mem_ids_of_block hb))

/-- From a live block, the same blocks are reached. -/
theorem path_prune_iff (hlive : i ∈ g.reachable) :
    ReflTransGen (Search.Edge (g.prune targets).successors) i j ↔
      g.Walk i j := by
  refine ⟨ReflTransGen.mono (fun a b hab => (hg.edge_prune.1 hab).2) i j, fun h => ?_⟩
  induction h using ReflTransGen.head_induction_on with
  | refl => exact .refl
  | head hedge _ ih =>
    exact (ih (hg.reachable_successor hlive hedge)).head (hg.edge_prune.2 ⟨hlive, hedge⟩)

theorem consistent_prune (hcons : g.Consistent) : (g.prune targets).Consistent := by
  intro i b' hb' j
  rw [block?_prune] at hb'
  split at hb'
  · obtain ⟨b, hb, rfl⟩ := Option.map_eq_some_iff.1 hb'
    rw [mem_filter, decide_eq_true_eq, hcons i b hb j, and_comm]
    exact hg.edge_prune.symm
  · cases hb'

theorem mem_reaching_prune (hcons : g.Consistent) (ht : t ∈ g.reachable) :
    i ∈ (g.prune targets).reaching t ↔ i ∈ g.reachable ∧ i ∈ g.reaching t := by
  rw [mem_reaching_iff_path (hg.consistent_prune hcons) (hg.mem_ids_prune.2 ht),
    mem_reaching_iff_path hcons (hg.mem_ids ht)]
  constructor
  · intro h
    have hlive : i ∈ g.reachable := by
      rcases ReflTransGen.cases_head h with rfl | ⟨j, hj, -⟩
      · exact ht
      · exact (hg.edge_prune.1 hj).1
    exact ⟨hlive, (hg.path_prune_iff hlive).1 h⟩
  · exact fun h => (hg.path_prune_iff h.1).2 h.2

omit hg in
theorem length_ids_prune : (g.prune targets).ids.length ≤ g.blocks.length := by
  rw [ids, length_map, prune, length_map]
  exact length_filter_le _ _

theorem prune (targets : List Target) : (g.prune targets).Closed := by
  refine ⟨hg.mem_ids_prune.2 (hg.mem_reachable_iff.2 .refl), fun i hi j hj => ?_⟩
  rw [successors_prune targets (hg.mem_ids_prune.1 hi)] at hj
  exact hg.mem_ids_prune.2 (hg.reachable_successor (hg.mem_ids_prune.1 hi) hj)

theorem explore_prune (targets : List Target) :
    Search.explore (g.prune targets).successors (g.prune targets).blocks.length [g.entry] =
      Search.explore g.successors g.blocks.length [g.entry] :=
  Search.explore_congr (hg.prune targets).successor
    (fun _ hi => successors_prune targets (hg.mem_ids_prune.1 hi)) length_ids length_ids_prune
    (hg.prune targets).entry

theorem reachable_prune (targets : List Target) : (g.prune targets).reachable = g.reachable :=
  congrArg Search.Trace.done (hg.explore_prune targets)

theorem backEdges_prune : (g.prune targets).backEdges = g.backEdges :=
  congrArg (fun s => s.loops.map fun l => (l.source, l.target)) (hg.explore_prune targets)

/-- The blocks on the way to a live block are visited in the same order. -/
theorem topological_prune (hcons : g.Consistent) (ht : t ∈ g.reachable) :
    (g.prune targets).topological ((g.prune targets).reaching t) =
      g.topological (g.reaching t) := by
  have hreaching : ∀ i ∈ g.reachable,
      (i ∈ (g.prune targets).reaching t ↔ i ∈ g.reaching t) := fun i hi => by
    rw [hg.mem_reaching_prune hcons ht, and_iff_right hi]
  have hinside : ∀ i ∈ g.reachable,
      (g.prune targets).inside ((g.prune targets).reaching t) i = g.inside (g.reaching t) i := by
    intro i hi
    rw [inside, inside, successors_prune targets hi]
    exact filter_congr fun j hj =>
      decide_eq_decide.2 (hreaching j (hg.reachable_successor hi hj))
  rw [topological, topological]
  refine if_congr (hreaching _ (hg.mem_reachable_iff.2 .refl)) (congrArg Search.Trace.done ?_) rfl
  exact Search.explore_congr (fun i _ j hj => reaching_subset_ids (mem_inside.1 hj).2)
    (fun i hi => hinside i (hg.mem_ids_prune.1 hi)) length_ids length_ids_prune
    (hg.prune targets).entry

theorem formula_prune (hcons : g.Consistent) {t : Target} (ht : t.block ∈ g.reachable)
    (token : Token) : (g.prune targets).formula t ((g.prune targets).reaching t.block) token =
      g.formula t (g.reaching t.block) token := by
  rw [formula, formula, hg.topological_prune hcons ht]
  refine visitBlocks_congr (fun i hi => ?_) t token _
  have hlive : i ∈ g.reachable := by
    obtain ⟨-, hpath⟩ := (mem_topological_iff fun _ => reaching_subset_ids).1 hi
    exact hg.mem_reachable_iff.2
      (ReflTransGen.mono (fun a b hab => (mem_inside.1 hab).1) _ _ hpath)
  obtain ⟨hops, hedgesOf⟩ := code_prune targets hlive
  refine ⟨hops, hedgesOf, fun e he => ?_⟩
  rw [hg.mem_reaching_prune hcons ht, and_iff_right]
  exact hg.reachable_successor hlive (mem_map_of_mem he)

theorem prune_prune (targets : List Target) :
    (g.prune targets).prune targets = { g.prune targets with pruned := 0 } := by
  have hblocks : ∀ b ∈ (g.prune targets).blocks, b.id ∈ g.reachable ∧
      b.predecessors.filter (· ∈ g.reachable) = b.predecessors := by
    intro b hb
    obtain ⟨c, hc, rfl⟩ := mem_map.1 hb
    exact ⟨of_decide_eq_true (mem_filter.1 hc).2, by simp⟩
  have hkept : (g.prune targets).blocks.filter (fun b => decide (b.id ∈ g.reachable)) =
      (g.prune targets).blocks := filter_eq_self.2 fun b hb => decide_eq_true (hblocks b hb).1
  have hdropped : (g.prune targets).blocks.filter (fun b => decide (b.id ∉ g.reachable)) = [] :=
    filter_eq_nil_iff.2 fun b hb => by simp [(hblocks b hb).1]
  have hsame : (g.prune targets).blocks.map (fun b =>
      { b with predecessors := b.predecessors.filter (· ∈ g.reachable) }) =
      (g.prune targets).blocks := by
    refine (map_congr_left fun b hb => ?_).trans (map_id _)
    rw [(hblocks b hb).2]
    rfl
  rw [FlowGraph.prune, hg.reachable_prune]
  simp only [hkept, hdropped, hsame, length_nil]
  rfl

theorem block_prune (hcons : g.Consistent) (hb' : (g.prune targets).block? i = some b') : ∃ b,
    g.block? i = some b ∧ b' = { b with predecessors := b'.predecessors } ∧ b'.predecessors =
    b.predecessors.filter (i ∈ (g.prune targets).successors ·) := by
  rw [block?_prune] at hb'
  split at hb'
  · obtain ⟨b, hb, rfl⟩ := Option.map_eq_some_iff.1 hb'
    refine ⟨b, hb, rfl, filter_congr fun j hj => decide_eq_decide.2 ?_⟩
    exact (hg.edge_prune.trans (and_iff_left ((hcons i b hb j).1 hj))).symm
  · cases hb'

end Closed

def found (g : FlowGraph) (exclusive : Bool) (t : Target) (token : Token) :
    Except GenerationFault Outcome × Token :=
  ((g.generate exclusive t token).1.map fun q => (q.formula, q.observations),
    (g.generate exclusive t token).2)

theorem found_eq {t : Target} (ht : t.block ∈ g.ids) (exclusive : Bool) (token : Token) :
    g.found exclusive t token = if g.backEdges = [] then g.formula t (g.reaching t.block) token
      else (.error (.rejected (.of (.unrolling g.name) t.loc)), token) := by
  by_cases hback : g.backEdges = []
  · rw [found, generate_eq, if_neg (not_not.2 hback), if_neg (not_not.2 ht), if_pos hback]
    obtain ⟨_ | _, _⟩ := g.formula t (g.reaching t.block) token <;> rfl
  · rw [found, generate_eq, if_pos hback, if_neg hback]
    rfl

/-- Pruning keeps the blocks that are reached, with their edges and the predecessors of these,
splits the error locations by whether they are live, and changes no query. -/
theorem prune_spec (g : FlowGraph) (hentry : g.entry ∈ g.ids)
    (hedges : ∀ b ∈ g.blocks, ∀ e ∈ b.edges, e.target ∈ g.ids) (hcons : g.Consistent)
    (targets : List Target) :
    (∀ i, i ∈ (g.prune targets).ids ↔ ReflTransGen (Search.Edge g.successors) g.entry i) ∧
    (∀ i b', (g.prune targets).block? i = some b' → ∃ b, g.block? i = some b ∧
      b' = { b with predecessors := b'.predecessors } ∧
      b'.predecessors = b.predecessors.filter (i ∈ (g.prune targets).successors ·) ∧
      (∀ j, j ∈ b'.predecessors ↔ i ∈ (g.prune targets).successors j) ∧
      ((∀ j, b.predecessors.count j = (g.successors j).count i) →
        ∀ j, b'.predecessors.count j = ((g.prune targets).successors j).count i)) ∧
    (g.prune targets).targets = targets.filter (·.block ∈ (g.prune targets).ids) ∧
    (g.prune targets).deadTargets = targets.filter (·.block ∉ (g.prune targets).ids) ∧
    (g.prune targets).prune targets = { g.prune targets with pruned := 0 } ∧
    ∀ t : Target, t.block ∈ (g.prune targets).ids → ∀ exclusive token,
      (g.prune targets).found exclusive t token = g.found exclusive t token := by
  have hg := closed_of_edges hentry hedges
  have hids : ∀ {i}, i ∈ (g.prune targets).ids ↔ i ∈ g.reachable := hg.mem_ids_prune
  refine ⟨fun i => hids.trans hg.mem_reachable_iff, fun i b' hb' => ?_, ?_, ?_,
    hg.prune_prune targets, fun t ht exclusive token => ?_⟩
  · obtain ⟨b, hb, heq, hpred⟩ := hg.block_prune hcons hb'
    refine ⟨b, hb, heq, hpred, hg.consistent_prune hcons i b' hb', fun hcount j => ?_⟩
    by_cases hj : i ∈ (g.prune targets).successors j
    · have hlive := (hg.edge_prune.1 hj).1
      rw [hpred, count_filter (by simpa using hj), hcount, successors_prune targets hlive]
    · rw [count_eq_zero.2 hj, count_eq_zero, hpred]
      simp [hj]
  · exact filter_congr fun t _ => decide_eq_decide.2 hids.symm
  · exact filter_congr fun t _ => decide_eq_decide.2 (not_congr hids.symm)
  · have hlive := hids.1 ht
    rw [found_eq ht, found_eq (hg.mem_ids hlive), hg.backEdges_prune, hg.formula_prune hcons hlive]
    rfl

/-- A block that is not reached leads to the error location, and goes. -/
theorem prune_spec_diamond : (diamond.prune diamond.targets).ids = [0, 1, 2, 3] ∧
    ((diamond.prune diamond.targets).block? 3).map FlowBlock.predecessors = some [1, 2] ∧
    (diamond.block? 3).map FlowBlock.predecessors = some [1, 2, -1] ∧
    ∀ exclusive token, ∀ t ∈ diamond.targets,
      (diamond.prune diamond.targets).found exclusive t token =
        diamond.found exclusive t token := by
  have hids : (diamond.prune diamond.targets).ids = [0, 1, 2, 3] := by decide +kernel
  have hcons : diamond.Consistent := consistent_of_forall (by decide) (by decide)
  obtain ⟨-, -, -, -, -, hsame⟩ := prune_spec diamond (by decide) (by decide) hcons diamond.targets
  refine ⟨hids, by decide +kernel, by decide, fun exclusive token t ht => hsame t ?_ _ _⟩
  rw [hids]
  obtain rfl : t = ⟨"G", 0, .bug, 3, "", none, []⟩ := mem_singleton.1 ht
  decide

end FlowGraph

end ControlReach
