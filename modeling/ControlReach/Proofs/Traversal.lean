import ControlReach.Proofs.Execution
import ControlReach.Proofs.Success
import ControlReach.Query.Generate

/-!
# Visiting the blocks of a graph

The blocks from which the error location is reachable are visited after their predecessors, and each
visit hands what it has found to the successors.
-/

namespace ControlReach

open List Relation Term

/-! ### Blocks in order -/

variable {b : FlowBlock} {p' : Progress}

namespace FlowGraph

variable {g : FlowGraph} {i j : BlockId} {within : List BlockId}

theorem mem_ids_iff : i ∈ g.ids ↔ (g.block? i).isSome = true := by
  simp [ids, block?]

theorem length_ids : g.ids.length ≤ g.blocks.length := Nat.le_of_eq (length_map _)

section

variable (h : g.block? i = some b)

include h

theorem mem_ids_of_block : i ∈ g.ids :=
  mem_ids_iff.2 (by rw [h]; rfl)

theorem id_of_block : b.id = i := by
  simpa using find?_some h

theorem mem_blocks_of_block : b ∈ g.blocks :=
  mem_of_find?_eq_some h

theorem edgesOf_of_block : g.edgesOf i = b.edges := by
  rw [edgesOf, h]
  rfl

end

theorem mem_edgesOf : e ∈ g.edgesOf i ↔ ∃ b, g.block? i = some b ∧ e ∈ b.edges := by
  rw [edgesOf]
  cases g.block? i <;> simp

theorem exists_block (hi : i ∈ g.ids) : ∃ b, g.block? i = some b :=
  Option.isSome_iff_exists.1 (mem_ids_iff.1 hi)

/-- The entry is a block, and edges lead to blocks. -/
structure Closed (g : FlowGraph) : Prop where
  entry : g.entry ∈ g.ids
  successor : ∀ i ∈ g.ids, ∀ j ∈ g.successors i, j ∈ g.ids

theorem closed_of_edges (hentry : g.entry ∈ g.ids)
    (hedges : ∀ b ∈ g.blocks, ∀ e ∈ b.edges, e.target ∈ g.ids) : g.Closed := by
  refine ⟨hentry, fun i _ j hj => ?_⟩
  obtain ⟨b, hb, e, he, rfl⟩ := mem_successors_iff.1 hj
  exact hedges b (mem_blocks_of_block hb) e he

theorem Closed.mem_reachable_iff (h : g.Closed) : i ∈ g.reachable ↔ g.Walk g.entry i :=
  Search.mem_reachable_iff h.successor length_ids h.entry i

theorem mem_ids_of_predecessors (h : j ∈ g.predecessors i) : j ∈ g.ids :=
  mem_ids_iff.2 (mem_filter.1 h).2

theorem mem_reaching_iff (hi : i ∈ g.ids) :
    j ∈ g.reaching i ↔ ReflTransGen (Search.Edge g.predecessors) i j := by
  rw [reaching, if_pos (mem_ids_iff.1 hi)]
  exact Search.mem_reachable_iff (fun a _ b hb => mem_ids_of_predecessors hb) length_ids hi j

theorem reaching_subset_ids (h : j ∈ g.reaching i) : j ∈ g.ids := by
  by_cases hi : i ∈ g.ids
  · cases (mem_reaching_iff hi).1 h with
    | refl => exact hi
    | tail _ hj => exact mem_ids_of_predecessors hj
  · rw [reaching, if_neg fun h => hi (mem_ids_iff.2 h)] at h
    cases h

theorem mem_predecessors_iff (hcons : g.Consistent) :
    j ∈ g.predecessors i ↔ i ∈ g.ids ∧ i ∈ g.successors j := by
  rw [predecessors, mem_filter, mem_ids_iff]
  cases hb : g.block? i with
  | none => simp
  | some b =>
    rw [Option.map_some, Option.getD_some, hcons i b hb j]
    refine ⟨fun h => ⟨rfl, h.1⟩, fun h => ⟨h.2, ?_⟩⟩
    obtain ⟨c, hc, -⟩ := mem_successors_iff.1 h.2
    rw [hc]
    rfl

theorem mem_reaching_iff_path (hcons : g.Consistent) (ht : t ∈ g.ids) :
    i ∈ g.reaching t ↔ g.Walk i t := by
  constructor
  · intro h
    have hback := (mem_reaching_iff ht).1 h
    clear h
    induction hback with
    | refl => exact .refl
    | tail _ hlast ih => exact ih.head ((mem_predecessors_iff hcons).1 hlast).2
  · intro h
    induction h using ReflTransGen.head_induction_on with
    | refl => exact (mem_reaching_iff ht).2 .refl
    | head hij _ ih =>
      refine (mem_reaching_iff ht).2 (((mem_reaching_iff ht).1 ih).tail ?_)
      exact (mem_predecessors_iff hcons).2 ⟨reaching_subset_ids ih, hij⟩

section Topological

variable (hwithin : ∀ a ∈ within, a ∈ g.ids)

def inside (g : FlowGraph) (within : List BlockId) (i : BlockId) : List BlockId :=
  (g.successors i).filter (· ∈ within)

theorem mem_inside : j ∈ g.inside within i ↔ j ∈ g.successors i ∧ j ∈ within := by
  simp [inside]

include hwithin

theorem mem_topological_iff : i ∈ g.topological within ↔
    g.entry ∈ within ∧ ReflTransGen (Search.Edge (g.inside within)) g.entry i := by
  rw [topological]
  split
  · rename_i hentry
    rw [and_iff_right hentry]
    exact Search.mem_explore_done_iff (fun a _ b hb => hwithin b (mem_inside.1 hb).2)
      length_ids (hwithin _ hentry) i
  · rename_i hentry
    simp [hentry]

theorem topological_subset (h : i ∈ g.topological within) : i ∈ within := by
  obtain ⟨hentry, hpath⟩ := (mem_topological_iff hwithin).1 h
  cases hpath with
  | refl => exact hentry
  | tail _ hi => exact (mem_inside.1 hi).2

theorem topological_nodup : (g.topological within).Nodup := by
  rw [topological]
  split
  · rename_i hentry
    exact Search.explore_done_nodup (fun a _ b hb => hwithin b (mem_inside.1 hb).2)
      length_ids (hwithin _ hentry)
  · exact nodup_nil

theorem topological_ordered (hacyclic : ∀ a, g.Walk g.entry a →
      ¬ TransGen (Search.Edge g.successors) a a) {before after : List BlockId}
    (h : g.topological within = before ++ i :: after) (hj : j ∈ g.successors i)
    (hjw : j ∈ within) : j ∈ after := by
  have hsub : ∀ a b, Search.Edge (g.inside within) a b → Search.Edge g.successors a b :=
    fun a b hab => (mem_inside.1 hab).1
  have hinside : ∀ a, ReflTransGen (Search.Edge (g.inside within)) g.entry a →
      ¬ TransGen (Search.Edge (g.inside within)) a a :=
    fun a hreach ha => hacyclic a (ReflTransGen.mono hsub _ a hreach) (TransGen.mono hsub a a ha)
  rw [topological] at h
  split at h
  · rename_i hentry
    exact Search.explore_done_ordered (fun a _ b hb => hwithin b (mem_inside.1 hb).2)
      length_ids (hwithin _ hentry) hinside h (mem_inside.2 ⟨hj, hjw⟩)
  · simp at h

end Topological

/-! ### The blocks on the way to a block -/

section Reaching

variable {t : BlockId}

/-- A path to a block stays among the blocks that reach it. -/
theorem path_inside (hcons : g.Consistent) (ht : t ∈ g.ids)
    (hwithin : ∀ i, i ∈ within ↔ i ∈ g.reaching t)
    (hij : g.Walk i j)
    (hjt : g.Walk j t) :
    ReflTransGen (Search.Edge (g.inside within)) i j := by
  induction hij with
  | refl => exact .refl
  | tail _ hlast ih =>
    have hmem := (hwithin _).2 ((mem_reaching_iff_path hcons ht).2 hjt)
    exact (ih (hjt.head hlast)).tail (mem_inside.2 ⟨hlast, hmem⟩)

/-- The order of the blocks that reach a block lists those on a path from the entry to it. -/
theorem mem_topological_iff_path (hcons : g.Consistent) (ht : t ∈ g.ids)
    (hwithin : ∀ i, i ∈ within ↔ i ∈ g.reaching t) : i ∈ g.topological within ↔
      g.Walk g.entry i ∧
        g.Walk i t := by
  have hpath : ∀ {i}, i ∈ within ↔ g.Walk i t :=
    (hwithin _).trans (mem_reaching_iff_path hcons ht)
  have hids : ∀ a ∈ within, a ∈ g.ids := fun a ha => reaching_subset_ids ((hwithin a).1 ha)
  rw [mem_topological_iff hids]
  constructor
  · intro h
    have hi := topological_subset hids ((mem_topological_iff hids).2 h)
    exact ⟨ReflTransGen.mono (fun a b hab => (mem_inside.1 hab).1) _ _ h.2, hpath.1 hi⟩
  · exact fun h => ⟨hpath.2 (h.1.trans h.2), path_inside hcons ht hwithin h.1 h.2⟩

theorem getLast?_topological (hacyclic : ∀ a, g.Walk g.entry a →
      ¬ TransGen (Search.Edge g.successors) a a) (hwithin : ∀ i ∈ within, i ∈ g.ids)
    (hpath : ∀ i, i ∈ within ↔ g.Walk i t)
    (hmem : t ∈ g.topological within) : (g.topological within).getLast? = some t := by
  obtain hnil | ⟨before, last, heq⟩ := eq_nil_or_concat' (g.topological within)
  · rw [hnil] at hmem
    cases hmem
  · -- Whatever else comes last has a successor on its way, which comes later.
    have hlast : last ∈ within :=
      topological_subset hwithin (heq ▸ mem_append_right _ mem_cons_self)
    rcases ReflTransGen.cases_head ((hpath last).1 hlast) with rfl | ⟨j, hj, hjt⟩
    · rw [heq, getLast?_concat]
    · cases topological_ordered hwithin hacyclic heq hj ((hpath j).2 hjt)

/-- If the entry reaches no cycle, the order of a set lists the blocks reached inside it, each once
and before its successors. -/
theorem topological_lists (g : FlowGraph)
    (hacyclic : ∀ i, ReflTransGen (Search.Edge g.successors) g.entry i →
      ¬ TransGen (Search.Edge g.successors) i i)
    (within : List BlockId) (hwithin : ∀ i ∈ within, i ∈ g.ids) (hentry : g.entry ∈ within) :
    (g.topological within).Nodup ∧
    (∀ i, i ∈ g.topological within ↔
      ReflTransGen (fun i j => j ∈ g.successors i ∧ j ∈ within) g.entry i) ∧
    (∀ before i after, g.topological within = before ++ i :: after → ∀ j ∈ g.successors i,
      j ∈ g.topological within → j ∈ after) ∧
    (g.Consistent → ∀ t, (∀ i, i ∈ within ↔ i ∈ g.reaching t) →
      (∀ i, i ∈ g.topological within ↔ ReflTransGen (Search.Edge g.successors) g.entry i ∧
        ReflTransGen (Search.Edge g.successors) i t) ∧
      (t ∈ g.topological within → (g.topological within).getLast? = some t)) := by
  have hinside : Search.Edge (g.inside within) = fun i j => j ∈ g.successors i ∧ j ∈ within := by
    funext i j
    exact propext mem_inside
  refine ⟨topological_nodup hwithin,
    fun i => by rw [mem_topological_iff hwithin, and_iff_right hentry, hinside],
    fun before i after h j hj hlisted => ?_, fun hcons t hreaching => ?_⟩
  · exact topological_ordered hwithin hacyclic h hj (topological_subset hwithin hlisted)
  have ht : t ∈ g.ids := by
    by_contra hnot
    have hmem := (hreaching g.entry).1 hentry
    rw [reaching, if_neg fun h => hnot (mem_ids_iff.2 h)] at hmem
    cases hmem
  exact ⟨fun i => mem_topological_iff_path hcons ht hreaching,
    getLast?_topological hacyclic hwithin fun i =>
      (hreaching i).trans (mem_reaching_iff_path hcons ht)⟩

def diamond : FlowGraph :=
  ofEdges "G" [0, 1, 2, 3, -1] [(0, 1), (0, 2), (0, 1), (1, 3), (2, 3), (-1, 3)] 0 [3]

theorem topological_lists_diamond : diamond.topological (diamond.reaching 3) = [0, 2, 1, 3] ∧
    (∀ i, i ∈ diamond.topological (diamond.reaching 3) ↔
      ReflTransGen (Search.Edge diamond.successors) 0 i ∧
        ReflTransGen (Search.Edge diamond.successors) i 3) ∧
    (diamond.topological (diamond.reaching 3)).getLast? = some 3 := by
  have horder : diamond.topological (diamond.reaching 3) = [0, 2, 1, 3] := by decide +kernel
  have hcons : diamond.Consistent := consistent_of_forall (by decide) (by decide)
  obtain ⟨-, -, -, hreaching⟩ := topological_lists diamond (fun i _ => acyclic_of_lt (by decide) i)
    (diamond.reaching 3) (fun _ => reaching_subset_ids) (by decide +kernel)
  obtain ⟨hlisted, hlast⟩ := hreaching hcons 3 fun _ => Iff.rfl
  exact ⟨horder, hlisted, hlast (by rw [horder]; decide)⟩

end Reaching

end FlowGraph

/-! ### One visit -/

theorem Progress.arrivals_arrive (p : Progress) (i j : BlockId) (a : Arrival) :
    (p.arrive i a).arrivals j = p.arrivals j ++ if j = i then [a] else [] := by
  rw [Progress.arrive, Progress.arrivals]
  by_cases h : j = i
  · rw [h, if_pos rfl, Assoc.lookup_set_self, Option.getD_some]
  · rw [if_neg h, append_nil, Assoc.lookup_set_ne h]
    rfl

def Edge.condition (e : Edge) (s : Store) : Except EvalFault Term :=
  match e.guard with
  | none => .ok tt
  | some guard => guard.condition s

theorem follow_cons {e : Edge} (he : e.target ∈ relevant) (reach : Term) (s : Store) (p : Progress)
    (edges : List Edge) :
    follow relevant reach s p (e :: edges) = e.condition s >>= fun t =>
      if t = ff then follow relevant reach s p edges
      else follow relevant reach s (p.arrive e.target ⟨mkAnd [reach, t], s⟩) edges := by
  rw [follow, if_pos he, Edge.condition]
  cases e.guard <;> rfl

theorem follow_spec (h : follow relevant reach s p edges = .ok p') :
    p'.definitions = p.definitions ∧
      (∀ e ∈ edges, e.target ∈ relevant → ∃ t, e.condition s = .ok t) ∧
      ∀ j, ∃ new, p'.arrivals j = p.arrivals j ++ new ∧
        ∀ a, a ∈ new ↔ ∃ e ∈ edges, e.target = j ∧ j ∈ relevant ∧
          ∃ t, e.condition s = .ok t ∧ t ≠ ff ∧ a = ⟨mkAnd [reach, t], s⟩ := by
  induction edges generalizing p with
  | nil =>
    cases h
    exact ⟨rfl, by simp, fun j => ⟨[], by simp, by simp⟩⟩
  | cons e edges ih =>
    -- What the first edge adds to what has come in.
    obtain ⟨p₁, hrest, hdefs, hok, hnew⟩ : ∃ p₁, follow relevant reach s p₁ edges = .ok p' ∧
        p₁.definitions = p.definitions ∧ (e.target ∈ relevant → ∃ t, e.condition s = .ok t) ∧
        ∀ j, ∃ new, p₁.arrivals j = p.arrivals j ++ new ∧ ∀ a, a ∈ new ↔
          e.target = j ∧ j ∈ relevant ∧
            ∃ t, e.condition s = .ok t ∧ t ≠ ff ∧ a = ⟨mkAnd [reach, t], s⟩ := by
      by_cases he : e.target ∈ relevant
      · rw [follow_cons he, bind_eq_ok] at h
        obtain ⟨t, ht, h⟩ := h
        split at h
        · exact ⟨p, h, rfl, fun _ => ⟨t, ht⟩, fun j => ⟨[], by simp, by grind⟩⟩
        · exact ⟨_, h, rfl, fun _ => ⟨t, ht⟩, fun j => ⟨_, p.arrivals_arrive .., by grind⟩⟩
      · rw [follow, if_neg he] at h
        exact ⟨p, h, rfl, fun hr => absurd hr he, fun j => ⟨[], by simp, by grind⟩⟩
    obtain ⟨hdefs', hok', hnew'⟩ := ih hrest
    refine ⟨hdefs'.trans hdefs, forall_mem_cons.2 ⟨hok, hok'⟩, fun j => ?_⟩
    obtain ⟨new, hj, hmem⟩ := hnew j
    obtain ⟨new', hj', hmem'⟩ := hnew' j
    refine ⟨new ++ new', by rw [hj', hj, append_assoc], fun a => ?_⟩
    rw [mem_append, exists_mem_cons_iff, hmem, hmem']

theorem mem_arrivals_follow (h : follow relevant reach s p edges = .ok p')
    (ha : a ∈ p'.arrivals j) : a ∈ p.arrivals j ∨ ∃ e ∈ edges, e.target = j ∧
      ∃ t, e.condition s = .ok t ∧ a = ⟨mkAnd [reach, t], s⟩ := by
  obtain ⟨new, hj, hnew⟩ := (follow_spec h).2.2 j
  rw [hj, mem_append, hnew] at ha
  refine ha.imp_right ?_
  rintro ⟨e, he, hej, -, t, ht, -, rfl⟩
  exact ⟨e, he, hej, t, ht, rfl⟩

section Visit

variable {g : FlowGraph} {i : BlockId} {p : Progress}

def FlowGraph.opsOf (g : FlowGraph) (i : BlockId) : List Op :=
  ((g.block? i).map FlowBlock.ops).getD []

theorem FlowGraph.opsOf_of_block (h : g.block? i = some b) :
    g.opsOf i = b.ops := by rw [opsOf, h]; rfl

theorem FlowGraph.mem_opsOf : op ∈ g.opsOf i ↔ ∃ b, g.block? i = some b ∧ op ∈ b.ops := by
  rw [opsOf]
  cases g.block? i <;> simp

/-- The definitions so far, and the condition and the store at the end of a block. -/
structure Passage where
  definitions : List Term
  condition : Term
  store : Store

/-- Enter a block and execute its operations. -/
def FlowGraph.pass (g : FlowGraph) (i : BlockId) (p : Progress) :
    Except EvalFault (Option Passage) := do
  match ← join i (p.arrivals i) with
  | none => return none
  | some (a, definitions) =>
    let (s, assumed) ← execute (g.opsOf i) a.store []
    return some ⟨p.definitions ++ definitions, mkAnd (a.condition :: assumed), s⟩

theorem FlowGraph.pass_eq_some (h : g.pass i p = .ok (some c)) :
    ∃ a defs s assumed, join i (p.arrivals i) = .ok (some (a, defs)) ∧
      execute (g.opsOf i) a.store [] = .ok (s, assumed) ∧
      c = ⟨p.definitions ++ defs, mkAnd (a.condition :: assumed), s⟩ := by
  rw [pass, bind_eq_ok] at h
  obtain ⟨r, hjoin, h⟩ := h
  cases r with
  | none => cases h
  | some r =>
    simp only [bind_eq_ok, pure_eq_ok, Option.some.injEq] at h
    obtain ⟨⟨s, assumed⟩, hexec, rfl⟩ := h
    exact ⟨r.1, r.2, s, assumed, hjoin, hexec, rfl⟩

/-- The formula of an error location at the end of its block. -/
def Passage.outcome (c : Passage) (target : Target) : Outcome :=
  let (observed, equations) := observe target c.store [] target.observed
  (mkAnd (c.definitions ++ c.condition :: equations), observed)

/-- A visit passes through the block, and then ends or follows its edges. -/
theorem visitBlock_eq (g : FlowGraph) (target : Target) (relevant : List BlockId) (i : BlockId)
    (p : Progress) :
    visitBlock g target relevant i p = (do
      match ← g.pass i p with
      | none => return .inr p
      | some c =>
        if i = target.block then return .inl (c.outcome target)
        else return .inr (← follow relevant c.condition c.store ⟨p.incoming, c.definitions⟩
          (g.edgesOf i))) := by
  unfold visitBlock FlowGraph.pass
  cases join i (p.arrivals i) with
  | error => rfl
  | ok r =>
    cases r with
    | none => rfl
    | some r =>
      obtain ⟨a, definitions⟩ := r
      show (execute (g.opsOf i) a.store [] >>= _) = ((execute (g.opsOf i) a.store [] >>= _) >>= _)
      cases execute (g.opsOf i) a.store [] with
      | error | ok r => rfl

end Visit

/-! ### All visits -/

section Visits

variable {g : FlowGraph} {target : Target} {relevant : List BlockId}

/-- Visiting blocks in order gives an outcome. -/
inductive Visits (g : FlowGraph) (target : Target) (relevant : List BlockId) :
    List BlockId → Progress → Outcome → Prop
  /-- The error location is not among the blocks. -/
  | nil {p} : Visits g target relevant [] p (ff, [])
  | found {i rest p out} : visitBlock g target relevant i p = .ok (.inl out) →
      Visits g target relevant (i :: rest) p out
  | next {i rest p p' out} : visitBlock g target relevant i p = .ok (.inr p') →
      Visits g target relevant rest p' out → Visits g target relevant (i :: rest) p out

variable {out : Outcome}

theorem visits_of_visitBlocks (h : (visitBlocks g target relevant order token p).1 = .ok out) :
    Visits g target relevant order p out := by
  fun_induction visitBlocks g target relevant order token p with
  | case1 => cases h; exact .nil
  | case2 | case3 => cases h
  | case4 => cases h; exact .found ‹_›
  | case5 => rename_i hvisit ih; exact .next hvisit (ih h)

/-- What visits to blocks in order find, with the blocks at which something has come in. -/
def FlowGraph.passages (g : FlowGraph) (relevant : List BlockId) :
    List BlockId → Progress → List (BlockId × Passage)
  | [], _ => []
  | i :: rest, p =>
    match g.pass i p with
    | .ok (some c) => (i, c) ::
      match follow relevant c.condition c.store ⟨p.incoming, c.definitions⟩ (g.edgesOf i) with
      | .ok p' => g.passages relevant rest p'
      | .error _ => []
    | _ => g.passages relevant rest p

/-- What a graph starts with: nothing is assumed, and no variable has a value. -/
def FlowGraph.start (g : FlowGraph) : Progress := ⟨[(g.entry, [⟨tt, []⟩])], []⟩

theorem FlowGraph.arrivals_start (i : BlockId) :
    g.start.arrivals i = if i = g.entry then [⟨tt, []⟩] else [] := by
  rw [start, Progress.arrivals, lookup_cons]
  by_cases hi : i = g.entry
  · simp [hi]
  · rw [beq_eq_false_iff_ne.2 hi, if_neg hi]
    rfl

theorem FlowGraph.mem_arrivals_start (h : a ∈ g.start.arrivals i) : i = g.entry ∧ a = ⟨tt, []⟩ := by
  rw [arrivals_start] at h
  split at h
  · exact ⟨‹_›, mem_singleton.1 h⟩
  · cases h

/-- What the visits on the way to an error location find. -/
def FlowGraph.passedAll (g : FlowGraph) (t : Target) : List (BlockId × Passage) :=
  g.passages (g.reaching t.block) (g.topological (g.reaching t.block)) g.start

def FlowGraph.passage? (g : FlowGraph) (target : Target) (i : BlockId) : Option Passage :=
  (g.passedAll target).lookup i

/-- The variables that have a symbolic value at an error location, by number. -/
def FlowGraph.held (g : FlowGraph) (target : Target) : List Nat :=
  (g.passage? target target.block).elim [] fun c => c.store.map Prod.fst

theorem visitBlock_inl (h : visitBlock g target relevant i p = .ok (.inl out)) :
    i = target.block ∧ ∃ c, g.pass i p = .ok (some c) ∧ out = c.outcome target := by
  rw [visitBlock_eq, bind_eq_ok] at h
  obtain ⟨r, hpass, h⟩ := h
  cases r with
  | none => cases h
  | some c =>
    by_cases hi : i = target.block
    · simp only [if_pos hi, pure_eq_ok, Sum.inl.injEq] at h
      exact ⟨hi, c, hpass, h.symm⟩
    · simp only [if_neg hi, bind_eq_ok, pure_eq_ok, reduceCtorEq, and_false, exists_false] at h

theorem visitBlock_inr (h : visitBlock g target relevant i p = .ok (.inr p')) :
    (g.pass i p = .ok none ∧ p' = p) ∨ (i ≠ target.block ∧ ∃ c, g.pass i p = .ok (some c) ∧
      follow relevant c.condition c.store ⟨p.incoming, c.definitions⟩ (g.edgesOf i) = .ok p') := by
  rw [visitBlock_eq, bind_eq_ok] at h
  obtain ⟨r, hpass, h⟩ := h
  cases r with
  | none =>
    simp only [pure_eq_ok, Sum.inr.injEq] at h
    exact .inl ⟨hpass, h.symm⟩
  | some c =>
    by_cases hi : i = target.block
    · simp only [if_pos hi, pure_eq_ok, reduceCtorEq] at h
    · simp only [if_neg hi, bind_eq_ok, pure_eq_ok, Sum.inr.injEq, exists_eq_right] at h
      exact .inr ⟨hi, c, hpass, h⟩

theorem FlowGraph.lookup_passages_self (h : g.pass i p = .ok (some c)) :
    (g.passages relevant (i :: rest) p).lookup i = some c := by
  rw [passages, h]
  exact lookup_cons_self

theorem FlowGraph.lookup_passages_inr (h : visitBlock g target relevant i p = .ok (.inr p')) :
    (g.passages relevant (i :: rest) p).lookup target.block =
      (g.passages relevant rest p').lookup target.block := by
  obtain ⟨hpass, rfl⟩ | ⟨hi, c, hpass, hfollow⟩ := visitBlock_inr h
  · rw [passages, hpass]
  · simp only [passages, hpass, hfollow, lookup_cons, beq_eq_false_iff_ne.2 hi.symm]

def FlowGraph.queryOf (g : FlowGraph) (exclusive : Bool) (target : Target) (out : Outcome) : Query where
  target := target
  formula := out.1
  observations := out.2
  side := if exclusive then (g.sitesIn (g.reaching target.block)).map exclusivity else []
  guards := guardSymbols (g.sitesIn (g.reaching target.block))

theorem FlowGraph.generate_eq (g : FlowGraph) (exclusive : Bool) (target : Target) (token : Token) :
    g.generate exclusive target token =
      if g.backEdges ≠ [] then (.error (.rejected (.of (.unrolling g.name) target.loc)), token)
      else if target.block ∉ g.ids then (.error (.notInGraph target.id g.name), token)
      else (g.formula target (g.reaching target.block) token).map
        (Except.map (g.queryOf exclusive target)) id := by
  have hids : target.block ∉ g.ids ↔ (g.block? target.block).isNone = true := by simp [mem_ids_iff]
  simp only [generate, hids, Bool.not_eq_true', isEmpty_eq_false_iff]
  rcases g.formula target (g.reaching target.block) token with ⟨_ | out, token'⟩ <;> rfl

theorem FlowGraph.formula_of_generate (h : (g.generate exclusive target token).1 = .ok q) :
    g.backEdges = [] ∧ target.block ∈ g.ids ∧ (g.formula target (g.reaching target.block) token).1 =
    .ok (q.formula, q.observations) ∧ q.side = if exclusive then (g.sitesIn (g.reaching
    target.block)).map exclusivity else [] := by
  rw [generate_eq] at h
  split_ifs at h with hback hids
  obtain ⟨out, hout, rfl⟩ := map_eq_ok.1 h
  exact ⟨not_not.1 hback, hids, hout, rfl⟩

theorem FlowGraph.generate_eq_ok (h : (g.generate exclusive target token).1 = .ok q) : target.block
    ∈ g.ids ∧ Visits g target (g.reaching target.block) (g.topological (g.reaching target.block))
    g.start (q.formula, q.observations) ∧ q.side = if exclusive then (g.sitesIn (g.reaching
    target.block)).map exclusivity else [] := by
  obtain ⟨-, hids, hformula, hside⟩ := formula_of_generate h
  exact ⟨hids, visits_of_visitBlocks hformula, hside⟩

theorem FlowGraph.generate_eq_map (hback : g.backEdges = []) (ht : target.block ∈ g.ids)
    (exclusive : Bool) (token : Token) : (g.generate exclusive target token).1 =
      (g.formula target (g.reaching target.block) token).1.map (g.queryOf exclusive target) := by
  rw [generate_eq, if_neg (not_not.2 hback), if_neg (not_not.2 ht)]
  rfl

theorem FlowGraph.generate_of_formula (hback : g.backEdges = []) (ht : target.block ∈ g.ids)
    (exclusive : Bool) (h : (g.formula target (g.reaching target.block) token).1 = .ok out) :
    ∃ q, (g.generate exclusive target token).1 = .ok q ∧ (q.formula, q.observations) = out ∧
      q.side = (if exclusive then (g.sitesIn (g.reaching target.block)).map exclusivity else []) ∧
      q.guards = guardSymbols (g.sitesIn (g.reaching target.block)) := by
  rw [generate_eq_map hback ht, h]
  exact ⟨_, rfl, rfl, rfl, rfl⟩

end Visits

end ControlReach
