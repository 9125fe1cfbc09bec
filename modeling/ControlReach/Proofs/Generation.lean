import ControlReach.Proofs.GraphExecution
import ControlReach.Proofs.SymbolicProgress

/-!
# Every error location has a query

Each block of a graph can be given the variables that have a value whenever something comes in
there, so symbolic execution never fails. The query has a key for each observed leaf, unless every
way to the error location is constantly closed.
-/

namespace ControlReach

open List Relation

/-! ### Graphs of accepted controls -/

/-- The variables `A i` have values whenever something comes in at block `i`. -/
structure FlowGraph.Assigned (g : FlowGraph) (known : List Variable)
    (A : BlockId → List Variable) : Prop where
  entry : A g.entry = []
  ops : ∀ i, Op.Sequence known (A i) (g.opsOf i)
  guard : ∀ i, ∀ e ∈ g.edgesOf i, ∀ r, e.guard = some r →
    r.Guards (A i ++ (g.opsOf i).flatMap Op.stores)
  edge : ∀ i, ∀ e ∈ g.edgesOf i, A e.target ⊆ A i ++ (g.opsOf i).flatMap Op.stores
  target : ∀ t ∈ g.targets, t.Fits (A t.block)

namespace FlowGraph.Built

variable {g : FlowGraph} (b : Built globals calls d g)

theorem code_of_block (h : g.block? i = some blk) :
    ∃ n : Nat, i = n ∧ b.main.code n = some (blk.ops, blk.edges) := by
  obtain ⟨n, hn, hcode⟩ := b.mem_blocks (mem_blocks_of_block h)
  exact ⟨n, (id_of_block h).symm.trans hn, hcode⟩

theorem exists_safeAt {known : List Variable} {n : Nat} (hfits : b.plan.Fits known [])
    (hlive : (n : Int) ∈ b.live) :
    b.main.SafeAt known 0 [] ∧ ∃ vars, b.main.SafeAt known n vars := by
  obtain ⟨p, hp, henter, hlaid⟩ := b.exists_laid
  have hstart : b.main.SafeAt known 0 [] := by
    rw [← hp]
    refine henter.safeAt (hlaid.safe hfits (fun vars _ => ?_) [] (nil_subset _))
    exact Layout.safe_leave.2 (forall_mem_nil _)
  refine ⟨hstart, ?_⟩
  obtain ⟨m, -, heq, hpath⟩ := b.path_of_live hlive
  obtain rfl : n = m := Int.ofNat.inj heq
  clear hlive heq
  induction hpath with
  | refl => exact ⟨[], hstart⟩
  | tail _ hedge ih =>
    obtain ⟨vars, h⟩ := ih
    obtain ⟨c, hc, e, he, hj⟩ := hedge
    exact ⟨_, h.edge hc he hj⟩

include b in
theorem exists_assigned (hglobals : globals.Fits structs []) :
    ∃ known n A, Made structs known n ∧ g.Assigned known A := by
  obtain ⟨known, hmade, hfits⟩ := b.elaborates.fits hglobals
  obtain ⟨A, hentry, hassigned⟩ := Layout.exists_assigned (b.exists_safeAt hfits b.live_zero).1
  have hcode : ∀ i : BlockId, Op.Sequence known (A i.toNat) (g.opsOf i) ∧ ∀ e ∈ g.edgesOf i,
      e.Assigned A (A i.toNat ++ (g.opsOf i).flatMap Op.stores) ∧
        ∃ j : Nat, e.target = (j : Int) := by
    intro i
    cases hblk : g.block? i with
    | none =>
      rw [opsOf, edgesOf, hblk]
      exact ⟨trivial, forall_mem_nil _⟩
    | some blk =>
      obtain ⟨n, rfl, hcode⟩ := b.code_of_block hblk
      have hlive := b.mem_ids_iff.1 (mem_ids_of_block hblk)
      obtain ⟨hops, hedges⟩ := (hassigned n (b.exists_safeAt hfits hlive).2).1 _ hcode
      rw [opsOf_of_block hblk, edgesOf_of_block hblk]
      refine ⟨hops, fun e he => ⟨hedges e he, ?_⟩⟩
      obtain ⟨j, -, hj⟩ := b.main_counted.valid.edge hcode e he
      exact ⟨j, hj⟩
  refine ⟨known, _, fun i => A i.toNat, hmade, ⟨?_, fun i => (hcode i).1,
    fun i e he => ((hcode i).2 e he).1.1, fun i e he => ?_, fun t ht => ?_⟩⟩
  · rw [b.entry_eq]
    exact hentry
  · obtain ⟨hedge, j, hj⟩ := (hcode i).2 e he
    rw [hj]
    exact hedge.2 j hj
  · have hlive := (b.mem_targets_iff.1 ht).2
    obtain ⟨n, -, hn⟩ := b.mem_live hlive
    rw [hn] at hlive ⊢
    refine (hassigned n (b.exists_safeAt hfits hlive).2).2 t ?_
    exact b.target?_main.2 ⟨b.mem_targets ht, hn⟩

include b in
theorem closed : g.Closed := b.eq ▸ b.closed_layout.prune b.layout.targets

include b in
theorem reachable (h : i ∈ g.ids) : g.Walk g.entry i := by
  have hlive := b.mem_ids_iff.1 h
  rw [live, ← b.closed_layout.reachable_prune b.layout.targets, ← b.eq] at hlive
  exact b.closed.mem_reachable_iff.1 hlive

include b in
theorem acyclic (h : g.backEdges = []) : g.Acyclic := by
  refine Search.acyclic_of_loops_eq_nil b.closed.successor length_ids b.closed.entry
    (map_eq_nil_iff.1 h) fun i j hij => ?_
  obtain ⟨blk, hblk, -⟩ := FlowGraph.mem_successors_iff.1 hij
  exact b.reachable (mem_ids_of_block hblk)

end FlowGraph.Built

theorem Made.exists_types (h : Made structs known n) :
    ∃ types : Nat → Ty, (∀ n, (types n).Distinct) ∧ ∀ v ∈ known, types v.uid = v.ty.bare := by
  refine ⟨fun n => ((known[n]?).map fun v => v.ty.bare).getD .bool, fun n => ?_, fun v hv => ?_⟩
  · dsimp only
    cases hv : known[n]? with
    | none => trivial
    | some v => exact (h.proper v (mem_of_getElem? hv)).distinct.bare
  · dsimp only
    rw [h.getElem? hv]
    rfl

/-! ### Visits -/

variable {c : Passage} {t : Target}

section Visits

variable {g : FlowGraph} {types : Nat → Ty} {known : List Variable} {A : BlockId → List Variable}
  {relevant order : List BlockId} {i j : BlockId} {p p' : Progress}

def Progress.Ready (p : Progress) (types : Nat → Ty) (known : List Variable)
    (A : BlockId → List Variable) : Prop :=
  ∀ j, ∀ a ∈ p.arrivals j, a.store.Ready types known (A j)

variable {s : Store}

theorem exists_follow (h : ∀ e ∈ edges, ∃ t, e.condition s = .ok t) (relevant : List BlockId)
    (reach : Term) (p : Progress) : ∃ p', follow relevant reach s p edges = .ok p' := by
  induction edges generalizing p with
  | nil => exact ⟨p, rfl⟩
  | cons e rest ih =>
    obtain ⟨⟨t, ht⟩, hrest⟩ := forall_mem_cons.1 h
    by_cases he : e.target ∈ relevant
    · rw [follow_cons he, ht]
      by_cases hff : t = Term.ff
      · exact (ih hrest p).imp fun _ => (if_pos hff).trans
      · exact (ih hrest _).imp fun _ => (if_neg hff).trans
    · rw [follow, if_neg he]
      exact ih hrest p

theorem Rvalue.Guards.exists_edgeCondition {e : Edge} (hs : s.Ready types known defined)
    (h : ∀ r, e.guard = some r → r.Guards defined) : ∃ t, e.condition s = .ok t := by
  rw [Edge.condition]
  split
  · exact ⟨_, rfl⟩
  · rename_i guard hguard
    exact (h guard hguard).exists_condition hs

theorem Progress.Ready.follow (hp : p.Ready types known A) (hs : s.Ready types known defined)
    (hedge : ∀ e ∈ edges, A e.target ⊆ defined)
    (h : ControlReach.follow relevant reach s p edges = .ok p') : p'.Ready types known A := by
  intro j a ha
  rcases mem_arrivals_follow h ha with ha | ⟨e, he, rfl, t, -, rfl⟩
  · exact hp j a ha
  · exact hs.mono (hedge e he)

def Passage.Opens (c : Passage) (e : Edge) : Prop :=
  ∃ t, e.condition c.store = .ok t ∧ t ≠ Term.ff

theorem arrivals_follow_ne_nil
    (h : follow relevant c.condition c.store ⟨p.incoming, c.definitions⟩ edges = .ok p')
    (j : BlockId) : p'.arrivals j ≠ [] ↔
      p.arrivals j ≠ [] ∨ ∃ e ∈ edges, e.target = j ∧ j ∈ relevant ∧ c.Opens e := by
  obtain ⟨new, hj, hnew⟩ := (follow_spec h).2.2 j
  have hnil : p'.arrivals j = [] ↔ p.arrivals j = [] ∧ new = [] := by
    rw [hj, append_eq_nil_iff]
    rfl
  rw [Ne, hnil, not_and_or, ← Ne, ← Ne]
  refine or_congr_right ?_
  constructor
  · intro hne
    obtain ⟨a, ha⟩ := exists_mem_of_ne_nil new hne
    obtain ⟨e, he, htarget, hrel, t, ht, hff, -⟩ := (hnew a).1 ha
    exact ⟨e, he, htarget, hrel, t, ht, hff⟩
  · rintro ⟨e, he, htarget, hrel, t, ht, hff⟩
    exact ne_nil_of_mem ((hnew _).2 ⟨e, he, htarget, hrel, t, ht, hff, rfl⟩)

namespace FlowGraph

variable (g relevant types known A) in
/-- The visits to blocks in order: nothing has come in at a block, or its edges are followed. -/
inductive Passes : List BlockId → Progress → List (BlockId × Passage) → Prop
  | nil (p : Progress) : Passes [] p []
  | skip {i : BlockId} {rest : List BlockId} {p : Progress} {l : List (BlockId × Passage)} :
      p.arrivals i = [] → g.pass i p = .ok none → Passes rest p l → Passes (i :: rest) p l
  | pass {i : BlockId} {rest : List BlockId} {p p' : Progress} {c : Passage}
      {l : List (BlockId × Passage)} : p.arrivals i ≠ [] → g.pass i p = .ok (some c) →
      c.store.Ready types known (A i ++ (g.opsOf i).flatMap Op.stores) →
      follow relevant c.condition c.store ⟨p.incoming, c.definitions⟩ (g.edgesOf i) = .ok p' →
      Passes rest p' l → Passes (i :: rest) p ((i, c) :: l)

theorem Assigned.passes (hg : g.Assigned known A) (hp : p.Ready types known A)
    (relevant order : List BlockId) :
    g.Passes types known A relevant order p (g.passages relevant order p) := by
  induction order generalizing p with
  | nil => exact .nil p
  | cons i rest ih =>
    by_cases hnil : p.arrivals i = []
    · have hpass : g.pass i p = .ok none := by rw [pass, hnil]; rfl
      rw [passages, hpass]
      exact .skip hnil hpass (ih hp)
    · obtain ⟨a, defs, hjoin, ha⟩ := exists_join i hnil (hp i)
      obtain ⟨s, assumed, hexecute, hs⟩ := exists_execute [] (hg.ops i) ha
      obtain ⟨p', hfollow⟩ := exists_follow
        (fun e he => Rvalue.Guards.exists_edgeCondition hs (hg.guard i e he)) relevant
        (Term.mkAnd (a.condition :: assumed)) ⟨p.incoming, p.definitions ++ defs⟩
      have hpass : g.pass i p =
          .ok (some ⟨p.definitions ++ defs, Term.mkAnd (a.condition :: assumed), s⟩) :=
        bind_eq_ok.2 ⟨_, hjoin, bind_eq_ok.2 ⟨(s, assumed), hexecute, rfl⟩⟩
      rw [passages, hpass]
      simp only [hfollow]
      refine .pass hnil hpass hs hfollow (ih (Progress.Ready.follow ?_ hs (hg.edge i) hfollow))
      exact hp

namespace Passes

variable {l : List (BlockId × Passage)} (h : g.Passes types known A relevant order p l)

include h

/-- The visits end with the outcome of the passage of the error location. -/
theorem visitBlocks_eq (target : Target) : (visitBlocks g target relevant order .never p).1 =
      .ok ((l.lookup target.block).elim (Term.ff, []) (·.outcome target)) := by
  induction h with
  | nil => rfl
  | @skip i rest p l _ hpass _ ih =>
    simp only [visitBlocks, Token.poll_never, visitBlock_eq, hpass]
    exact ih
  | @pass i rest p p' c l _ hpass _ hfollow _ ih =>
    simp only [visitBlocks, Token.poll_never, visitBlock_eq, hpass, bind, Except.bind, lookup_cons]
    by_cases hi : i = target.block
    · simp only [hi, beq_self_eq_true]
      rfl
    · simp only [if_neg hi, hfollow, beq_eq_false_iff_ne.2 (Ne.symm hi)]
      exact ih

/-- The passages are those of blocks in order, whose variables have values. -/
theorem of_mem (hc : (i, c) ∈ l) :
    i ∈ order ∧ c.store.Ready types known (A i ++ (g.opsOf i).flatMap Op.stores) := by
  induction h with
  | nil => cases hc
  | skip _ _ _ ih => exact (ih hc).imp_left (mem_cons_of_mem _)
  | pass _ _ hready _ _ ih =>
    rcases mem_cons.1 hc with h | hc
    · cases h
      exact ⟨mem_cons_self, hready⟩
    · exact (ih hc).imp_left (mem_cons_of_mem _)

theorem nodup (hn : order.Nodup) : (l.map Prod.fst).Nodup := by
  induction h with
  | nil => exact nodup_nil
  | skip _ _ _ ih => exact ih (nodup_cons.1 hn).2
  | pass _ _ _ _ hrest ih =>
    obtain ⟨hk, hn⟩ := nodup_cons.1 hn
    refine nodup_cons.2 ⟨fun hmem => hk ?_, ih hn⟩
    obtain ⟨⟨_, c⟩, hc, rfl⟩ := mem_map.1 hmem
    exact (hrest.of_mem hc).1

theorem exists_mem (hi : i ∈ order) (hne : p.arrivals i ≠ []) : ∃ c, (i, c) ∈ l := by
  induction h with
  | nil => cases hi
  | skip hnil _ _ ih =>
    rcases mem_cons.1 hi with rfl | hi
    · exact absurd hnil hne
    · exact ih hi hne
  | pass _ _ _ hfollow _ ih =>
    rcases mem_cons.1 hi with rfl | hi
    · exact ⟨_, mem_cons_self⟩
    · obtain ⟨c, hc⟩ := ih hi ((arrivals_follow_ne_nil hfollow i).2 (.inl hne))
      exact ⟨c, mem_cons_of_mem _ hc⟩

/-- Where something comes in along an edge, the block behind it is passed later. -/
theorem exists_mem_of_opens (hordered : ∀ before i after, order = before ++ i :: after → ∀ j ∈
    g.successors i, j ∈ relevant → j ∈ after) (hc : (i, c) ∈ l) (he : e ∈ g.edgesOf i)
    (hrel : e.target ∈ relevant) (hopens : c.Opens e) : ∃ c', (e.target, c') ∈ l := by
  induction h with
  | nil => cases hc
  | @skip k rest _ _ _ _ _ ih =>
    exact ih (fun before i after h => hordered (k :: before) i after (congrArg (k :: ·) h)) hc
  | @pass k rest _ _ _ _ _ _ _ hfollow hrest ih =>
    rcases mem_cons.1 hc with h | hc
    · cases h
      have hafter : e.target ∈ rest := hordered [] i rest rfl e.target (mem_map_of_mem he) hrel
      obtain ⟨c', hc'⟩ := hrest.exists_mem hafter
        ((arrivals_follow_ne_nil hfollow e.target).2 (.inr ⟨e, he, rfl, hrel, hopens⟩))
      exact ⟨c', mem_cons_of_mem _ hc'⟩
    · obtain ⟨c', hc'⟩ := ih
        (fun before i after h => hordered (k :: before) i after (congrArg (k :: ·) h)) hc
      exact ⟨c', mem_cons_of_mem _ hc'⟩

/-- What holds where something comes in, and goes on along open edges, holds of all blocks passed.
-/
theorem forall_mem {P : BlockId → Prop} (hstart : ∀ j, p.arrivals j ≠ [] → P j)
    (hstep : ∀ i c, (i, c) ∈ l → P i → ∀ e ∈ g.edgesOf i, c.Opens e → P e.target)
    (hc : (i, c) ∈ l) : P i := by
  induction h with
  | nil => cases hc
  | skip _ _ _ ih => exact ih hstart hstep hc
  | @pass k _ _ _ c' _ hne _ _ hfollow _ ih =>
    have hk : P k := hstart k hne
    rcases mem_cons.1 hc with h | hc
    · cases h
      exact hk
    · refine ih (fun j hj => ?_) (fun i c hmem => hstep i c (mem_cons_of_mem _ hmem)) hc
      rcases (arrivals_follow_ne_nil hfollow j).1 hj with hj | ⟨e, he, rfl, -, hopens⟩
      · exact hstart j hj
      · exact hstep k c' mem_cons_self hk e he hopens

end Passes

end FlowGraph

end Visits

/-! ### Queries -/

mutual

/-- The field paths of the scalars of a type, in order. -/
def Ty.leaves (path : List String) : Ty → List (List String)
  | .bool | .string => [path]
  | .struct _ fields => leavesOf path fields

def Ty.leavesOf (path : List String) : List (String × Ty) → List (List String)
  | [] => []
  | (f, ty) :: rest => leaves (path ++ [f]) ty ++ leavesOf path rest

end

mutual

theorem Ty.leaves_bare : ∀ (path : List String) (ty : Ty), ty.bare.leaves path = ty.leaves path
  | _, .bool | _, .string => rfl
  | path, .struct _ fields => leavesOf_bareFields path fields

theorem Ty.leavesOf_bareFields : ∀ (path : List String) (fields : List (String × Ty)),
    leavesOf path (bareFields fields) = leavesOf path fields
  | _, [] => rfl
  | path, (f, ty) :: rest => by
    rw [bareFields, leavesOf, leavesOf, leaves_bare, leavesOf_bareFields]

end

mutual

theorem SymValue.HasType.leaves : ∀ {w : SymValue} {ty : Ty} (path : List String), w.HasType ty →
    (w.leaves path).map Prod.fst = ty.leaves path
  | .term _, .bool, _, _ | .term _, .string, _, _ => rfl
  | .struct _, .struct _ _, path, h => HaveTypes.leavesOf path h
  | .term _, .struct _ _, _, h | .struct _, .bool, _, h | .struct _, .string, _, h => h.elim

theorem SymValue.HaveTypes.leavesOf : ∀ {fields : List (String × SymValue)}
    {tys : List (String × Ty)} (path : List String), HaveTypes fields tys →
    (SymValue.leavesOf path fields).map Prod.fst = Ty.leavesOf path tys
  | [], [], _, _ => rfl
  | (f, w) :: fields, (_, ty) :: tys, path, h => by
    obtain ⟨rfl, hw, hfields⟩ := h
    rw [SymValue.leavesOf, Ty.leavesOf, map_append, HasType.leaves _ hw,
      HaveTypes.leavesOf path hfields]
  | [], _ :: _, _, h | _ :: _, [], _, h => h.elim

end

/-- The keys of an error location: one for each leaf of each observed variable. -/
def Target.Reports (t : Target) (key : String) : Prop :=
  ∃ x v path, (x, v) ∈ t.observed ∧ path ∈ v.ty.leaves [] ∧ key = observationKey x path

/-- At an error location whose observed variables have values, all their leaves are bound. -/
theorem Passage.lookup_outcome (hc : c.store.Ready types known defined) (ht : t.Fits defined)
    (key : String) : (∃ sym, (c.outcome t).2.lookup key = some sym) ↔ t.Reports key := by
  have hkeys := c.keysBound t
  have hleaves : ∀ {v : Variable} {w : SymValue}, v ∈ defined → c.store.value? v = some w →
      (w.leaves []).map Prod.fst = v.ty.leaves [] := by
    intro v w hv hw
    have hty := hc.typed.value hw
    rw [hc.types_eq v (hc.subset hv)] at hty
    rw [hty.leaves, Ty.leaves_bare]
  constructor
  · rintro ⟨sym, hsym⟩
    obtain ⟨leaf, hleaf, -⟩ := (hkeys.origin key sym hsym).resolve_left (by simp)
    obtain ⟨x, v, w, path, hv, hw, hpath, rfl⟩ := Store.mem_reported.1 hleaf
    refine ⟨x, v, path, hv, ?_, rfl⟩
    rw [← hleaves (ht _ hv) hw]
    exact mem_map_of_mem hpath
  · rintro ⟨x, v, path, hv, hpath, rfl⟩
    obtain ⟨w, hw⟩ := hc.value v (ht _ hv)
    rw [← hleaves (ht _ hv) hw] at hpath
    obtain ⟨⟨_, leaf⟩, hleaf, rfl⟩ := mem_map.1 hpath
    obtain ⟨sym, hsym, -⟩ :=
      hkeys.equation _ leaf (Store.mem_reported.2 ⟨x, v, w, _, hv, hw, hleaf, rfl⟩)
    exact ⟨sym, hsym⟩

namespace FlowGraph

/-- Something comes in along an edge: its block is passed, and its condition is not constantly
false. -/
def Leads (g : FlowGraph) (target : Target) (i j : BlockId) : Prop :=
  ∃ c, g.passage? target i = some c ∧ ∃ e ∈ g.edgesOf i, e.target = j ∧ c.Opens e

variable {g : FlowGraph}

namespace Assigned

variable {types : Nat → Ty} {known : List Variable} {A : BlockId → List Variable}
  (hg : g.Assigned known A) (hd : ∀ n, (types n).Distinct)
  (htypes : ∀ v ∈ known, types v.uid = v.ty.bare)

include hg hd htypes

theorem start_ready : g.start.Ready types known A := by
  intro j a ha
  obtain ⟨rfl, rfl⟩ := mem_arrivals_start ha
  rw [hg.entry]
  exact ⟨hd, htypes, nil_subset _, Store.typed_nil types, by simp⟩

theorem passes_start (t : Target) : g.Passes types known A (g.reaching t.block)
    (g.topological (g.reaching t.block)) g.start (g.passedAll t) :=
  hg.passes (hg.start_ready hd htypes) _ _

theorem passage?_eq_some_iff : g.passage? t i = some c ↔ (i, c) ∈ g.passedAll t :=
  ⟨Assoc.mem_of_lookup, Assoc.lookup_of_mem ((hg.passes_start hd htypes t).nodup
    (topological_nodup fun _ h => reaching_subset_ids h))⟩

theorem exists_passage?_iff (hacyclic : g.Acyclic) (ht : t.block ∈ g.ids) :
    (∃ c, g.passage? t t.block = some c) ↔ ReflTransGen (g.Leads t) g.entry t.block := by
  have hpasses := hg.passes_start hd htypes t
  have hwithin : ∀ a ∈ g.reaching t.block, a ∈ g.ids := fun _ h => reaching_subset_ids h
  have hblock : t.block ∈ g.reaching t.block := (mem_reaching_iff ht).2 .refl
  constructor
  · rintro ⟨c, hc⟩
    refine hpasses.forall_mem (fun j hj => ?_) (fun i c hc hi e he hopens => ?_)
      ((hg.passage?_eq_some_iff hd htypes).1 hc)
    · obtain ⟨a, ha⟩ := exists_mem_of_ne_nil _ hj
      obtain ⟨rfl, -⟩ := mem_arrivals_start ha
      exact .refl
    · exact hi.tail ⟨c, (hg.passage?_eq_some_iff hd htypes).2 hc, e, he, rfl, hopens⟩
  · intro h
    simp only [hg.passage?_eq_some_iff hd htypes]
    rcases h.cases_tail with hentry | ⟨i, -, c, hc, e, he, htarget, hopens⟩
    · refine hpasses.exists_mem ?_ ?_
      · rw [mem_topological_iff hwithin, hentry]
        exact ⟨hentry ▸ hblock, .refl⟩
      · rw [arrivals_start, if_pos hentry]
        exact cons_ne_nil _ _
    · rw [hg.passage?_eq_some_iff hd htypes] at hc
      have hpassed := hpasses.exists_mem_of_opens
        (fun _ _ _ h _ hj hjw => topological_ordered hwithin (fun a _ => hacyclic a) h hj hjw) hc he
        (htarget ▸ hblock) hopens
      rwa [htarget] at hpassed

/-- The query of an error location is made of what is found there and of the sites on the way. -/
theorem generate_eq (hback : g.backEdges = []) (ht : t.block ∈ g.ids) (exclusive : Bool) :
    ∃ q, (g.generate exclusive t .never).1 = .ok q ∧ (q.formula, q.observations) =
        (g.passage? t t.block).elim (Term.ff, []) (·.outcome t) ∧
      q.side = (if exclusive then (g.sitesIn (g.reaching t.block)).map exclusivity else []) ∧
      q.guards = guardSymbols (g.sitesIn (g.reaching t.block)) :=
  generate_of_formula hback ht exclusive ((hg.passes_start hd htypes t).visitBlocks_eq t)

end Assigned

theorem Built.mem_ids_of_mem_targets (b : Built globals calls d g) (ht : t ∈ g.targets) :
    t.block ∈ g.ids := by
  refine b.mem_ids_iff.2 ?_
  rw [b.eq] at ht
  exact of_decide_eq_true (mem_filter.1 ht).2

/-- Every error location has a query, which observes all leaves, or is constantly false if every way
there has an edge that is constantly closed. -/
theorem exists_query (p : Program) (calls : Option CallGraph) (d : ControlDecl)
    (hok : ofControl p.globals.scope calls d = (g, [])) {t : Target} (ht : t ∈ g.targets)
    (exclusive : Bool) : ∃ q, (g.generate exclusive t .never).1 = .ok q ∧
      (ReflTransGen (g.Leads t) g.entry t.block →
        ∀ key, (∃ sym, q.observations.lookup key = some sym) ↔ t.Reports key) ∧
      (¬ ReflTransGen (g.Leads t) g.entry t.block → q.formula = Term.ff ∧ q.observations = []) := by
  obtain ⟨⟨b⟩, hback⟩ := ofControl_built hok
  obtain ⟨known, n, A, hmade, hg⟩ := b.exists_assigned p.fits_globals
  obtain ⟨types, hd, htypes⟩ := hmade.exists_types
  have hblock := b.mem_ids_of_mem_targets ht
  obtain ⟨q, hq, hout, -⟩ := hg.generate_eq hd htypes hback hblock exclusive
  have hpassed := hg.exists_passage?_iff hd htypes (b.acyclic hback) hblock
  refine ⟨q, hq, fun hleads => ?_, fun hleads => ?_⟩
  · obtain ⟨c, hc⟩ := hpassed.2 hleads
    rw [hc] at hout
    have hready := ((hg.passes_start hd htypes t).of_mem
      ((hg.passage?_eq_some_iff hd htypes).1 hc)).2
    have hobserved : q.observations = (c.outcome t).2 := congrArg Prod.snd hout
    rw [hobserved]
    exact c.lookup_outcome (hready.mono (subset_append_left _ _)) (hg.target t ht)
  · have hnone : g.passage? t t.block = none := by
      rw [← Option.not_isSome_iff_eq_none, Option.isSome_iff_exists, hpassed]
      exact hleads
    rw [hnone] at hout
    exact Prod.mk.inj hout

end FlowGraph

namespace Sealed

def raise : Stmt := .call (.var "bug" none) [] none none

def control : ControlDecl where
  name := "C"
  params := [⟨.input, .bool none, "x", none⟩]
  locals := []
  body := .mk [.branch (.bool false none) (.mk [raise] none) none none, raise] none
  loc := none

def program : Program := ⟨[.control control], ""⟩

def graph : FlowGraph := (FlowGraph.ofControl program.globals.scope none control).1

theorem targets_ne_nil : graph.targets ≠ [] := by
  have hne : graph.targets.isEmpty = false := by decide +kernel
  intro h
  rw [h] at hne
  cases hne

def inner : Target := graph.targets.head targets_ne_nil

def outer : Target := graph.targets.getLast targets_ne_nil

def query : Query :=
  match (graph.generate true inner .never).1 with
  | .ok q => q
  | .error _ => ⟨inner, Term.ff, [], [], []⟩

theorem evaluated : (FlowGraph.ofControl program.globals.scope none control).2 = [] ∧
    (graph.generate true inner .never).1.isOk = true ∧
    (inner.observed.map fun q => (q.1, q.2.ty.leaves [])) = [("x", [[]])] ∧
    query.observations.isEmpty = true ∧
    ((graph.generate true outer .never).1.toOption.any fun q => !q.observations.isEmpty) =
      true := by
  decide +kernel

theorem ofControl_eq : FlowGraph.ofControl program.globals.scope none control = (graph, []) := by
  rw [graph, ← evaluated.1]

theorem generate_eq : (graph.generate true inner .never).1 = .ok query := by
  obtain ⟨q, hq⟩ := exists_ok evaluated.2.1
  rw [query, hq]

theorem reports : inner.Reports "x" ∧ query.observations = [] := by
  refine ⟨?_, ?_⟩
  · have hmem : ("x", [[]]) ∈ inner.observed.map fun q => (q.1, q.2.ty.leaves []) := by
      rw [evaluated.2.2.1]
      exact mem_cons_self
    obtain ⟨⟨x, v⟩, hv, heq⟩ := mem_map.1 hmem
    obtain ⟨rfl, hpath⟩ := Prod.mk.inj heq
    exact ⟨_, v, [], hv, by rw [hpath]; exact mem_cons_self, by decide⟩
  · exact isEmpty_iff.1 evaluated.2.2.2.1

end Sealed

theorem FlowGraph.exists_query_outer :
    ofControl Sealed.program.globals.scope none Sealed.control = (Sealed.graph, []) ∧
      Sealed.outer ∈ Sealed.graph.targets ∧
      ReflTransGen (Sealed.graph.Leads Sealed.outer) Sealed.graph.entry Sealed.outer.block ∧
      ∃ q, (Sealed.graph.generate true Sealed.outer .never).1 = .ok q ∧
        ∀ key, (∃ sym, q.observations.lookup key = some sym) ↔ Sealed.outer.Reports key := by
  have hmem : Sealed.outer ∈ Sealed.graph.targets := getLast_mem _
  obtain ⟨q, hq, hobserved, hsealed⟩ :=
    exists_query Sealed.program none Sealed.control Sealed.ofControl_eq hmem true
  have hleads : ReflTransGen (Sealed.graph.Leads Sealed.outer) Sealed.graph.entry
      Sealed.outer.block := by
    by_contra hnot
    have hsome := Sealed.evaluated.2.2.2.2
    rw [hq] at hsome
    simp [Except.toOption, (hsealed hnot).2] at hsome
  exact ⟨Sealed.ofControl_eq, hmem, hleads, q, hq, hobserved hleads⟩

/-- In a branch that is never taken nothing is observed. -/
theorem FlowGraph.not_observed_of_generate : ¬ ∀ (p : Program) (calls : Option CallGraph)
    (d : ControlDecl) (g : FlowGraph) (t : Target) (exclusive : Bool) (q : Query),
    d ∈ p.controls → ofControl p.globals.scope calls d = (g, []) → t ∈ g.targets →
    (g.generate exclusive t .never).1 = .ok q →
    ∀ key, t.Reports key → ∃ sym, q.observations.lookup key = some sym := by
  intro h
  obtain ⟨sym, hsym⟩ := h Sealed.program none Sealed.control Sealed.graph Sealed.inner true
    Sealed.query mem_cons_self Sealed.ofControl_eq (head_mem _) Sealed.generate_eq "x"
    Sealed.reports.1
  rw [Sealed.reports.2] at hsym
  cases hsym

end ControlReach
