import ControlReach.Proofs.JoinMeaning

/-!
# What a visit to a block finds

In a well-typed graph all that comes in at a block has formulas as conditions and typed stores, and
executing its operations describes the executions of the block.
-/

namespace ControlReach

variable {g : FlowGraph} {types : Nat → Ty} {i : BlockId} {p : Progress}

def Edge.Selected (e : Edge) (select : Selection) (v : Valuation String) : Prop :=
  ∀ guard, e.guard = some guard → guard.Selected select v

theorem FlowGraph.WellTyped.opsOf (h : g.WellTyped types) (i : BlockId) :
    ∀ op ∈ g.opsOf i, op.WellTyped g.site? types := by
  intro op hop
  obtain ⟨b, hb, hop⟩ := mem_opsOf.1 hop
  exact h.ops b (mem_blocks_of_block hb) op hop

theorem FlowGraph.WellTyped.guardsOf (h : g.WellTyped types) (i : BlockId) :
    ∀ e ∈ g.edgesOf i, ∀ guard, e.guard = some guard → guard.HasType g.site? types .bool := by
  intro e he
  obtain ⟨b, hb, he⟩ := mem_edgesOf.1 he
  exact h.guards b (mem_blocks_of_block hb) e he

theorem Edge.condition_spec {e : Edge} {s : Store} (hd : ∀ n, (types n).Distinct)
    (hs : s.Typed types) (hty : ∀ guard, e.guard = some guard → guard.HasType g.site? types .bool)
    (h : e.condition s = .ok t) : t.Formula ∧ ∀ v σ select, s.Describes v σ → e.Selected select v →
      (t.holds id v = true ↔ e.Open select σ) := by
  rw [Edge.condition] at h
  cases hg : e.guard with
  | none =>
    rw [hg] at h
    cases h
    refine ⟨Term.formula_bool true, fun v σ select _ _ => ?_⟩
    simp [Edge.Open, hg, Term.holds]
  | some guard =>
    rw [hg] at h
    obtain ⟨hform, hval⟩ := Rvalue.condition_spec hd hs (hty guard hg) h
    refine ⟨hform, fun v σ select hσ hsel => ?_⟩
    have hv := hval v σ select hσ (hsel guard hg)
    simp [Edge.Open, hg, hv]

def Progress.Typed (p : Progress) (types : Nat → Ty) : Prop :=
  ∀ j, ∀ a ∈ p.arrivals j, a.Typed types

theorem FlowGraph.start_typed (g : FlowGraph) (types : Nat → Ty) : g.start.Typed types := by
  intro j a ha
  obtain ⟨-, rfl⟩ := mem_arrivals_start ha
  exact ⟨Term.formula_bool true, Store.typed_nil types⟩

/-- `a` is the join of what has come in, and `new` are the conditions of the operations. -/
structure Passage.Enters (types : Nat → Ty) (g : FlowGraph) (i : BlockId) (p : Progress)
    (c : Passage) (a : Arrival) (defs new : List Term) : Prop where
  joined : join i (p.arrivals i) = .ok (some (a, defs))
  cases : (p.arrivals i = [a] ∧ defs = []) ∨ a.Joins types i (p.arrivals i) defs
  arrival : a.Typed types
  definitions : c.definitions = p.definitions ++ defs
  condition : c.condition = Term.mkAnd (a.condition :: new)
  faithful : Op.Faithful types (g.opsOf i) a.store c.store new

theorem FlowGraph.pass_spec (hg : g.WellTyped types) (hp : p.Typed types)
    (h : g.pass i p = .ok (some c)) : ∃ a defs new, c.Enters types g i p a defs new := by
  obtain ⟨a, defs, s, new, hjoin, hexec, rfl⟩ := pass_eq_some h
  have hcases := join_spec hg.distinct (hp i) hjoin
  have ha : a.Typed types := by
    rcases hcases with ⟨harr, -⟩ | hj
    · exact hp i a (by rw [harr]; exact List.mem_cons_self)
    · exact hj.typed
  obtain ⟨new', hnew, hfaith⟩ := execute_spec hg.distinct ha.2 (hg.opsOf i) hexec
  rw [List.nil_append] at hnew
  subst hnew
  exact ⟨a, defs, new, hjoin, hcases, ha, rfl, rfl, hfaith⟩

theorem FlowGraph.pass_eq_none (h : g.pass i p = .ok none) : p.arrivals i = [] := by
  rw [pass, bind_eq_ok] at h
  obtain ⟨r, hjoin, h⟩ := h
  cases r with
  | none =>
    generalize p.arrivals i = arrivals at hjoin ⊢
    fun_cases join i arrivals with
    | case1 => rfl
    | case2 => cases hjoin
    | case3 first others hne =>
      rw [join.eq_3 i first others hne] at hjoin
      simp only [bind_eq_ok, pure_eq_ok, reduceCtorEq, and_false, exists_false] at hjoin
  | some r => simp only [bind_eq_ok, pure_eq_ok, reduceCtorEq, and_false, exists_false] at h

namespace Passage.Enters

variable {c : Passage}

theorem condition_formula (h : c.Enters types g i p a defs new) : c.condition.Formula := by
  rw [h.condition]
  exact .mkAnd (List.forall_mem_cons.2 ⟨h.arrival.1, h.faithful.formulas⟩)

theorem holds_condition_iff (h : c.Enters types g i p a defs new) (v : Valuation String) :
    c.condition.holds id v = true ↔
      a.condition.holds id v = true ∧ ∀ t ∈ new, t.holds id v = true := by
  rw [h.condition, Term.holds_mkAnd, List.forall_mem_cons]

end Passage.Enters

theorem visitBlock_typed (hg : g.WellTyped types) (hp : p.Typed types)
    (h : visitBlock g target relevant i p = .ok (.inr p')) : p'.Typed types := by
  rcases visitBlock_inr h with ⟨-, rfl⟩ | ⟨-, c, hpass, hfollow⟩
  · exact hp
  · obtain ⟨a, defs, new, hc⟩ := FlowGraph.pass_spec hg hp hpass
    intro j b hb
    rcases mem_arrivals_follow hfollow hb with hb | ⟨e, he, -, t, ht, rfl⟩
    · exact hp j b hb
    · obtain ⟨hform, -⟩ := Edge.condition_spec hg.distinct hc.faithful.typed (hg.guardsOf i e he) ht
      exact ⟨.mkAnd (by simp [hc.condition_formula, hform]), hc.faithful.typed⟩

theorem Visits.holds_definitions {δ : Type} [DecidableEq δ] {denote : String → δ} {v : Valuation δ}
    {order : List BlockId} {out : Outcome} (h : Visits g target relevant order p out)
    (hv : out.1.holds denote v = true) : ∀ t ∈ p.definitions, t.holds denote v = true := by
  induction h with
  | nil => cases hv
  | found hvisit =>
    obtain ⟨-, c, hpass, rfl⟩ := visitBlock_inl hvisit
    obtain ⟨a, defs, s, assumed, -, -, rfl⟩ := FlowGraph.pass_eq_some hpass
    intro t ht
    exact Term.holds_mkAnd.1 hv t (by simp [ht])
  | next hvisit _ ih =>
    rcases visitBlock_inr hvisit with ⟨-, rfl⟩ | ⟨-, c, hpass, hfollow⟩
    · exact ih hv
    · obtain ⟨a, defs, s, assumed, -, -, rfl⟩ := FlowGraph.pass_eq_some hpass
      have hall := ih hv
      rw [(follow_spec hfollow).1] at hall
      exact (List.forall_mem_append.1 hall).1

end ControlReach
