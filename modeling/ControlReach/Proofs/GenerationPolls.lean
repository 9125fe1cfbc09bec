import ControlReach.Proofs.Traversal

/-!
# Polls of a generation

Making a query polls its token once for each block on the way to the error location. A token that
lets as many polls pass changes nothing, and any other gives up.
-/

namespace ControlReach

open List Relation

/-- If the error location comes last, all blocks are visited, and the token is polled at each. -/
theorem visitBlocks_after
    (hlast : ∀ before after, order = before ++ target.block :: after → after = [])
    (h : (visitBlocks g target relevant order .never p).1 = .ok out) (n : Nat) :
    (visitBlocks g target relevant order (.after n) p).1 =
      if n < order.length then .error (.canceled target.id) else .ok out := by
  induction order generalizing n p with
  | nil => exact h
  | cons i order ih =>
    cases n with
    | zero => rfl
    | succ n =>
      rw [visitBlocks, Token.poll_never] at h
      rw [visitBlocks, Token.poll_after_succ]
      cases hvisit : visitBlock g target relevant i p with
      | error => simp [hvisit] at h
      | ok r =>
        simp only [hvisit, Bool.false_eq_true, if_false, length_cons, Nat.succ_lt_succ_iff] at h ⊢
        cases r with
        | inl =>
          obtain rfl := (visitBlock_inl hvisit).1
          rw [hlast [] order rfl]
          exact h
        | inr p => exact ih (fun before after heq => hlast (i :: before) after (by rw [heq]; rfl)) h n

namespace FlowGraph

/-- A query is not finished exactly if the token is canceled before it has been polled at each block
on a path to the error location. That the graph is `Consistent` is what its lists of predecessors
mean: they are the edges, read backwards. -/
theorem generate_after (g : FlowGraph) (hcons : g.Consistent)
    (hacyclic : ∀ i, ReflTransGen (Search.Edge g.successors) g.entry i →
      ¬ TransGen (Search.Edge g.successors) i i) (exclusive : Bool) (t : Target) {q : Query}
    (hq : (g.generate exclusive t .never).1 = .ok q) :
    ∃ way : List BlockId, way.Nodup ∧
      (∀ i, i ∈ way ↔ ReflTransGen (Search.Edge g.successors) g.entry i ∧
        ReflTransGen (Search.Edge g.successors) i t.block) ∧
      ∀ n, (g.generate exclusive t (.after n)).1 =
        if n < way.length then .error (.canceled t.id) else .ok q := by
  obtain ⟨hback, ht, hformula, -⟩ := formula_of_generate hq
  have hids : ∀ i ∈ g.reaching t.block, i ∈ g.ids := fun _ => reaching_subset_ids
  have hlast := getLast?_topological hacyclic hids fun i => mem_reaching_iff_path hcons ht
  refine ⟨_, topological_nodup hids, fun i => mem_topological_iff_path hcons ht fun _ => Iff.rfl,
    fun n => ?_⟩
  have hpolls := visitBlocks_after (fun before after heq => ?_) hformula n
  · rw [generate_eq_map hback ht, hformula] at hq
    rw [generate_eq_map hback ht, formula, hpolls, ← hq, apply_ite (Except.map _)]
    rfl
  · -- A block behind the error location would be the last one, and so the error location again.
    have hnodup := topological_nodup hids
    have hend := hlast (heq ▸ mem_append_right _ mem_cons_self)
    rw [heq] at hnodup hend
    obtain hnil | ⟨rest, last, rfl⟩ := eq_nil_or_concat' after
    · exact hnil
    · rw [← cons_append, ← append_assoc, getLast?_concat] at hend
      obtain rfl := Option.some.inj hend
      exact absurd (mem_append_right _ mem_cons_self)
        (nodup_cons.1 (nodup_append.1 hnodup).2.1).1

/-- Two ways lead to block `3` of the diamond, and block `-1` is on neither. -/
theorem generate_after_diamond : ∃ (t : Target) (q : Query) (way : List BlockId),
    t ∈ diamond.targets ∧ (diamond.generate true t .never).1 = .ok q ∧ way.Nodup ∧
      (∀ i, i ∈ way ↔ ReflTransGen (Search.Edge diamond.successors) 0 i ∧
        ReflTransGen (Search.Edge diamond.successors) i t.block) ∧
      ∀ n, (diamond.generate true t (.after n)).1 =
        if n < way.length then .error (.canceled t.id) else .ok q := by
  have hcons : diamond.Consistent := consistent_of_forall (by decide) (by decide)
  obtain ⟨q, hq⟩ : ∃ q, (diamond.generate true ⟨"G", 0, .bug, 3, "", none, []⟩ .never).1 = .ok q :=
    ⟨_, rfl⟩
  obtain ⟨way, hway⟩ := generate_after diamond hcons (fun i _ => acyclic_of_lt (by decide) i) _ _ hq
  exact ⟨_, q, way, mem_singleton.2 rfl, hq, hway⟩

end FlowGraph

end ControlReach
