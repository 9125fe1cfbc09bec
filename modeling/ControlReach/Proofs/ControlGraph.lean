import ControlReach.Proofs.LaidPlans
import ControlReach.Proofs.Naming
import ControlReach.Proofs.Pruning

/-!
# The graph of a control

The graph of a control is the layout of its plan, with the actions that are never called laid out
behind it, less what the entry does not reach. No edge leads to those actions, so they go.
-/

namespace ControlReach

open List Relation

namespace Layout

variable {l : Layout}

theorem block?_graph (h : l.Valid) (n : Nat) : (l.graph name inputs).block? n = l.blocks[n]? := by
  show l.blocks.find? (fun b => b.id == (n : Int)) = _
  cases hfind : l.blocks.find? (fun b => b.id == (n : Int)) with
  | some b =>
    obtain ⟨k, hk⟩ := mem_iff_getElem?.1 (mem_of_find?_eq_some hfind)
    have hid : b.id = (n : Int) := by simpa using find?_some hfind
    have hkn : (k : Int) = n := (h.id hk).symm.trans hid
    rw [← Int.ofNat.inj hkn, hk]
  | none =>
    cases hget : l.blocks[n]? with
    | none => rfl
    | some b =>
      have := find?_eq_none.1 hfind b (mem_of_getElem? hget)
      simp [h.id hget] at this

theorem code_eq_some {i : Nat} {c : List Op × List Edge} :
    l.code i = some c ↔ ∃ b, l.blocks[i]? = some b ∧ (b.ops, b.edges) = c := Option.map_eq_some_iff

theorem mem_successors_graph (h : l.Valid) {i : Nat} {j : BlockId} :
    j ∈ (l.graph name inputs).successors i ↔ ∃ c, l.code i = some c ∧ ∃ e ∈ c.2, e.target = j := by
  rw [FlowGraph.mem_successors_iff, block?_graph h]
  constructor
  · rintro ⟨b, hb, e, he, rfl⟩
    exact ⟨_, code_eq_some.2 ⟨b, hb, rfl⟩, e, he, rfl⟩
  · rintro ⟨c, hc, e, he, rfl⟩
    obtain ⟨b, hb, rfl⟩ := code_eq_some.1 hc
    exact ⟨b, hb, e, he, rfl⟩

theorem mem_ids_graph (h : l.Valid) :
    i ∈ (l.graph name inputs).ids ↔ ∃ n : Nat, n < l.size ∧ i = n := by
  constructor
  · intro hi
    obtain ⟨b, hb, rfl⟩ := mem_map.1 hi
    obtain ⟨n, hn⟩ := mem_iff_getElem?.1 hb
    exact ⟨n, (List.getElem?_eq_some_iff.1 hn).1, h.id hn⟩
  · rintro ⟨n, hn, rfl⟩
    rw [FlowGraph.mem_ids_iff, block?_graph h]
    exact (getElem?_eq_getElem hn) ▸ rfl

theorem closed_graph (h : l.Valid) : (l.graph name inputs).Closed := by
  refine ⟨(mem_ids_graph h).2 ⟨0, Nat.lt_of_le_of_lt (Nat.zero_le _) h.current, rfl⟩, ?_⟩
  intro a ha b hb
  obtain ⟨n, hn, rfl⟩ := (mem_ids_graph h).1 ha
  obtain ⟨c, hc, e, he, rfl⟩ := (mem_successors_graph h).1 hb
  obtain ⟨j, hj, htarget⟩ := h.edge hc e he
  exact (mem_ids_graph h).2 ⟨j, hj, htarget⟩

end Layout

/-! ### Actions that are never called -/

namespace Elaborate

variable {l l' : Layout}

variable (h : Detaches depth ctx actions c l c' l')

include h

theorem Detaches.extends (i : Nat) : l.Extends i l' := by
  induction h with
  | nil => exact .refl
  | skip _ _ ih | round _ ih => exact ih
  | @cons action rest c l a c₁ c₂ l₂ _ _ _ ih =>
    have hdetach : l.Extends i ((l.newBlock ("detached " ++ action.qualified)).goTo l.size) :=
      .goTo (.newBlock _ .refl) (Nat.le_refl _) (by simp)
    have hlay := hdetach.trans (a.extends_lay _) (.inr ⟨Nat.le_refl _, by simp⟩)
    exact hlay.trans ih (.inl rfl)

theorem Detaches.sites (hl : l.Counted ctx.control c) : l.sites <+: l'.sites := by
  induction h with
  | nil => exact prefix_refl _
  | skip _ _ ih => exact ih hl
  | round _ ih => exact ih hl.forget
  | @cons action rest c l a c₁ c₂ l₂ _ ha _ ih =>
    have hdetach := hl.detach ("detached " ++ action.qualified)
    refine IsPrefix.trans ?_ (ih (hdetach.lay ha.numbered))
    rw [hdetach.sites_lay ha.numbered]
    exact prefix_append _ _

end Elaborate

/-! ### The graph of a control -/

open Elaborate in
/-- How the graph of a control comes about. -/
structure FlowGraph.Built (globals : Scope) (calls : Option CallGraph) (d : ControlDecl)
    (g : FlowGraph) where
  plan : Plan
  counters : Counters
  counters' : Counters
  layout : Layout
  inputs : List Variable
  elaborates : ElaboratesControl (inlineBound globals) (.initial calls d) globals d plan counters
  detaches : Detaches (inlineBound globals) (.initial calls d) counters.pending
    { counters with pending := [] } (plan.lay .initial) counters' layout
  eq : g = (layout.graph d.name inputs).prune layout.targets

theorem FlowGraph.ofControl_built (h : ofControl globals calls d = (g, [])) :
    Nonempty (Built globals calls d g) ∧ g.backEdges = [] := by
  obtain rfl : (ofControl globals calls d).1 = g := congrArg Prod.fst h
  have hnone : (ofControl globals calls d).2 = [] := congrArg Prod.snd h
  obtain ⟨a, helab, hdetaches⟩ := Build.ofControl_spec hnone
  exact ⟨⟨⟨a, _, _, _, (Build.ofControl globals calls d).inputs, helab, hdetaches, rfl⟩⟩,
    backEdges_ofControl hnone⟩

namespace FlowGraph.Built

variable {d : ControlDecl} {g : FlowGraph} (b : Built globals calls d g)

def main : Layout := b.plan.lay .initial

theorem main_counted : b.main.Counted (Context.initial calls d).control
    { b.counters with pending := [] } := b.elaborates.counted

theorem layout_counted : b.layout.Counted (Context.initial calls d).control b.counters' :=
  b.detaches.counted b.main_counted

theorem sites_main : b.main.sites = b.plan.sites :=
  (Layout.counted_initial _).sites_lay b.elaborates.numbered

theorem code_main (h : n < b.main.size) : b.layout.code n = b.main.code n :=
  (b.detaches.extends b.main.size).code h (Nat.ne_of_gt h)

def live : List BlockId := (b.layout.graph d.name b.inputs).reachable

theorem closed_layout : (b.layout.graph d.name b.inputs).Closed :=
  Layout.closed_graph b.layout_counted.valid

theorem mem_ids_iff : i ∈ g.ids ↔ i ∈ b.live :=
  (iff_of_eq (congrArg (i ∈ FlowGraph.ids ·) b.eq)).trans b.closed_layout.mem_ids_prune

theorem path_of_live (h : i ∈ b.live) :
    ∃ n < b.main.size, i = (n : Int) ∧ ReflTransGen b.main.Leads 0 n := by
  have hpath := b.closed_layout.mem_reachable_iff.1 h
  clear h
  induction hpath with
  | refl => exact ⟨0, Nat.lt_of_le_of_lt (Nat.zero_le _) b.main_counted.valid.current, rfl, .refl⟩
  | tail _ hedge ih =>
    obtain ⟨n, hn, rfl, hpath⟩ := ih
    obtain ⟨c, hc, e, he, rfl⟩ := (Layout.mem_successors_graph b.layout_counted.valid).1 hedge
    rw [b.code_main hn] at hc
    obtain ⟨j, hj, htarget⟩ := b.main_counted.valid.edge hc e he
    exact ⟨j, hj, htarget, hpath.tail ⟨c, hc, e, he, htarget⟩⟩

theorem mem_live (h : i ∈ b.live) : ∃ n < b.main.size, i = (n : Int) := by
  obtain ⟨n, hn, hi, -⟩ := b.path_of_live h
  exact ⟨n, hn, hi⟩

section

variable (h : blk ∈ g.blocks)

include h

theorem live_of_mem_blocks : blk.id ∈ b.live :=
  b.mem_ids_iff.1 (mem_map_of_mem h)

/-- A block of the graph is a block of the plan, less predecessors that are not reached. -/
theorem exists_layout_block :
    ∃ (n : Nat) (blk' : FlowBlock), n < b.main.size ∧ blk.id = n ∧ b.layout.blocks[n]? = some blk' ∧
      blk = { blk' with predecessors := blk'.predecessors.filter (· ∈ b.live) } := by
  obtain ⟨n, hn, hid⟩ := b.mem_live (b.live_of_mem_blocks h)
  rw [b.eq] at h
  obtain ⟨blk', hmem, rfl⟩ := mem_map.1 h
  obtain ⟨k, hk⟩ := mem_iff_getElem?.1 (mem_filter.1 hmem).1
  have hkn : (k : Int) = n := (b.layout_counted.valid.id hk).symm.trans hid
  obtain rfl : k = n := Int.ofNat.inj hkn
  exact ⟨k, blk', hn, hid, hk, rfl⟩

theorem mem_blocks : ∃ n : Nat, blk.id = n ∧ b.main.code n = some (blk.ops, blk.edges) := by
  obtain ⟨n, blk', hn, hid, hk, rfl⟩ := b.exists_layout_block h
  refine ⟨n, hid, ?_⟩
  rw [← b.code_main hn]
  exact Layout.code_eq_some.2 ⟨blk', hk, rfl⟩

end

theorem mem_targets_iff : t ∈ g.targets ↔ t ∈ b.layout.targets ∧ t.block ∈ b.live := by
  have htargets : g.targets = b.layout.targets.filter fun t => t.block ∈ b.live :=
    congrArg FlowGraph.targets b.eq
  rw [htargets, mem_filter, decide_eq_true_eq]

theorem mem_targets (h : t ∈ g.targets) : t ∈ b.main.targets := by
  obtain ⟨hmem, hlive⟩ := b.mem_targets_iff.1 h
  obtain ⟨n, hn, hblock⟩ := b.mem_live hlive
  obtain ⟨ts, hts, hnew⟩ := (b.detaches.extends 0).targets
  rw [hts] at hmem
  rcases mem_append.1 hmem with hmem | hmem
  · exact hmem
  · obtain ⟨n', hn', hle⟩ := hnew t hmem
    have : (n : Int) = n' := hblock.symm.trans hn'
    have hmain : b.main.size ≤ n' := hle
    omega

theorem site?_eq (h : s ∈ b.plan.sites) : g.site? s.id = some s := by
  have hmem : s ∈ b.layout.sites :=
    (b.detaches.sites b.main_counted).subset (b.sites_main ▸ h : s ∈ b.main.sites)
  have hnodup : (b.layout.sites.map TableSite.id).Nodup := by
    rw [b.layout_counted.site]
    exact nodup_range
  rw [b.eq]
  show b.layout.sites.find? (fun s' => s'.id == s.id) = some s
  cases hfind : b.layout.sites.find? (fun s' => s'.id == s.id) with
  | none => simpa using find?_eq_none.1 hfind s hmem
  | some s' =>
    have hid : s'.id = s.id := by simpa using find?_some hfind
    rw [inj_on_of_nodup_map hnodup (mem_of_find?_eq_some hfind) hmem hid]

end FlowGraph.Built

end ControlReach
