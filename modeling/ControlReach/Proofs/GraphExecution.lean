import ControlReach.Proofs.LayoutSteps
import ControlReach.Proofs.PlanExecution
import ControlReach.Proofs.WaysOut

/-!
# Executions of the graph of a control

The graph of a control has the executions of its plan. What is laid out behind the plan has none,
and what has been pruned has none.
-/

namespace ControlReach

open List Relation

namespace FlowGraph.Built

variable {g : FlowGraph} (b : Built globals calls d g) {o : Oracle}

include b in
theorem entry_eq : g.entry = 0 := congrArg FlowGraph.entry b.eq

theorem sites_eq : g.sites = b.layout.sites := congrArg FlowGraph.sites b.eq

theorem live_zero : ((0 : Nat) : Int) ∈ b.live :=
  b.closed_layout.mem_reachable_iff.2 .refl

theorem live_of_leads {i j : Nat} (hi : (i : Int) ∈ b.live) (h : b.main.Leads i j) :
    (j : Int) ∈ b.live := by
  obtain ⟨c, hc, e, he, hj⟩ := h
  obtain ⟨n, hn, heq⟩ := b.mem_live hi
  obtain rfl : i = n := Int.ofNat.inj heq
  refine b.closed_layout.reachable_successor hi ?_
  refine (Layout.mem_successors_graph b.layout_counted.valid).2 ⟨c, ?_, e, he, hj⟩
  rw [b.code_main hn, hc]

variable {t : Target} {n : Nat}

theorem exists_block (hlive : (n : Int) ∈ b.live) :
    ∃ blk, g.block? n = some blk ∧ b.main.code n = some (blk.ops, blk.edges) := by
  obtain ⟨blk, hblk⟩ := FlowGraph.exists_block (b.mem_ids_iff.2 hlive)
  obtain ⟨m, hm, hcode⟩ := b.mem_blocks (mem_blocks_of_block hblk)
  have hid : (m : Int) = n := hm.symm.trans (id_of_block hblk)
  obtain rfl : m = n := Int.ofNat.inj hid
  exact ⟨blk, hblk, hcode⟩

/-! ### The plan in the graph -/

theorem exists_laid : ∃ p, p.block = 0 ∧ b.main.Enters p ∧
    b.plan.Laid b.main p ⟨b.main.current, [], []⟩ := by
  have hlays := b.plan.lays Layout.valid_initial ⟨[], rfl⟩
  obtain ⟨ops, hops⟩ := hlays.pending
  obtain ⟨p, hp, hlaid⟩ := hlays.laid (L := b.main) (q := ⟨b.main.current, [], []⟩) {
    code := fun _ _ => rfl
    target? := fun _ => rfl
    goesOn := ⟨rfl, ops, hops, by rw [append_nil]; exact hops⟩ }
  refine ⟨p, hp.block, ⟨?_, ?_⟩, hlaid⟩
  · rw [hp.block]
    exact hp.code_eq rfl
  · rw [hp.block]
    exact hlays.extends_lay.target? Nat.zero_lt_one

theorem target?_main : b.main.target? n = some t ↔ t ∈ b.main.targets ∧ t.block = (n : Int) :=
  (b.plan.extends_lay .initial).marked Layout.marked_initial n t

theorem finished_or_last : ∃ applied : List (TableSite × Nat), applied.map Prod.fst = b.plan.sites ∧
    ∀ {n : Nat}, (n : Int) ∈ b.live → b.main.Finished b.plan.conditions applied n ∨
      (n = b.main.current ∧ b.main.target? n = none ∧ ∃ ops, b.main.code n = some (ops, [])) := by
  obtain ⟨p, hp, henter, hlaid⟩ := b.exists_laid
  obtain ⟨applied, happlied, hall⟩ := hlaid.finished_or_sees henter.has
  refine ⟨applied, happlied, fun {n} hlive => ?_⟩
  obtain ⟨m, -, heq, hpath⟩ := b.path_of_live hlive
  obtain rfl : n = m := Int.ofNat.inj heq
  refine (hall n (henter.sees (hp ▸ hpath))).imp_right ?_
  rintro (rfl | ⟨e, he, -⟩)
  · obtain ⟨⟨before, hcode⟩, htarget⟩ := hlaid.has henter.has
    exact ⟨rfl, htarget, _, hcode⟩
  · cases he

theorem exists_applied : ∃ applied : List (TableSite × Nat), applied.map Prod.fst = b.plan.sites ∧
    ∀ blk ∈ g.blocks, ∀ e ∈ blk.edges, ∀ r, e.guard = some r →
      ∃ n : Nat, blk.id = n ∧ GuardAt b.plan.conditions applied n r := by
  obtain ⟨applied, happlied, hall⟩ := b.finished_or_last
  refine ⟨applied, happlied, fun blk hblk e he r hr => ?_⟩
  obtain ⟨n, hn, hcode⟩ := b.mem_blocks hblk
  refine ⟨n, hn, ?_⟩
  rcases hall (hn ▸ b.live_of_mem_blocks hblk) with (⟨t, hempty, -⟩ | ⟨-, c, hc, -, hguard⟩) |
    ⟨-, -, ops, hops⟩
  · rw [(Prod.mk.inj (Option.some.inj (hcode.symm.trans hempty))).2] at he
    cases he
  · cases hcode.symm.trans hc
    exact hguard e he r hr
  · rw [(Prod.mk.inj (Option.some.inj (hcode.symm.trans hops))).2] at he
    cases he

theorem code_of_target (hlive : (n : Int) ∈ b.live) (ht : b.main.target? n = some t) :
    b.main.code n = some ([], []) := by
  obtain ⟨applied, -, hall⟩ := b.finished_or_last
  rcases hall hlive with (⟨t', h⟩ | ⟨h, -⟩) | ⟨-, h, -⟩
  · exact h.1
  · cases h.symm.trans ht
  · cases h.symm.trans ht

theorem comes_iff (ht : t ∈ b.main.targets) :
    b.main.Comes o t 0 State.empty ↔ b.plan.Stops o State.empty t.index := by
  obtain ⟨p, hp, henter, hlaid⟩ := b.exists_laid
  have hindex : ∀ n t', b.main.target? n = some t' → t'.index = t.index → t' = t := by
    intro n t' ht' hi
    refine inj_on_of_nodup_map ?_ (b.target?_main.1 ht').1 ht hi
    rw [b.main_counted.target]
    exact nodup_range
  rw [← hp, Layout.comes_iff henter, hlaid.comesFrom_iff hindex, or_iff_left]
  rintro ⟨ρ, -, τ, -, e, he, -⟩
  cases he

theorem stops_of_ends (ht : t ∈ g.targets) (h : g.Ends o t.block σ) :
    b.plan.Stops o State.empty t.index := by
  have htarget := b.mem_targets ht
  obtain ⟨blk, ρ, harrives, -, -⟩ := h
  have hcomes : ∀ x, ReflTransGen (g.Move o) x (t.block, ρ) → ∀ n : Nat, x.1 = (n : Int) →
      b.main.Comes o t n x.2 := by
    intro x hx
    induction hx using ReflTransGen.head_induction_on with
    | refl => exact fun n hn => .here (b.target?_main.2 ⟨htarget, hn⟩)
    | head hmove _ ih =>
      intro n hn
      cases hmove with
      | @mk i blk σ τ e hblk hsteps _ he hopen =>
        obtain ⟨m, hm, hcode⟩ := b.mem_blocks (mem_blocks_of_block hblk)
        have hid : (m : Int) = n := hm.symm.trans ((id_of_block hblk).trans hn)
        obtain rfl : m = n := Int.ofNat.inj hid
        obtain ⟨j, -, hj⟩ := b.main_counted.valid.edge hcode e he
        exact .move hcode hsteps he hopen hj (ih j hj)
  exact (b.comes_iff htarget).1 (hcomes _ harrives 0 b.entry_eq)

theorem ends_of_stops (hdecided : ∀ s ∈ g.sites, s.Decided o.select) (ht : t ∈ g.targets)
    (h : b.plan.Stops o State.empty t.index) : ∃ σ, g.Ends o t.block σ := by
  have hcomes := (b.comes_iff (b.mem_targets ht)).2 h
  have hall : ∀ {n : Nat} {σ : State}, b.main.Comes o t n σ → (n : Int) ∈ b.live →
      g.Arrives o n σ → ∃ σ, g.Ends o t.block σ := by
    intro n σ hn
    induction hn with
    | @here n σ htarget =>
      intro hlive harrives
      obtain ⟨blk, hblk, hcode⟩ := b.exists_block hlive
      obtain ⟨hops, -⟩ := Prod.mk.inj (Option.some.inj
        (hcode.symm.trans (b.code_of_target hlive htarget)))
      rw [(b.target?_main.1 htarget).2]
      exact ⟨σ, blk, σ, harrives, hblk, hops ▸ .nil⟩
    | @move n c σ τ e j hc hsteps he hopen hj _ ih =>
      intro hlive harrives
      obtain ⟨blk, hblk, hcode⟩ := b.exists_block hlive
      cases hcode.symm.trans hc
      refine ih (b.live_of_leads hlive ⟨_, hc, e, he, hj⟩) ?_
      rw [← hj]
      refine harrives.tail (.mk hblk hsteps (fun m _ s hs => ?_) he hopen)
      exact hdecided s (mem_of_find?_eq_some hs)
  refine hall hcomes b.live_zero ?_
  rw [Arrives, b.entry_eq]
  exact .refl

theorem live_of_comes (h : b.main.Comes o t n σ) (hlive : (n : Int) ∈ b.live) :
    t.block ∈ b.live := by
  induction h with
  | here ht =>
    rw [(b.target?_main.1 ht).2]
    exact hlive
  | move hc _ he _ hj _ ih => exact ih (b.live_of_leads hlive ⟨_, hc, _, he, hj⟩)

theorem not_stops (ht : t ∈ g.deadTargets) : ¬ b.plan.Stops o State.empty t.index := by
  intro h
  rw [b.eq] at ht
  obtain ⟨hmem, hdead⟩ := mem_filter.1 ht
  obtain ⟨ts, hts, hnew⟩ := (b.detaches.extends 0).targets
  rw [hts] at hmem
  rcases mem_append.1 hmem with hmem | hmem
  · exact of_decide_eq_true hdead (b.live_of_comes ((b.comes_iff hmem).2 h) b.live_zero)
  · -- The numbers of detached error locations come after those of the plan.
    have hplan : t.index ∈ b.main.targets.map Target.index := by
      obtain ⟨hindex, hcount⟩ := b.elaborates.numbered.target
      have hstop := b.plan.mem_of_stops h
      rw [hindex, mem_range'_1] at hstop
      rw [b.main_counted.target, mem_range]
      show t.index < b.counters.target
      omega
    have hnodup : (b.layout.targets.map Target.index).Nodup := by
      rw [b.layout_counted.target]
      exact nodup_range
    rw [hts, map_append] at hnodup
    exact disjoint_of_nodup_append hnodup hplan (mem_map_of_mem hmem)

end FlowGraph.Built

end ControlReach
