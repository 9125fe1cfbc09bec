import ControlReach.Proofs.GraphExecution
import ControlReach.Proofs.PlanTyping
import ControlReach.Proofs.Simulation

/-!
# Choices of table applications

A table site is passed at most once in an execution, so its choice may have been made in advance.
-/

namespace ControlReach

open List Selection

/-- One label is selected at each site. -/
def Selection.only (chosen : Nat → String) : Selection := fun site label => decide (label = chosen site)

theorem TableSite.decided_only {s : TableSite} (h : chosen s.id ∈ s.labels) :
    s.Decided (only chosen) := by
  refine ⟨chosen s.id, ⟨h, decide_eq_true rfl⟩, ?_⟩
  rintro label ⟨-, hlabel⟩
  exact of_decide_eq_true hlabel

/-- If labels are chosen well at some sites, whatever is chosen elsewhere. -/
def Decides (sites : List TableSite) (P : (Nat → String) → Prop) : Prop :=
  ∃ chosen : Nat → String, (∀ s ∈ sites, chosen s.id ∈ s.labels) ∧
    ∀ chosen', (∀ s ∈ sites, chosen' s.id = chosen s.id) → P chosen'

namespace Decides

variable {P : (Nat → String) → Prop}

theorem imp (h : Decides sites P) (hPQ : ∀ chosen, P chosen → Q chosen) : Decides sites Q := by
  obtain ⟨chosen, hlabels, hP⟩ := h
  exact ⟨chosen, hlabels, fun chosen' hsame => hPQ _ (hP chosen' hsame)⟩

theorem of_forall (hmiss : ∀ s ∈ sites, TableSite.miss ∈ s.labels) (h : ∀ chosen, P chosen) :
    Decides sites P :=
  ⟨fun _ => TableSite.miss, hmiss, fun chosen' _ => h chosen'⟩

theorem single {s : TableSite} (h : label ∈ s.labels) :
    Decides [s] fun chosen => chosen s.id = label := by
  refine ⟨fun _ => label, by simpa using h, fun chosen' hsame => ?_⟩
  exact hsame s (mem_singleton.2 rfl)

theorem append (h : Decides sites P) (h' : Decides sites' Q)
    (hnodup : ((sites ++ sites').map TableSite.id).Nodup) :
    Decides (sites ++ sites') fun chosen => P chosen ∧ Q chosen := by
  obtain ⟨chosen, hlabels, hP⟩ := h
  obtain ⟨chosen', hlabels', hQ⟩ := h'
  rw [map_append] at hnodup
  obtain ⟨both, hleft, hright⟩ : ∃ both : Nat → String,
      (∀ s ∈ sites, both s.id = chosen s.id) ∧ ∀ s ∈ sites', both s.id = chosen' s.id := by
    refine ⟨fun n => if n ∈ sites.map TableSite.id then chosen n else chosen' n,
      fun s hs => if_pos (mem_map_of_mem hs), fun s hs => if_neg fun hmem => ?_⟩
    exact disjoint_of_nodup_append hnodup hmem (mem_map_of_mem hs)
  refine ⟨both, ?_, fun chosen'' hsame => ⟨hP _ fun s hs => ?_, hQ _ fun s hs => ?_⟩⟩
  · intro s hs
    rcases mem_append.1 hs with hs | hs
    · rw [hleft s hs]
      exact hlabels s hs
    · rw [hright s hs]
      exact hlabels' s hs
  · rw [hsame s (mem_append_left _ hs), hleft s hs]
  · rw [hsame s (mem_append_right _ hs), hright s hs]

end Decides

/-! ### Plans -/

section Plans

theorem Rvalue.Fits.holds {e : Rvalue} (h : e.Fits defined ty) (he : e.Holds (.free select) σ) :
    e.Holds (.free select') σ :=
  (h.value_congr fun _ _ => rfl).symm.trans he

theorem Rvalue.Fits.fails {e : Rvalue} (h : e.Fits defined ty) (he : e.Fails (.free select) σ) :
    e.Fails (.free select') σ :=
  (h.value_congr fun _ _ => rfl).symm.trans he

theorem Op.Fits.step {op : Op} (h : op.Fits known defined) (hstep : op.Step (.free select) σ τ) :
    op.Step (.free select') σ τ := by
  cases hstep with
  | assign he hτ =>
    obtain ⟨-, -, ty, -, hfits⟩ := h
    exact .assign ((hfits.value_congr fun _ _ => rfl).symm.trans he) hτ
  | havoc hd => exact .havoc hd
  | assume he => exact .assume (Rvalue.Fits.holds h he)

mutual

theorem Plan.ends_all : ∀ {a : Plan} {defined : List Variable} {σ : State} {r : State ⊕ Nat},
    a.Fits known defined → a.Ends (.free select) σ r → a.Ends (.free all) σ r
  | .skip, _, _, _, _, h => Plan.ends_skip.2 (Plan.ends_skip.1 h)
  | .op o, _, _, _, hfits, h => by
    obtain ⟨τ, hstep, hr⟩ := Plan.ends_op.1 h
    exact Plan.ends_op.2 ⟨τ, Op.Fits.step hfits hstep, hr⟩
  | .seq a b, _, _, _, hfits, h => by
    refine Plan.ends_seq.2 ((Plan.ends_seq.1 h).imp ?_ ?_)
    · rintro ⟨ρ, ha, hb⟩
      exact ⟨ρ, Plan.ends_all (r := .inl ρ) hfits.1 ha, Plan.ends_all hfits.2 hb⟩
    · rintro ⟨i, ha, hr⟩
      exact ⟨i, Plan.ends_all (r := .inr i) hfits.1 ha, hr⟩
  | .ifThen e yes, _, _, _, hfits, h =>
    Plan.ends_ifThen.2 ((Plan.ends_ifThen.1 h).imp
      (fun ⟨he, h⟩ => ⟨hfits.1.holds he, Plan.ends_all hfits.2 h⟩)
      fun ⟨he, hr⟩ => ⟨hfits.1.fails he, hr⟩)
  | .ifElse e yes no, _, _, _, hfits, h =>
    Plan.ends_ifElse.2 ((Plan.ends_ifElse.1 h).imp
      (fun ⟨he, h⟩ => ⟨hfits.1.holds he, Plan.ends_all hfits.2.1 h⟩)
      fun ⟨he, h⟩ => ⟨hfits.1.fails he, Plan.ends_all hfits.2.2 h⟩)
  | .choose _ _ arms, _, _, _, hfits, h =>
    Plan.ends_choose.2 (Arms.ends_all hfits (Plan.ends_choose.1 h))
  | .bug t, _, _, _, _, h => Plan.ends_bug.2 (Plan.ends_bug.1 h)
  | .assert t e, _, _, _, hfits, h =>
    Plan.ends_assert.2 ((Plan.ends_assert.1 h).imp (And.imp_left hfits.2.holds)
      (And.imp_left hfits.2.fails))

theorem Arms.ends_all : ∀ {arms : Arms} {defined : List Variable} {site : Nat} {σ : State}
    {r : State ⊕ Nat}, arms.Fits known defined → arms.Ends (.free select) site σ r →
    arms.Ends (.free all) site σ r
  | .nil, _, _, _, _, _, h => absurd h Arms.not_ends_nil
  | .cons _ _ _ _, _, _, _, _, hfits, h =>
    Arms.ends_cons.2 ((Arms.ends_cons.1 h).imp (fun ⟨_, h⟩ => ⟨rfl, Plan.ends_all hfits.1 h⟩)
      (Arms.ends_all hfits.2))

end

mutual

/-- An execution that may make any choice makes one choice at each site. -/
theorem Plan.ends_only : ∀ {a : Plan} {defined : List Variable} {σ : State} {r : State ⊕ Nat},
    a.Fits known defined → (a.sites.map TableSite.id).Nodup →
    (∀ s ∈ a.sites, TableSite.miss ∈ s.labels) → a.Ends (.free all) σ r →
    Decides a.sites fun chosen => a.Ends (.free (only chosen)) σ r
  | .skip, _, _, _, _, _, hmiss, h =>
    .of_forall hmiss fun _ => Plan.ends_skip.2 (Plan.ends_skip.1 h)
  | .op o, _, _, _, hfits, _, hmiss, h => by
    refine .of_forall hmiss fun _ => ?_
    obtain ⟨τ, hstep, hr⟩ := Plan.ends_op.1 h
    exact Plan.ends_op.2 ⟨τ, Op.Fits.step hfits hstep, hr⟩
  | .seq a b, _, _, _, hfits, hnodup, hmiss, h => by
    rw [Plan.sites] at hnodup hmiss ⊢
    obtain ⟨hmiss₁, hmiss₂⟩ := forall_mem_append.1 hmiss
    have hparts := map_append ▸ hnodup
    rcases Plan.ends_seq.1 h with ⟨ρ, ha, hb⟩ | ⟨i, ha, rfl⟩
    · have ha' := Plan.ends_only (r := .inl ρ) hfits.1 hparts.of_append_left hmiss₁ ha
      have hb' := Plan.ends_only hfits.2 hparts.of_append_right hmiss₂ hb
      refine (ha'.append hb' hnodup).imp ?_
      rintro chosen ⟨ha, hb⟩
      exact Plan.ends_seq.2 (.inl ⟨ρ, ha, hb⟩)
    · have ha' := Plan.ends_only (r := .inr i) hfits.1 hparts.of_append_left hmiss₁ ha
      refine (ha'.append (.of_forall hmiss₂ fun _ => trivial) hnodup).imp ?_
      rintro chosen ⟨ha, -⟩
      exact Plan.ends_seq.2 (.inr ⟨i, ha, rfl⟩)
  | .ifThen e yes, _, _, _, hfits, hnodup, hmiss, h => by
    rw [Plan.sites] at hnodup hmiss ⊢
    rcases Plan.ends_ifThen.1 h with ⟨he, h⟩ | ⟨he, rfl⟩
    · refine (Plan.ends_only hfits.2 hnodup hmiss h).imp fun chosen h => ?_
      exact Plan.ends_ifThen.2 (.inl ⟨hfits.1.holds he, h⟩)
    · refine .of_forall hmiss fun chosen => ?_
      exact Plan.ends_ifThen.2 (.inr ⟨hfits.1.fails he, rfl⟩)
  | .ifElse e yes no, _, _, _, hfits, hnodup, hmiss, h => by
    rw [Plan.sites] at hnodup hmiss ⊢
    obtain ⟨hmiss₁, hmiss₂⟩ := forall_mem_append.1 hmiss
    have hparts := map_append ▸ hnodup
    rcases Plan.ends_ifElse.1 h with ⟨he, h⟩ | ⟨he, h⟩
    · have hyes := Plan.ends_only hfits.2.1 hparts.of_append_left hmiss₁ h
      refine (hyes.append (.of_forall hmiss₂ fun _ => trivial) hnodup).imp ?_
      rintro chosen ⟨h, -⟩
      exact Plan.ends_ifElse.2 (.inl ⟨hfits.1.holds he, h⟩)
    · have hno := Plan.ends_only hfits.2.2 hparts.of_append_right hmiss₂ h
      refine (Decides.append (.of_forall hmiss₁ fun _ => trivial) hno hnodup).imp ?_
      rintro chosen ⟨-, h⟩
      exact Plan.ends_ifElse.2 (.inr ⟨hfits.1.fails he, h⟩)
  | .choose _ site arms, _, _, _, hfits, hnodup, hmiss, h => by
    rw [Plan.sites] at hnodup hmiss ⊢
    obtain ⟨-, hmiss⟩ := forall_mem_cons.1 hmiss
    obtain ⟨label, hlabel, harms⟩ := Arms.ends_only hfits (nodup_cons.1 hnodup).2 hmiss
      (Plan.ends_choose.1 h)
    have hsite := Decides.single (s := { site with labels := arms.labels }) hlabel
    refine (hsite.append harms hnodup).imp ?_
    rintro chosen ⟨hchosen, h⟩
    exact Plan.ends_choose.2 (h hchosen)
  | .bug t, _, _, _, _, _, hmiss, h =>
    .of_forall hmiss fun _ => Plan.ends_bug.2 (Plan.ends_bug.1 h)
  | .assert t e, _, _, _, hfits, _, hmiss, h =>
    .of_forall hmiss fun _ => Plan.ends_assert.2 ((Plan.ends_assert.1 h).imp
      (And.imp_left hfits.2.holds) (And.imp_left hfits.2.fails))

theorem Arms.ends_only : ∀ {arms : Arms} {defined : List Variable} {site : Nat} {σ : State}
    {r : State ⊕ Nat}, arms.Fits known defined → (arms.sites.map TableSite.id).Nodup →
    (∀ s ∈ arms.sites, TableSite.miss ∈ s.labels) → arms.Ends (.free all) site σ r →
    ∃ label ∈ arms.labels, Decides arms.sites fun chosen => chosen site = label →
      arms.Ends (.free (only chosen)) site σ r
  | .nil, _, _, _, _, _, _, _, h => absurd h Arms.not_ends_nil
  | .cons label kind body rest, _, site, _, _, hfits, hnodup, hmiss, h => by
    rw [Arms.sites] at hnodup hmiss ⊢
    rw [Arms.labels]
    obtain ⟨hmiss₁, hmiss₂⟩ := forall_mem_append.1 hmiss
    have hparts := map_append ▸ hnodup
    rcases Arms.ends_cons.1 h with ⟨-, h⟩ | h
    · have hbody := Plan.ends_only hfits.1 hparts.of_append_left hmiss₁ h
      refine ⟨label, mem_cons_self,
        (hbody.append (.of_forall hmiss₂ fun _ => trivial) hnodup).imp ?_⟩
      rintro chosen ⟨h, -⟩ hchosen
      exact Arms.ends_cons.2 (.inl ⟨decide_eq_true hchosen.symm, h⟩)
    · obtain ⟨label', hlabel, hrest⟩ := Arms.ends_only hfits.2 hparts.of_append_right hmiss₂ h
      refine ⟨label', mem_cons_of_mem _ hlabel,
        (Decides.append (.of_forall hmiss₁ fun _ => trivial) hrest hnodup).imp ?_⟩
      rintro chosen ⟨-, h⟩ hchosen
      exact Arms.ends_cons.2 (.inr (h hchosen))

end

end Plans

/-! ### The graph of a control -/

namespace FlowGraph.Built

variable {g : FlowGraph} (b : Built globals calls d g)

include b in
theorem getLast?_labels : ∀ s ∈ g.sites, s.labels.getLast? = some TableSite.miss := by
  rw [b.sites_eq]
  exact b.layout_counted.miss

/-- The sites of the plan come first, and sites have different numbers. -/
theorem exists_sites : ∃ rest, g.sites = b.plan.sites ++ rest ∧
    (g.sites.map TableSite.id).Nodup := by
  obtain ⟨rest, hrest⟩ := b.detaches.sites b.main_counted
  refine ⟨rest, ?_, ?_⟩
  · rw [b.sites_eq, ← hrest]
    exact congrArg (· ++ rest) b.sites_main
  · rw [b.sites_eq, b.layout_counted.site]
    exact nodup_range

theorem stops_iff (hglobals : globals.Fits structs []) (ht : t ∈ g.targets) :
    b.plan.Stops (.free all) State.empty t.index ↔
      ∃ select σ, g.Ends (.free select) t.block σ := by
  obtain ⟨known, -, hfits⟩ := b.elaborates.fits hglobals
  constructor
  · intro h
    have hplan := Plan.ends_only (r := .inr t.index) hfits b.elaborates.numbered.site.nodup
      (fun s hs => mem_of_getLast? (b.elaborates.numbered.miss s hs)) h
    obtain ⟨rest, hsites, hnodup⟩ := b.exists_sites
    have hmiss : ∀ s ∈ g.sites, TableSite.miss ∈ s.labels :=
      fun s hs => mem_of_getLast? (b.getLast?_labels s hs)
    rw [hsites] at hnodup hmiss
    have hrest : Decides rest fun _ => True :=
      .of_forall (forall_mem_append.1 hmiss).2 fun _ => trivial
    obtain ⟨chosen, hlabels, hstops⟩ := hplan.append hrest hnodup
    rw [← hsites] at hlabels hstops
    obtain ⟨σ, hends⟩ := b.ends_of_stops (o := .free (only chosen))
      (fun s hs => TableSite.decided_only (hlabels s hs)) ht (hstops chosen fun _ _ => rfl).1
    exact ⟨_, σ, hends⟩
  · rintro ⟨select, σ, h⟩
    exact Plan.ends_all (r := .inr t.index) hfits (b.stops_of_ends ht h)

end FlowGraph.Built

end ControlReach
