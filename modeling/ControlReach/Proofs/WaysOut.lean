import ControlReach.Proofs.Execution
import ControlReach.Proofs.LaidPlans

/-!
# The ways out of a block

A plan leaves all its blocks but the one in which it ends: by one open edge, by a condition and its
negation, or by the labels of a table site; or it is the block of an error location.
-/

namespace ControlReach

open List Layout Relation

/-- The edges that leave a block. What is asked of a table site is left open. -/
inductive WaysOut (P : TableSite → Prop) : List Edge → Prop
  | through {e : Edge} : e.guard = none → WaysOut P [e]
  | holds {e e' : Edge} {r : Rvalue} : e.guard = some r → e'.guard = some (.not r) →
      WaysOut P [e, e']
  | fails {e e' : Edge} {r : Rvalue} : e.guard = some (.not r) → e'.guard = some r →
      WaysOut P [e, e']
  | choice {s : TableSite} {edges : List Edge} : P s →
      edges.map Edge.guard = s.labels.map (fun label => some (s.guard label)) → WaysOut P edges

namespace WaysOut

variable {P : TableSite → Prop} {edges : List Edge}

theorem imp (hPQ : ∀ s, P s → Q s) (h : WaysOut P edges) : WaysOut Q edges := by
  cases h with
  | through he => exact .through he
  | holds he he' => exact .holds he he'
  | fails he he' => exact .fails he he'
  | choice hs hedges => exact .choice (hPQ _ hs) hedges

theorem ne_nil (hlabels : ∀ s, P s → s.labels ≠ []) (h : WaysOut P edges) : edges ≠ [] := by
  rintro rfl
  cases h with
  | choice hs hedges => exact hlabels _ hs (map_eq_nil_iff.1 hedges.symm)

section Open

variable {r : Rvalue}

theorem open_of_guard {e : Edge} (he : e.guard = some r) :
    e.Open select σ ↔ r.value select σ = some (.bool true) := by
  simp [Edge.Open, he]

theorem value_not (h : r.value select σ = some (.bool b)) :
    (Rvalue.not r).value select σ = some (.bool !b) := by
  rw [Rvalue.value, h]
  rfl

theorem existsUnique_pair {e e' : Edge} (he : e.guard = some r) (he' : e'.guard = some r')
    (hr : r.value select σ = some (.bool b)) (hr' : r'.value select σ = some (.bool !b)) :
    ∃! i : Fin [e, e'].length, ([e, e'].get i).Open select σ := by
  have hopen : e.Open select σ ↔ b = true := by simp [open_of_guard he, hr]
  have hopen' : e'.Open select σ ↔ b = false := by simp [open_of_guard he', hr']
  cases b with
  | true =>
    refine ⟨⟨0, Nat.zero_lt_two⟩, hopen.2 rfl, fun i hi => ?_⟩
    match i with
    | ⟨0, _⟩ => rfl
    | ⟨1, _⟩ => exact absurd (hopen'.1 hi) Bool.noConfusion
  | false =>
    refine ⟨⟨1, Nat.one_lt_two⟩, hopen'.2 rfl, fun i hi => ?_⟩
    match i with
    | ⟨0, _⟩ => exact absurd (hopen.1 hi) Bool.noConfusion
    | ⟨1, _⟩ => rfl

theorem existsUnique_choice {s : TableSite} (hnodup : s.labels.Nodup) (hdecided : s.Decided select)
    (hedges : edges.map Edge.guard = s.labels.map fun label => some (s.guard label)) :
    ∃! i : Fin edges.length, (edges.get i).Open select σ := by
  have hlength : edges.length = s.labels.length := by simpa using congrArg List.length hedges
  have hopen : ∀ i : Fin edges.length, (edges.get i).Open select σ ↔
      select s.id (s.labels.get (i.cast hlength)) = true := by
    intro i
    have hi : i.val < s.labels.length := hlength ▸ i.isLt
    have hguard : (edges.get i).guard = some (s.guard (s.labels.get (i.cast hlength))) := by
      have hat := congrArg (·[i.val]?) hedges
      simpa [getElem?_eq_getElem hi] using hat
    rw [open_of_guard hguard, TableSite.guard, Rvalue.value, Option.some.injEq, Datum.bool.injEq]
  obtain ⟨label, ⟨hmem, hselect⟩, hunique⟩ := hdecided
  obtain ⟨k, rfl⟩ := get_of_mem hmem
  refine ⟨k.cast hlength.symm, (hopen _).2 hselect, fun i hi => ?_⟩
  have hlabel := hunique _ ⟨get_mem _ _, (hopen i).1 hi⟩
  have hindex : i.cast hlength = k := hnodup.injective_get hlabel
  rw [← hindex]
  rfl

/-- In every state exactly one of the edges that leave a block is open. -/
theorem existsUnique_open (h : WaysOut P edges) (hs : ∀ s, P s → s.labels.Nodup ∧ s.Decided select)
    (hvalue : ∀ e ∈ edges, ∀ r, e.guard = some r → ∃ b, r.value select σ = some (.bool b)) :
    ∃! i : Fin edges.length, (edges.get i).Open select σ := by
  cases h with
  | @through e he =>
    refine ⟨⟨0, Nat.zero_lt_one⟩, fun r hr => ?_, fun i _ => ?_⟩
    · exact nomatch he.symm.trans hr
    · match i with
      | ⟨0, _⟩ => rfl
  | @holds e e' r he he' =>
    obtain ⟨b, hb⟩ := hvalue e mem_cons_self r he
    exact existsUnique_pair he he' hb (value_not hb)
  | @fails e e' r he he' =>
    obtain ⟨b, hb⟩ := hvalue e' (mem_cons_of_mem _ mem_cons_self) r he'
    refine existsUnique_pair he he' (value_not hb) ?_
    rwa [Bool.not_not]
  | choice hP hedges => exact existsUnique_choice (hs _ hP).1 (hs _ hP).2 hedges

end Open

end WaysOut

/-! ### The blocks of a plan -/

/-- The guard of an edge: a condition, its negation, or the choice of a label. -/
def GuardAt (conditions : List Rvalue) (applied : List (TableSite × Nat)) (i : Nat) (r : Rvalue) :
    Prop :=
  (∃ e ∈ conditions, r = e ∨ r = .not e) ∨
    ∃ s, (s, i) ∈ applied ∧ ∃ label ∈ s.labels, r = s.guard label

theorem GuardAt.mono (h : GuardAt conditions applied i r) (hc : conditions ⊆ conditions')
    (ha : applied ⊆ applied') : GuardAt conditions' applied' i r := by
  rcases h with ⟨e, he, h⟩ | ⟨s, hs, h⟩
  · exact .inl ⟨e, hc he, h⟩
  · exact .inr ⟨s, ha hs, h⟩

namespace Layout

/-- Nothing more comes in the block: it is that of an error location, or it is left. -/
def Finished (l : Layout) (conditions : List Rvalue) (applied : List (TableSite × Nat)) (k : Nat) :
    Prop :=
  (∃ t, l.EndsAt t k) ∨ (l.target? k = none ∧ ∃ c, l.code k = some c ∧
    WaysOut (· ∈ applied.map Prod.fst) c.2 ∧
    ∀ e ∈ c.2, ∀ r, e.guard = some r → GuardAt conditions applied k r)

/-- The spot is in a block that is not that of an error location. -/
def Has (l : Layout) (p : Spot) : Prop :=
  (∃ before, l.code p.block = some (before ++ p.ops, p.edges)) ∧ l.target? p.block = none

/-- The block is that of a spot, or edges lead to it from there. -/
def Sees (l : Layout) (p : Spot) (k : Nat) : Prop :=
  k = p.block ∨ ∃ e ∈ p.edges, ∃ j : Nat, e.target = (j : Int) ∧ ReflTransGen l.Leads j k

variable {l : Layout}

theorem Finished.mono (h : l.Finished conditions applied k) (hc : conditions ⊆ conditions')
    (ha : applied ⊆ applied') : l.Finished conditions' applied' k := by
  refine h.imp_right ?_
  rintro ⟨htarget, c, hcode, hout, hguard⟩
  refine ⟨htarget, c, hcode, hout.imp fun s hs => map_subset _ ha hs, fun e he r hr => ?_⟩
  exact (hguard e he r hr).mono hc ha

theorem Enters.has (h : l.Enters p) : l.Has p := ⟨⟨[], h.1⟩, h.2⟩

theorem Enters.sees (h : l.Enters p) (hk : ReflTransGen l.Leads p.block k) : l.Sees p k := by
  rcases hk.cases_head with rfl | ⟨j, ⟨c, hc, e, he, hj⟩, hk⟩
  · exact .inl rfl
  · cases h.1.symm.trans hc
    exact .inr ⟨e, he, j, hj, hk⟩

end Layout

theorem Arms.branches : ∀ {arms : Arms} {ws : List Way}, arms.Ways site ws →
    (arms.sites = ws.flatMap fun w => w.goal.plan.sites) ∧
      (∀ w ∈ ws, w.goal.plan.conditions ⊆ arms.conditions) ∧
      ws.map Way.guard = arms.labels.map fun label => some (site.guard label)
  | .nil, _, h => by simp [show _ = [] from h, Arms.sites, Arms.labels]
  | .cons label kind body rest, _, ⟨p, n, ws, hrest, hws⟩ => by
    subst hws
    obtain ⟨hsites, hconditions, hguards⟩ := Arms.branches hrest
    refine ⟨congrArg (body.sites ++ ·) hsites, forall_mem_cons.2 ⟨subset_append_left _ _, ?_⟩,
      congrArg (_ :: ·) hguards⟩
    exact fun w hw => Subset.trans (hconditions w hw) (subset_append_right _ _)

namespace Plan

variable {a : Plan}

/-- A plan applies the sites `own` or decides on a condition, and goes on. -/
structure Branches (a : Plan) (own : List TableSite) (ws : List Way) : Prop where
  sites : a.sites = own ++ ws.flatMap fun w => w.goal.plan.sites
  conditions : ∀ w ∈ ws, w.goal.plan.conditions ⊆ a.conditions
  waysOut : ∀ join, WaysOut (· ∈ own) (ws.map (Way.edge join))
  guard : ∀ w ∈ ws, ∀ r, w.guard = some r → (∃ e ∈ a.conditions, r = e ∨ r = .not e) ∨
    ∃ s ∈ own, ∃ label ∈ s.labels, r = s.guard label

theorem Ways.branches (h : a.Ways ws) : ∃ own, a.Branches own ws := by
  cases a with
  | skip | op | seq => exact h.elim
  | choose name site arms =>
    obtain ⟨hsites, hconditions, hguards⟩ := Arms.branches (show arms.Ways site ws from h)
    refine ⟨[{ site with labels := arms.labels }], congrArg (_ :: ·) hsites, hconditions,
      fun join => .choice mem_cons_self (map_map.trans hguards), fun w hw r hr => .inr ?_⟩
    obtain ⟨label, hlabel, heq⟩ := mem_map.1 (hguards ▸ mem_map_of_mem hw)
    exact ⟨_, mem_cons_self, label, hlabel, Option.some.inj (hr.symm.trans heq.symm)⟩
  | ifThen e yes =>
    obtain ⟨p, n, rfl⟩ := h
    exact ⟨[], by simp [sites, Goal.plan], by simp [conditions, Goal.plan], fun _ => .holds rfl rfl,
      by simp [conditions]⟩
  | ifElse e yes no =>
    obtain ⟨p, n, p', n', rfl⟩ := h
    exact ⟨[], by simp [sites, Goal.plan], by simp [conditions, Goal.plan], fun _ => .holds rfl rfl,
      by simp [conditions]⟩
  | bug t =>
    obtain ⟨n, rfl⟩ := h
    exact ⟨[], by simp [sites, Goal.plan], by simp [conditions, Goal.plan], fun _ => .through rfl,
      by simp⟩
  | assert t e =>
    obtain ⟨n, rfl⟩ := h
    exact ⟨[], by simp [sites, Goal.plan], by simp [conditions, Goal.plan], fun _ => .fails rfl rfl,
      by simp [conditions]⟩

namespace Laid

theorem has (h : a.Laid l p q) (hp : l.Has p) : l.Has q := by
  induction h with
  | skip => exact hp
  | op i o ops edges =>
    obtain ⟨⟨before, hcode⟩, htarget⟩ := hp
    exact ⟨⟨before ++ [o], by simpa using hcode⟩, htarget⟩
  | seq _ _ iha ihb => exact ihb (iha hp)
  | fork _ _ hq => exact hq.has

/-- A block in the reach of a plan is finished, or is in the reach of its end. -/
theorem finished_or_sees (h : a.Laid l p q) (hp : l.Has p) : ∃ applied : List (TableSite × Nat),
    applied.map Prod.fst = a.sites ∧
      ∀ k, l.Sees p k → l.Finished a.conditions applied k ∨ l.Sees q k := by
  induction h with
  | skip => exact ⟨[], rfl, fun _ hk => .inr hk⟩
  | op => exact ⟨[], rfl, fun _ hk => .inr hk⟩
  | seq ha _ iha ihb =>
    obtain ⟨applied, heq, hfirst⟩ := iha hp
    obtain ⟨applied', heq', hsecond⟩ := ihb (ha.has hp)
    refine ⟨applied ++ applied', by rw [map_append, heq, heq', Plan.sites], fun k hk => ?_⟩
    rcases hfirst k hk with hdone | hk
    · exact .inl (hdone.mono (subset_append_left _ _) (subset_append_left _ _))
    · exact (hsecond k hk).imp_left (·.mono (subset_append_right _ _) (subset_append_right _ _))
  | @fork a ws i q hways hq hgoals hlaid ih =>
    obtain ⟨own, hown⟩ := hways.branches
    have hway : ∀ w ∈ ws, ∃ applied : List (TableSite × Nat),
        applied.map Prod.fst = w.goal.plan.sites ∧
          ∀ k, ReflTransGen l.Leads (w.goal.block q.block) k →
            l.Finished w.goal.plan.conditions applied k ∨ l.Sees q k := by
      intro w hw
      have hgoal := hgoals w hw
      cases hg : w.goal with
      | stop t n =>
        rw [hg] at hgoal
        refine ⟨[], rfl, fun k hk => .inl (.inl ?_)⟩
        -- No edge leaves the block of an error location.
        rcases hk.cases_head with rfl | ⟨j, ⟨c, hc, e, he, -⟩, -⟩
        · exact ⟨t, hgoal⟩
        · cases hgoal.1.symm.trans hc
          cases he
      | join => exact ⟨[], rfl, fun k hk => .inr (hq.sees hk)⟩
      | body b p n =>
        rw [hg] at hgoal
        obtain ⟨⟨before, hcode⟩, htarget⟩ := (hlaid w hw b p n hg).has hgoal.has
        obtain ⟨applied, heq, hbody⟩ := ih w hw b p n hg hgoal.has
        refine ⟨applied, heq, fun k hk => ?_⟩
        rcases hbody k (hgoal.sees hk) with hdone | rfl | ⟨e, he, j, hj, hk⟩
        · exact .inl hdone
        · exact .inl (.inr ⟨htarget, _, hcode, .through rfl, by simp [Spot.last]⟩)
        · obtain rfl := mem_singleton.1 he
          obtain rfl : q.block = j := Int.ofNat.inj hj
          exact .inr (hq.sees hk)
    choose! applied heq hrest using hway
    refine ⟨own.map (·, i) ++ ws.flatMap applied, ?_, ?_⟩
    · rw [hown.sites, map_append, List.map_map, map_flatMap, flatMap_congr heq]
      exact congrArg (· ++ _) (map_id own)
    rintro k (rfl | ⟨e, he, j, hj, hk⟩)
    · obtain ⟨⟨before, hcode⟩, htarget⟩ := hp
      refine .inl (.inr ⟨htarget, _, hcode, (hown.waysOut q.block).imp fun s hs => ?_, ?_⟩)
      · exact mem_map.2 ⟨_, mem_append_left _ (mem_map_of_mem hs), rfl⟩
      · refine forall_mem_map.2 fun w hw r hr => (hown.guard w hw r hr).imp_right ?_
        rintro ⟨s, hs, hlabel⟩
        exact ⟨s, mem_append_left _ (mem_map_of_mem hs), hlabel⟩
    · obtain ⟨w, hw, rfl⟩ := mem_map.1 he
      obtain rfl : w.goal.block q.block = j := Int.ofNat.inj hj
      refine (hrest w hw k hk).imp_left (·.mono (hown.conditions w hw) ?_)
      exact fun s hs => mem_append_right _ (mem_flatMap.2 ⟨w, hw, hs⟩)

end Laid

end Plan

end ControlReach
