import ControlReach.Proofs.Execution
import ControlReach.Proofs.LaidPlans

/-!
# Executions of plans and of their layouts

A plan is executed part by part, its layout block by block. The layout leads an execution on to the
end of the plan, or to the block of an error location if the plan stops there.
-/

namespace ControlReach

open List Layout

/-! ### Executions of plans -/

def Rvalue.Holds (o : Oracle) (σ : State) (e : Rvalue) : Prop :=
  e.value o.select σ = some (.bool true)

def Rvalue.Fails (o : Oracle) (σ : State) (e : Rvalue) : Prop :=
  e.value o.select σ = some (.bool false)

theorem Rvalue.holds_not : (Rvalue.not e).Holds o σ ↔ e.Fails o σ := by
  unfold Holds Fails
  rw [value]
  cases h : e.value o.select σ with
  | none => simp
  | some d => cases d <;> simp [Datum.bool?]

mutual

/-- A plan can be executed to its end, from one state to another. -/
def Plan.Finishes (o : Oracle) : Plan → State → State → Prop
  | .skip, σ, τ => τ = σ
  | .op op, σ, τ => op.Step o σ τ
  | .seq a b, σ, τ => ∃ ρ, a.Finishes o σ ρ ∧ b.Finishes o ρ τ
  | .ifThen e yes, σ, τ => (e.Holds o σ ∧ yes.Finishes o σ τ) ∨ (e.Fails o σ ∧ τ = σ)
  | .ifElse e yes no, σ, τ =>
    (e.Holds o σ ∧ yes.Finishes o σ τ) ∨ (e.Fails o σ ∧ no.Finishes o σ τ)
  | .choose _ site arms, σ, τ => arms.Finishes o site.id σ τ
  | .bug _, _, _ => False
  | .assert _ e, σ, τ => e.Holds o σ ∧ τ = σ

/-- One of the choices that are selected at a site can be executed to its end. -/
def Arms.Finishes (o : Oracle) (site : Nat) : Arms → State → State → Prop
  | .nil, _, _ => False
  | .cons label _ body rest, σ, τ =>
    (o.select site label = true ∧ body.Finishes o σ τ) ∨ rest.Finishes o site σ τ

end

mutual

/-- A plan can be executed up to the error location of a number. -/
def Plan.Stops (o : Oracle) : Plan → State → Nat → Prop
  | .skip, _, _ => False
  | .op _, _, _ => False
  | .seq a b, σ, i => a.Stops o σ i ∨ ∃ ρ, a.Finishes o σ ρ ∧ b.Stops o ρ i
  | .ifThen e yes, σ, i => e.Holds o σ ∧ yes.Stops o σ i
  | .ifElse e yes no, σ, i => (e.Holds o σ ∧ yes.Stops o σ i) ∨ (e.Fails o σ ∧ no.Stops o σ i)
  | .choose _ site arms, σ, i => arms.Stops o site.id σ i
  | .bug t, _, i => i = t.index
  | .assert t e, σ, i => e.Fails o σ ∧ i = t.index

/-- One of the choices that are selected at a site can be executed up to an error location. -/
def Arms.Stops (o : Oracle) (site : Nat) : Arms → State → Nat → Prop
  | .nil, _, _ => False
  | .cons label _ body rest, σ, i =>
    (o.select site label = true ∧ body.Stops o σ i) ∨ rest.Stops o site σ i

end

mutual

theorem Plan.mem_of_stops : ∀ (a : Plan) {σ : State}, a.Stops o σ i → i ∈ a.targets.map Target.index
  | .skip, _, h | .op _, _, h => h.elim
  | .seq a b, σ, h => by
    rw [Plan.targets, map_append, mem_append]
    rcases h with h | ⟨ρ, -, h⟩
    · exact .inl (a.mem_of_stops h)
    · exact .inr (b.mem_of_stops h)
  | .ifThen _ yes, σ, h => yes.mem_of_stops h.2
  | .ifElse _ yes no, σ, h => by
    rw [Plan.targets, map_append, mem_append]
    exact h.imp (fun h => yes.mem_of_stops h.2) fun h => no.mem_of_stops h.2
  | .choose _ _ arms, σ, h => arms.mem_of_stops h
  | .bug t, _, h => mem_singleton.2 h
  | .assert t _, _, h => mem_singleton.2 h.2

theorem Arms.mem_of_stops :
    ∀ (arms : Arms) {σ : State}, arms.Stops o site σ i → i ∈ arms.targets.map Target.index
  | .nil, _, h => h.elim
  | .cons _ _ body rest, σ, h => by
    rw [Arms.targets, map_append, mem_append]
    exact h.imp (fun h => body.mem_of_stops h.2) rest.mem_of_stops

end

variable {a : Plan}

section Ways

variable {o : Oracle} {σ : State} (join : Nat)

theorem Way.open_iff {w : Way} :
    (w.edge join).Open o.select σ ↔ ∀ r, w.guard = some r → r.Holds o σ := Iff.rfl

theorem Arms.exists_way {site : TableSite} {P : Plan → Prop} {Q : Arms → Prop} (hnil : ¬ Q .nil)
    (hcons : ∀ label kind body rest, Q (.cons label kind body rest) ↔
      o.select site.id label = true ∧ P body ∨ Q rest) :
    ∀ {arms} {ws}, arms.Ways site ws →
      (Q arms ↔ ∃ w ∈ ws, (w.edge join).Open o.select σ ∧ P w.goal.plan)
  | .nil, _, h => by simp [hnil, show _ = [] from h]
  | .cons label kind body rest, _, ⟨p, n, ws, hrest, hws⟩ => by
    subst hws
    have hguard : (site.guard label).Holds o σ ↔ o.select site.id label = true := by
      simp [Rvalue.Holds, TableSite.guard, Rvalue.value]
    simp only [hcons, Arms.exists_way hnil hcons hrest, mem_cons, exists_eq_or_imp, Way.open_iff,
      Option.some.injEq, forall_eq', hguard, Goal.plan]

/-- A branch is executed along one of its open ways. -/
theorem Plan.ways_iff (h : a.Ways ws) :
    (∀ τ, a.Finishes o σ τ ↔
      ∃ w ∈ ws, (w.edge join).Open o.select σ ∧ w.goal.plan.Finishes o σ τ) ∧
    ∀ i, a.Stops o σ i ↔ ∃ w ∈ ws, (w.edge join).Open o.select σ ∧ w.goal.plan.Stops o σ i := by
  cases a with
  | skip | op | seq => exact h.elim
  | choose _ site arms =>
    exact ⟨fun τ => Arms.exists_way join (Q := fun arms => arms.Finishes o site.id σ τ) id
      (fun _ _ _ _ => .rfl) h, fun i => Arms.exists_way join
      (Q := fun arms => arms.Stops o site.id σ i) id (fun _ _ _ _ => .rfl) h⟩
  | ifThen e yes =>
    obtain ⟨p, n, rfl⟩ := h
    simp [Plan.Finishes, Plan.Stops, Way.open_iff, Rvalue.holds_not, Goal.plan]
  | ifElse e yes no =>
    obtain ⟨p, n, p', n', rfl⟩ := h
    simp [Plan.Finishes, Plan.Stops, Way.open_iff, Rvalue.holds_not, Goal.plan]
  | bug t | assert t e =>
    obtain ⟨n, rfl⟩ := h
    simp [Plan.Finishes, Plan.Stops, Way.open_iff, Rvalue.holds_not, Goal.plan]

end Ways

/-! ### Executions of layouts -/

namespace Layout

/-- An execution from the start of a block to an error location. -/
inductive Comes (l : Layout) (o : Oracle) (t : Target) : Nat → State → Prop
  | here {i σ} : l.target? i = some t → Comes l o t i σ
  | move {i c σ τ e} {j : Nat} : l.code i = some c → Op.Steps o c.1 σ τ → e ∈ c.2 →
      e.Open o.select τ → e.target = (j : Int) → Comes l o t j τ → Comes l o t i σ

/-- An execution from a spot to an error location in a later block. -/
def ComesFrom (l : Layout) (o : Oracle) (t : Target) (p : Spot) (σ : State) : Prop :=
  ∃ τ, Op.Steps o p.ops σ τ ∧ ∃ e ∈ p.edges, e.Open o.select τ ∧
    ∃ j : Nat, e.target = (j : Int) ∧ l.Comes o t j τ

variable {l : Layout}

theorem comes_iff (h : l.Enters p) : l.Comes o t p.block σ ↔ l.ComesFrom o t p σ := by
  constructor
  · intro hcomes
    cases hcomes with
    | here ht => cases h.2.symm.trans ht
    | move hc hsteps he hopen hj hrest =>
      cases h.1.symm.trans hc
      exact ⟨_, hsteps, _, he, hopen, _, hj, hrest⟩
  · rintro ⟨τ, hsteps, e, he, hopen, j, hj, hrest⟩
    exact .move h.1 hsteps he hopen hj hrest

theorem comes_iff_of_endsAt (h : l.EndsAt t' n) : l.Comes o t n σ ↔ { t' with block := n } = t := by
  constructor
  · intro hcomes
    cases hcomes with
    | here ht => exact Option.some.inj (h.2.symm.trans ht)
    | move hc _ he =>
      cases h.1.symm.trans hc
      cases he
  · rintro rfl
    exact .here h.2

theorem comesFrom_op {i : Nat} {op : Op} {ops : List Op} {edges : List Edge} :
    l.ComesFrom o t ⟨i, op :: ops, edges⟩ σ ↔
      ∃ ρ, op.Step o σ ρ ∧ l.ComesFrom o t ⟨i, ops, edges⟩ ρ := by
  constructor
  · rintro ⟨τ, hsteps, hrest⟩
    cases hsteps with
    | cons hop hsteps => exact ⟨_, hop, τ, hsteps, hrest⟩
  · rintro ⟨ρ, hop, τ, hsteps, hrest⟩
    exact ⟨τ, .cons hop hsteps, hrest⟩

theorem comesFrom_nil : l.ComesFrom o t ⟨i, [], edges⟩ σ ↔
    ∃ e ∈ edges, e.Open o.select σ ∧ ∃ j : Nat, e.target = (j : Int) ∧ l.Comes o t j σ := by
  constructor
  · rintro ⟨τ, hsteps, hrest⟩
    cases hsteps
    exact hrest
  · exact fun h => ⟨σ, .nil, h⟩

theorem comesFrom_last (hq : l.Enters q) :
    l.ComesFrom o t (.last n q.block) σ ↔ l.ComesFrom o t q σ := by
  rw [Spot.last, comesFrom_nil, ← comes_iff hq]
  simp only [mem_cons, not_mem_nil, or_false, Edge.Open, exists_eq_left, reduceCtorEq,
    IsEmpty.forall_iff, implies_true, Int.ofNat_inj, exists_eq_left', true_and]

end Layout

/-- What comes to an error location stops the plan there, or finishes it first. -/
theorem Plan.Laid.comesFrom_iff {l : Layout} {t : Target}
    (ht : ∀ n t', l.target? n = some t' → t'.index = t.index → t' = t) (h : a.Laid l p q) : ∀ {σ},
    l.ComesFrom o t p σ ↔ a.Stops o σ t.index ∨ ∃ ρ, a.Finishes o σ ρ ∧ l.ComesFrom o t q
    ρ := by
  induction h with
  | skip p => simp [Plan.Stops, Plan.Finishes]
  | op i op ops edges =>
    intro σ
    rw [comesFrom_op]
    simp [Plan.Stops, Plan.Finishes]
  | seq _ _ iha ihb =>
    intro σ
    simp only [iha, ihb, Plan.Stops, Plan.Finishes]
    constructor
    · rintro (h | ⟨ρ, ha, h | ⟨ρ', hb, h⟩⟩)
      · exact .inl (.inl h)
      · exact .inl (.inr ⟨ρ, ha, h⟩)
      · exact .inr ⟨ρ', ⟨ρ, ha, hb⟩, h⟩
    · rintro ((h | ⟨ρ, ha, h⟩) | ⟨ρ', ⟨ρ, ha, hb⟩, h⟩)
      · exact .inl h
      · exact .inr ⟨ρ, ha, .inl h⟩
      · exact .inr ⟨ρ, ha, .inr ⟨ρ', hb, h⟩⟩
  | @fork a ws i q hways hq hgoals _ ih =>
    intro σ
    -- What comes along one way stops behind it or goes on where the branch ends.
    have hway : ∀ w ∈ ws, l.Comes o t (w.goal.block q.block) σ ↔ w.goal.plan.Stops o σ t.index ∨
        ∃ ρ, w.goal.plan.Finishes o σ ρ ∧ l.ComesFrom o t q ρ := by
      intro w hw
      have hgoal := hgoals w hw
      have ihw := ih w hw
      cases hg : w.goal with
      | stop t' n =>
        rw [hg] at hgoal
        rw [Goal.block, comes_iff_of_endsAt hgoal]
        simp only [Goal.plan, Plan.Stops, Plan.Finishes, false_and, exists_false, or_false]
        constructor
        · rintro rfl
          rfl
        · exact fun hi => ht n _ hgoal.2 hi.symm
      | join => simp [Goal.block, Goal.plan, Plan.Stops, Plan.Finishes, comes_iff hq]
      | body b p n =>
        rw [hg] at hgoal
        rw [Goal.block, comes_iff hgoal, ihw b p n hg]
        simp only [comesFrom_last hq, Goal.plan]
    rw [comesFrom_nil, (Plan.ways_iff q.block hways).2]
    simp only [(Plan.ways_iff q.block hways).1]
    constructor
    · rintro ⟨e, he, hopen, j, hj, hcomes⟩
      obtain ⟨w, hw, rfl⟩ := mem_map.1 he
      obtain rfl : w.goal.block q.block = j := Int.ofNat.inj hj
      rcases (hway w hw).1 hcomes with hstop | ⟨ρ, hfinish, hrest⟩
      · exact .inl ⟨w, hw, hopen, hstop⟩
      · exact .inr ⟨ρ, ⟨w, hw, hopen, hfinish⟩, hrest⟩
    · rintro (⟨w, hw, hopen, hstop⟩ | ⟨ρ, ⟨w, hw, hopen, hfinish⟩, hrest⟩)
      · exact ⟨_, mem_map_of_mem hw, hopen, _, rfl, (hway w hw).2 (.inl hstop)⟩
      · exact ⟨_, mem_map_of_mem hw, hopen, _, rfl, (hway w hw).2 (.inr ⟨ρ, hfinish, hrest⟩)⟩

end ControlReach
