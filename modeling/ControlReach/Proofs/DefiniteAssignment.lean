import ControlReach.Proofs.LaidPlans
import ControlReach.Proofs.PlanTyping

/-!
# Definite assignment

Whatever is read in a plan has been given a value before. So each block of a layout can be given
the fewest variables that must have values there.
-/

namespace ControlReach

open List

variable {known defined defined' other vars : List Variable} {op : Op} {r : Rvalue} {i : Nat}

/-- Operations that read only what is defined before them. -/
def Op.Sequence (known : List Variable) : List Variable → List Op → Prop
  | _, [] => True
  | defined, op :: rest => op.Fits known defined ∧ Op.Sequence known (defined ++ op.stores) rest

theorem Op.Sequence.stores_subset : ∀ {ops} {defined}, Op.Sequence known defined ops →
    ops.flatMap Op.stores ⊆ known
  | [], _, _ => nil_subset _
  | _ :: _, _, h => append_subset.2 ⟨h.1.stores_subset, h.2.stores_subset⟩

def Rvalue.Guards (defined : List Variable) (r : Rvalue) : Prop :=
  r.Fits defined .bool ∨ ∃ site label name, r = .guard site label name

section Inter

variable (hcommon : ∀ v ∈ defined, v ∈ other → v ∈ defined')

include hcommon

theorem Op.Fits.inter (h : op.Fits known defined) (h' : op.Fits known other) :
    op.Fits known defined' := by
  cases op with
  | assign v path e loc =>
    obtain ⟨hv, hpath, ty, hat, he⟩ := h
    obtain ⟨-, hpath', _, -, he'⟩ := h'
    exact ⟨hv, fun hne => hcommon v (hpath hne) (hpath' hne), ty, hat, he.inter hcommon he'⟩
  | havoc => exact h
  | assume => exact Rvalue.Fits.inter hcommon h h'

theorem Rvalue.Guards.inter (h : r.Guards defined) (h' : r.Guards other) : r.Guards defined' := by
  rcases h with h | h
  · rcases h' with h' | ⟨_, _, _, rfl⟩
    · exact .inl (h.inter hcommon h')
    · exact h.elim
  · exact .inr h

end Inter

theorem Op.Fits.weaken (hsub : defined ⊆ defined') (h : op.Fits known defined) :
    op.Fits known defined' := h.inter (fun _ hv _ => hsub hv) h

theorem Rvalue.Guards.mono (hsub : defined ⊆ defined') (h : r.Guards defined) :
    r.Guards defined' := h.inter (fun _ hv _ => hsub hv) h

/-- An edge reads only what is defined, and gives the block it leads to no more than that. -/
def Edge.Assigned (A : Nat → List Variable) (defined : List Variable) (e : Edge) : Prop :=
  (∀ r, e.guard = some r → r.Guards defined) ∧ ∀ j : Nat, e.target = (j : Int) → A j ⊆ defined

/-! ### Plans -/

theorem Arms.Fits.ways : ∀ {arms : Arms} {ws : List Way}, arms.Ways site ws →
    arms.Fits known defined → ∀ w ∈ ws,
      (∀ r, w.guard = some r → r.Guards defined) ∧ w.goal.plan.Fits known defined
  | .nil, _, h, _ => by simp [show _ = [] from h]
  | .cons label kind body rest, _, ⟨p, n, ws, hrest, hws⟩, hfits => by
    subst hws
    refine forall_mem_cons.2 ⟨⟨?_, hfits.1⟩, Arms.Fits.ways hrest hfits.2⟩
    rintro r ⟨⟩
    exact .inr ⟨_, _, _, rfl⟩

theorem Plan.Fits.ways {a : Plan} (h : a.Ways ws) (hfits : a.Fits known defined) :
    a.defines = [] ∧ ∀ w ∈ ws,
      (∀ r, w.guard = some r → r.Guards defined) ∧ w.goal.plan.Fits known defined := by
  cases a with
  | skip | op | seq => exact h.elim
  | choose => exact ⟨rfl, Arms.Fits.ways h hfits⟩
  | ifThen e yes =>
    obtain ⟨p, n, rfl⟩ := h
    obtain ⟨he, hyes⟩ := hfits
    simp [defines, Goal.plan, Rvalue.Guards, Rvalue.Fits, Plan.Fits, he, hyes]
  | ifElse e yes no =>
    obtain ⟨p, n, p', n', rfl⟩ := h
    obtain ⟨he, hyes, hno⟩ := hfits
    simp [defines, Goal.plan, Rvalue.Guards, Rvalue.Fits, he, hyes, hno]
  | bug t =>
    obtain ⟨n, rfl⟩ := h
    simpa [defines, Goal.plan] using hfits
  | assert t e =>
    obtain ⟨n, rfl⟩ := h
    obtain ⟨ht, he⟩ := hfits
    simp [defines, Goal.plan, Rvalue.Guards, Rvalue.Fits, Plan.Fits, he, ht]

namespace Layout

/-- From a spot on, only variables are read that have values, if the given ones have some. -/
inductive Safe (l : Layout) (known : List Variable) : Spot → List Variable → Prop
  | op {i : Nat} {o : Op} {ops : List Op} {edges : List Edge} {vars : List Variable} :
      o.Fits known vars → Safe l known ⟨i, ops, edges⟩ (vars ++ o.stores) →
      Safe l known ⟨i, o :: ops, edges⟩ vars
  | leave {i : Nat} {edges : List Edge} {vars : List Variable} :
      (∀ e ∈ edges, ∀ r, e.guard = some r → r.Guards vars) →
      (∀ e ∈ edges, ∀ j : Nat, e.target = (j : Int) → ∀ t, l.target? j = some t → t.Fits vars) →
      (∀ e ∈ edges, ∀ j : Nat, e.target = (j : Int) → ∀ c, l.code j = some c →
        Safe l known ⟨j, c.1, c.2⟩ vars) → Safe l known ⟨i, [], edges⟩ vars

/-- Only variables with values are read, and reported, from the start of a block on. -/
def SafeAt (l : Layout) (known : List Variable) (j : Nat) (vars : List Variable) : Prop :=
  (∀ t, l.target? j = some t → t.Fits vars) ∧ ∀ c, l.code j = some c → l.Safe known ⟨j, c.1, c.2⟩ vars

variable {l : Layout}

theorem safe_leave : l.Safe known ⟨i, [], edges⟩ vars ↔ ∀ e ∈ edges,
    (∀ r, e.guard = some r → r.Guards vars) ∧
      ∀ j : Nat, e.target = (j : Int) → l.SafeAt known j vars := by
  constructor
  · rintro ⟨⟩ e he
    rename_i hguard htarget hnext
    exact ⟨hguard e he, fun j hj => ⟨htarget e he j hj, hnext e he j hj⟩⟩
  · intro h
    exact .leave (fun e he => (h e he).1) (fun e he j hj => ((h e he).2 j hj).1)
      fun e he j hj => ((h e he).2 j hj).2

theorem Safe.ops : ∀ {ops} {vars}, l.Safe known ⟨i, ops, edges⟩ vars →
    Op.Sequence known vars ops ∧ l.Safe known ⟨i, [], edges⟩ (vars ++ ops.flatMap Op.stores)
  | [], _, h => ⟨trivial, by simpa using h⟩
  | _ :: _, _, .op hop hrest => by
    obtain ⟨hseq, hend⟩ := hrest.ops
    exact ⟨⟨hop, hseq⟩, by simpa using hend⟩

theorem Enters.safeAt (h : l.Enters p) (hp : l.Safe known p vars) :
    l.SafeAt known p.block vars := by
  refine ⟨fun t ht => ?_, fun c hc => ?_⟩
  · cases h.2.symm.trans ht
  · cases h.1.symm.trans hc
    exact hp

end Layout

/-- A plan reads only variables that have values by then, if what comes behind it does. -/
theorem Plan.Laid.safe {a : Plan} (h : a.Laid l p q) :
    ∀ {defined}, a.Fits known defined →
      (∀ vars, defined ++ a.defines ⊆ vars → l.Safe known q vars) →
      ∀ vars, defined ⊆ vars → l.Safe known p vars := by
  induction h with
  | skip => exact fun _ hq vars hsub => hq vars (append_subset.2 ⟨hsub, nil_subset _⟩)
  | op =>
    intro defined hfits hq vars hsub
    refine .op (Op.Fits.weaken hsub hfits) (hq _ (append_subset.2 ⟨?_, subset_append_right _ _⟩))
    exact Subset.trans hsub (subset_append_left _ _)
  | seq _ _ iha ihb =>
    intro defined hfits hq
    refine iha hfits.1 (ihb hfits.2 fun vars hsub => hq vars ?_)
    rwa [append_assoc] at hsub
  | @fork a ws i q hways hq hgoals _ ih =>
    intro defined hfits hnext vars hsub
    obtain ⟨hnone, hall⟩ := hfits.ways hways
    rw [hnone, append_nil] at hnext
    refine Layout.safe_leave.2 (forall_mem_map.2 fun w hw => ⟨fun r hr => ?_, fun j hj => ?_⟩)
    · exact ((hall w hw).1 r hr).mono hsub
    · obtain rfl : w.goal.block q.block = j := Int.ofNat.inj hj
      have hgoal := hgoals w hw
      have hplan := (hall w hw).2
      cases hg : w.goal with
      | stop t n =>
        rw [hg] at hgoal hplan
        refine ⟨fun t' ht' => ?_, fun c hc => ?_⟩
        · cases hgoal.2.symm.trans ht'
          exact fun x hx => hsub (hplan x hx)
        · cases hgoal.1.symm.trans hc
          exact Layout.safe_leave.2 (forall_mem_nil _)
      | join => exact hq.safeAt (hnext vars hsub)
      | body b p n =>
        rw [hg] at hgoal hplan
        refine hgoal.safeAt (ih w hw b p n hg hplan (fun vars' hsub' => ?_) vars hsub)
        refine Layout.safe_leave.2 (forall_mem_singleton.2 ⟨nofun, fun j hj => ?_⟩)
        obtain rfl : q.block = j := Int.ofNat.inj hj
        exact hq.safeAt (hnext vars' (append_subset.1 hsub').1)

/-! ### Blocks -/

namespace Layout

variable {l : Layout}

theorem Safe.inter (h : l.Safe known p vars) : ∀ {other defined},
    (∀ v ∈ vars, v ∈ other → v ∈ defined) → l.Safe known p other → l.Safe known p defined := by
  induction h with
  | op hop _ ih =>
    rintro other defined hcommon (⟨hop', hrest'⟩ | _)
    refine .op (hop.inter hcommon hop') (ih (fun v hv hv' => ?_) hrest')
    rcases mem_append.1 hv with hv | hv
    · exact mem_append.2 ((mem_append.1 hv').imp_left (hcommon v hv))
    · exact mem_append_right _ hv
  | leave hguard htarget _ ih =>
    rintro other defined hcommon (_ | ⟨hguard', htarget', hnext'⟩)
    refine .leave (fun e he r hr => (hguard e he r hr).inter hcommon (hguard' e he r hr))
      (fun e he j hj t ht q hq => ?_) fun e he j hj c hc => ih e he j hj c hc hcommon ?_
    · exact hcommon _ (htarget e he j hj t ht q hq) (htarget' e he j hj t ht q hq)
    · exact hnext' e he j hj c hc

theorem SafeAt.inter (h : l.SafeAt known i vars) (h' : l.SafeAt known i other)
    (hcommon : ∀ v ∈ vars, v ∈ other → v ∈ defined) : l.SafeAt known i defined :=
  ⟨fun t ht q hq => hcommon _ (h.1 t ht q hq) (h'.1 t ht q hq),
    fun c hc => (h.2 c hc).inter hcommon (h'.2 c hc)⟩

/-- What must have values at a block that is safe: no list is needed that lacks any of it. -/
theorem SafeAt.exists_least (h : l.SafeAt known i vars) :
    ∃ D, l.SafeAt known i D ∧ ∀ vars, l.SafeAt known i vars → D ⊆ vars := by
  classical
  induction hn : vars.length using Nat.strongRecOn generalizing vars with
  | ind n ih =>
    by_cases hleast : ∀ other, l.SafeAt known i other → ∀ v ∈ vars, v ∈ other
    · exact ⟨vars, h, fun other hother v => hleast other hother v⟩
    · push Not at hleast
      obtain ⟨other, hother, v, hv, hnot⟩ := hleast
      have hinter : l.SafeAt known i (vars.filter (· ∈ other)) :=
        h.inter hother fun v hv hv' => mem_filter.2 ⟨hv, decide_eq_true hv'⟩
      refine ih _ ?_ hinter rfl
      rw [← hn]
      exact length_filter_lt_length_iff_exists.2 ⟨v, hv, by simpa using hnot⟩

theorem SafeAt.edge {c : List Op × List Edge} {e : Edge} {j : Nat} (h : l.SafeAt known i vars)
    (hc : l.code i = some c) (he : e ∈ c.2) (hj : e.target = (j : Int)) :
    l.SafeAt known j (vars ++ c.1.flatMap Op.stores) := (safe_leave.1 (h.2 c hc).ops.2 e he).2 j hj

/-- Blocks can be given variables that have values whenever something comes there, and suffice. -/
theorem exists_assigned (h : l.SafeAt known 0 []) : ∃ A : Nat → List Variable, A 0 = [] ∧
    ∀ i, (∃ vars, l.SafeAt known i vars) → (∀ c, l.code i = some c →
      Op.Sequence known (A i) c.1 ∧ ∀ e ∈ c.2, e.Assigned A (A i ++ c.1.flatMap Op.stores)) ∧
      ∀ t, l.target? i = some t → t.Fits (A i) := by
  have hleast : ∀ i, (∃ vars, l.SafeAt known i vars) →
      ∃ D, l.SafeAt known i D ∧ ∀ vars, l.SafeAt known i vars → D ⊆ vars :=
    fun _ ⟨_, h⟩ => h.exists_least
  choose! A hA hsub using hleast
  refine ⟨A, subset_nil.1 (hsub 0 ⟨_, h⟩ _ h), fun i hi => ⟨fun c hc => ?_, (hA i hi).1⟩⟩
  refine ⟨((hA i hi).2 c hc).ops.1, fun e he => ⟨?_, fun j hj => ?_⟩⟩
  · exact (safe_leave.1 ((hA i hi).2 c hc).ops.2 e he).1
  · have hedge := (hA i hi).edge hc he hj
    exact hsub j ⟨_, hedge⟩ _ hedge

end Layout

end ControlReach
