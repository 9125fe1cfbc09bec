import ControlReach.Proofs.CallTranslation

/-!
# Executions of controls and of their plans

An execution of statements and one of their plan end alike: both finish with the same values, or
both stop, at a call path and at the error location that stands for it. A table application may
make any of its choices here.
-/

namespace ControlReach

open List

/-! ### How plans end -/

/-- A plan ends in a state, or at the error location of a number. -/
def Plan.Ends (o : Oracle) (a : Plan) (σ : State) : State ⊕ Nat → Prop
  | .inl τ => a.Finishes o σ τ
  | .inr i => a.Stops o σ i

/-- A selected choice at a site ends in a state, or at an error location. -/
def Arms.Ends (o : Oracle) (site : Nat) (arms : Arms) (σ : State) : State ⊕ Nat → Prop
  | .inl τ => arms.Finishes o site σ τ
  | .inr i => arms.Stops o site σ i

namespace Plan

variable {a : Plan}

theorem ends_skip : Plan.skip.Ends o σ r ↔ r = .inl σ := by
  cases r <;> simp [Ends, Finishes, Stops]

theorem ends_op {op : Op} : (Plan.op op).Ends o σ r ↔ ∃ τ, op.Step o σ τ ∧ r = .inl τ := by
  cases r <;> simp [Ends, Finishes, Stops]

theorem ends_seq : (Plan.seq a b).Ends o σ r ↔
    (∃ ρ, a.Finishes o σ ρ ∧ b.Ends o ρ r) ∨ ∃ i, a.Stops o σ i ∧ r = .inr i := by
  cases r with
  | inl τ => simp [Ends, Finishes]
  | inr i => simp [Ends, Stops, or_comm]

theorem ends_ifThen : (Plan.ifThen e a).Ends o σ r ↔
    (e.Holds o σ ∧ a.Ends o σ r) ∨ (e.Fails o σ ∧ r = .inl σ) := by
  cases r <;> simp [Ends, Finishes, Stops]

theorem ends_ifElse : (Plan.ifElse e a b).Ends o σ r ↔
    (e.Holds o σ ∧ a.Ends o σ r) ∨ (e.Fails o σ ∧ b.Ends o σ r) := by
  cases r <;> rfl

theorem ends_choose : (Plan.choose name site arms).Ends o σ r ↔ arms.Ends o site.id σ r := by
  cases r <;> rfl

theorem ends_bug : (Plan.bug t).Ends o σ r ↔ r = .inr t.index := by
  cases r <;> simp [Ends, Finishes, Stops]

theorem ends_assert : (Plan.assert t e).Ends o σ r ↔
    (e.Holds o σ ∧ r = .inl σ) ∨ (e.Fails o σ ∧ r = .inr t.index) := by
  cases r <;> simp [Ends, Finishes, Stops]

variable (ha : a.targets = [])

include ha

theorem not_stops_of_targets : ¬ a.Stops o σ i := fun h => by
  simpa [ha] using a.mem_of_stops h

theorem ends_iff_of_targets : a.Ends o σ r ↔ ∃ τ, a.Finishes o σ τ ∧ r = .inl τ := by
  cases r with
  | inl τ => simp [Ends]
  | inr i => simpa [Ends] using not_stops_of_targets ha

theorem ends_seq_of_targets : (Plan.seq a b).Ends o σ r ↔ ∃ ρ, a.Finishes o σ ρ ∧ b.Ends o ρ r := by
  rw [ends_seq]
  exact or_iff_left fun ⟨_, hi, _⟩ => not_stops_of_targets ha hi

end Plan

theorem Arms.ends_cons : (Arms.cons label kind a rest).Ends o site σ r ↔
      (o.select site label = true ∧ a.Ends o σ r) ∨ rest.Ends o site σ r := by
  cases r <;> rfl

theorem Arms.not_ends_nil : ¬ Arms.nil.Ends o site σ r := by
  cases r <;> simp [Ends, Finishes, Stops]

/-! ### Ends of executions -/

def stopPaths (l : List Visit) : List CallPath := (l.filter Visit.raises).map Visit.path

theorem stopPaths_append (l l' : List Visit) :
    stopPaths (l ++ l') = stopPaths l ++ stopPaths l' := by
  rw [stopPaths, filter_append, map_append]
  rfl

theorem stopPaths_under (step : PathStep) (l : List Visit) :
    stopPaths (l.map (Visit.under step)) = (stopPaths l).map (List.cons step) := by
  rw [stopPaths, filter_raises_under, map_map, stopPaths, map_map]
  rfl

theorem StandFor.length_eq (h : StandFor targets l) : targets.length = (stopPaths l).length := by
  rw [Forall₂.length_eq h, stopPaths, length_map]

/-- Counting from `n`, the error location of a number stands for a call path. -/
def Reports (l : List Visit) (n : Nat) (path : CallPath) (i : Nat) : Prop :=
  ∃ k, (stopPaths l)[k]? = some path ∧ i = n + k

namespace Reports

theorem under (h : Reports l n path i) (step : PathStep) :
    Reports (l.map (Visit.under step)) n (step :: path) i := by
  obtain ⟨k, hk, rfl⟩ := h
  exact ⟨k, by rw [stopPaths_under, getElem?_map, hk]; rfl, rfl⟩

theorem left (h : Reports l n path i) (l' : List Visit) : Reports (l ++ l') n path i := by
  obtain ⟨k, hk, rfl⟩ := h
  refine ⟨k, ?_, rfl⟩
  rw [stopPaths_append, getElem?_append_left (List.getElem?_eq_some_iff.1 hk).1, hk]

theorem right (h : Reports l' n' path i) (hn : n' = n + (stopPaths l).length) :
    Reports (l ++ l') n path i := by
  obtain ⟨k, hk, rfl⟩ := h
  refine ⟨(stopPaths l).length + k, ?_, by rw [hn, Nat.add_assoc]⟩
  rw [stopPaths_append, getElem?_append_right (Nat.le_add_right _ _), Nat.add_sub_cancel_left, hk]

end Reports

/-- Two executions end alike: with the same values, or at an error location and its call path. -/
inductive Alike (P : List Nat → Environment → Prop) (us : List Nat) (n uid : Nat) (l : List Visit) :
    Exit → State ⊕ Nat → Prop
  | done {us' env h τ} : us <+: us' → Mirrors us' uid h τ → P us' env →
      Alike P us n uid l (.done env h) (.inl τ)
  | stopped {path i} : Reports l n path i → Alike P us n uid l (.stopped path) (.inr i)

namespace Alike

variable {P : List Nat → Environment → Prop}

theorem imp (h : Alike P us n uid l out r) (hP : ∀ us' env, us <+: us' → P us' env → P' us' env) :
    Alike P' us n uid l out r := by
  cases h with
  | done hus hm hs => exact .done hus hm (hP _ _ hus hs)
  | stopped h => exact .stopped h

theorem after (h : Alike P us' n uid l out r) (hus : us <+: us') : Alike P us n uid l out r := by
  cases h with
  | done hus' hm hs => exact .done (hus.trans hus') hm hs
  | stopped h => exact .stopped h

theorem under (h : Alike P us n uid l out r) (step : PathStep) :
    Alike P us n uid (l.map (Visit.under step)) (out.under step) r := by
  cases h with
  | done hus hm hs => exact .done hus hm hs
  | stopped h => exact .stopped (h.under step)

theorem left (h : Alike P us n uid l out r) (l' : List Visit) (huid : uid ≤ uid') :
    Alike P us n uid' (l ++ l') out r := by
  cases h with
  | done hus hm hs => exact .done hus (hm.mono huid) hs
  | stopped h => exact .stopped (h.left l')

theorem right (h : Alike P us n' uid l' out r) (hn : n' = n + (stopPaths l).length) :
    Alike P us n uid (l ++ l') out r := by
  cases h with
  | done hus hm hs => exact .done hus hm hs
  | stopped h => exact .stopped (h.right hn)

theorem leave (h : Alike P us n uid l out r) {s : Scope} (hs : s.Models time us env) :
    Alike (s.Models time) us n uid l (out.leave env) r := by
  cases h with
  | done hus hm _ => exact .done hus hm (hs.mono hus)
  | stopped h => exact .stopped h

end Alike

/-! ### Bodies -/

/-- Executing a body, and copying back if it finishes. -/
inductive RunsBody (time : BindingTime) (env : Environment) (slots : List Slot)
    (inner : Environment) (h : Heap) (l : List Stmt) : Exit → Prop
  | done {env₁ h₁ h₂} : Runs time inner h (.statements 0 l) (.done env₁ h₁) →
      storeBack slots h₁ = some h₂ → RunsBody time env slots inner h l (.done env h₂)
  | stopped {path} : Runs time inner h (.statements 0 l) (.stopped path) →
      RunsBody time env slots inner h l (.stopped path)

variable {time : BindingTime} {env : Environment} {h : Heap}

theorem runs_action_iff :
    Runs time env h (.action d home args) out ↔ ∃ y : List Slot × Heap,
      PassesAll home env h (pairArguments d.params args) y.1 y.2 ∧
      RunsBody time env y.1 ([] :: slotFrame y.1 :: home) y.2 d.body.statements out := by
  constructor
  · intro hrun
    cases hrun with
    | action hpass hbody hback => exact ⟨(_, _), hpass, .done hbody hback⟩
    | actionStops hpass hbody => exact ⟨(_, _), hpass, .stopped hbody⟩
  · rintro ⟨y, hpass, hbody⟩
    cases hbody with
    | done hbody hback => exact .action hpass hbody hback
    | stopped hbody => exact .actionStops hpass hbody

theorem runs_control_iff :
    Runs time env h (.control d root args) out ↔ ∃ y : List Slot × Heap,
      PassesAll root env h (pairArguments d.params args) y.1 y.2 ∧
      ∃ z : Environment × Heap, DeclaresAll time (slotFrame y.1 :: root) y.2 d.locals z.1 z.2 ∧
      RunsBody time env y.1 ([] :: z.1) z.2 d.body.statements out := by
  constructor
  · intro hrun
    cases hrun with
    | control hpass hlocals hbody hback => exact ⟨(_, _), hpass, (_, _), hlocals, .done hbody hback⟩
    | controlStops hpass hlocals hbody => exact ⟨(_, _), hpass, (_, _), hlocals, .stopped hbody⟩
  · rintro ⟨y, hpass, z, hlocals, hbody⟩
    cases hbody with
    | done hbody hback => exact .control hpass hlocals hbody hback
    | stopped hbody => exact .controlStops hpass hlocals hbody

namespace Elaborate

variable {loc : Option Location} {e : Expr}

/-- A body and its plan end alike, if its statements and their plan do. -/
theorem agree_body {P : List Nat → Environment → Prop} {a : Plan} {inner : Environment}
    (htargets : (backPlan loc formals).targets = []) (hbody : Agree (Runs time inner h
    (.statements 0 l)) (a.Ends (.free .all) σ) (Alike P us n uid visits))
    (hslots : Forall₂ (fun slot f => slot.Serves us f) slots formals) :
    Agree (RunsBody time env slots inner h l)
      ((Plan.seq a (backPlan loc formals)).Ends (.free .all) σ)
      (Alike (fun _ env' => env' = env) us n uid visits) := by
  have hserves : ∀ us', us <+: us' →
      Forall₂ (fun slot f => slot.Serves us' f) slots formals := fun us' hus =>
    hslots.imp fun slot f hslot => hslot.mono hus
  constructor
  · intro out hrun
    cases hrun with
    | done hrun hback =>
      obtain ⟨r, hr, halike⟩ := hbody.forth _ hrun
      cases halike with
      | done hus hm _ =>
        obtain ⟨τ, hτ, hm'⟩ := (agree_backPlan (hserves _ hus) hm).forth _ hback
        refine ⟨.inl τ, Plan.ends_seq.2 (.inl ⟨_, hr, ?_⟩), .done hus hm' rfl⟩
        exact (Plan.ends_iff_of_targets htargets).2 ⟨τ, hτ, rfl⟩
    | stopped hrun =>
      obtain ⟨r, hr, halike⟩ := hbody.forth _ hrun
      cases halike with
      | stopped hreports => exact ⟨_, Plan.ends_seq.2 (.inr ⟨_, hr, rfl⟩), .stopped hreports⟩
  · intro r hr
    rcases Plan.ends_seq.1 hr with ⟨ρ, hρ, hr⟩ | ⟨i, hi, rfl⟩
    · obtain ⟨τ, hτ, rfl⟩ := (Plan.ends_iff_of_targets htargets).1 hr
      obtain ⟨out, hrun, halike⟩ := hbody.back (.inl ρ) hρ
      cases halike with
      | done hus hm _ =>
        obtain ⟨h', hback, hm'⟩ := (agree_backPlan (hserves _ hus) hm).back τ hτ
        exact ⟨_, .done hrun hback, .done hus hm' rfl⟩
    · obtain ⟨out, hrun, halike⟩ := hbody.back (.inr i) hi
      cases halike with
      | stopped hreports => exact ⟨_, .stopped hrun, .stopped hreports⟩

/-! ### Statements and calls -/

/-- What is elaborated ends like what it is elaborated from. -/
def Simulates (time : BindingTime) (depth : Nat) (c c' : Counters) : Job → Output → Prop
  | .statements _ s l, .plan a => ∀ us env h σ names i, s.Models time us env →
      Mirrors us c.uid h σ → s.Names names →
      Admits time (Stmt.visitsAll (Callee.visits depth) names i l) →
      Agree (Runs time env h (.statements i l)) (a.Ends (.free .all) σ)
        (Alike (fun _ _ => True) us c.target c'.uid
          (Stmt.visitsAll (Callee.visits depth) names i l))
  | .statement _ s x s', .plan a => ∀ us env h σ names, s.Models time us env →
      Mirrors us c.uid h σ → s.Names names →
      Admits time (Stmt.visits (Callee.visits depth) names x) →
      Agree (Runs time env h (.statement x)) (a.Ends (.free .all) σ)
        (Alike (s'.Models time) us c.target c'.uid (Stmt.visits (Callee.visits depth) names x))
  | .action _ p args caller _ _, .plan a => ∀ us home env h σ names, p.home.Models time us home →
      caller.Models time us env → Mirrors us c.uid h σ → p.home.Names names →
      Admits time (Callee.visits (depth + 1) (.action p.decl names)) →
      Agree (Runs time env h (.action p.decl home args)) (a.Ends (.free .all) σ)
        (Alike (fun _ env' => env' = env) us c.target c'.uid
          (Callee.visits (depth + 1) (.action p.decl names)))
  | .control _ d args caller _, .plan a => ∀ us root env h σ names,
      caller.root.Models time us root → caller.Models time us env → Mirrors us c.uid h σ →
      caller.root.Names names → Admits time (Callee.visits (depth + 1) (.control d names)) →
      Agree (Runs time env h (.control d root args)) (a.Ends (.free .all) σ)
        (Alike (fun _ env' => env' = env) us c.target c'.uid
          (Callee.visits (depth + 1) (.control d names)))
  | .arms _ d home _ refs, .arms a => ∀ site us env h σ names i, home.Models time us env →
      Mirrors us c.uid h σ → home.Names names →
      Admits time (visitsChoices (Callee.visits depth) d names i refs) →
      Agree (Runs time env h (.choices d i refs)) (a.Ends (.free .all) site σ)
        (Alike (fun _ _ => True) us c.target c'.uid
          (visitsChoices (Callee.visits depth) d names i refs))
  | _, _ => True

theorem Elaborates.target_eq (h : Elaborates depth job c (.plan a) c') (hl : StandFor a.targets l) :
    c'.target = c.target + (stopPaths l).length := by
  rw [h.numbered.target.2, length_map, ← hl.length_eq]
  rfl

section Cases

variable {depth : Nat} {ctx : Context} {s : Scope} {c c₁ c₂ : Counters} {a : Plan}

theorem simulates_cons (hx : Elaborates depth (.statement ctx s x s') c (.plan a) c₁)
    (ih₁ : Simulates time depth c c₁ (.statement ctx s x s') (.plan a))
    (ih₂ : Simulates time depth c₁ c₂ (.statements ctx s' l) (.plan b)) :
    Simulates time depth c c₂ (.statements ctx s (x :: l)) (.plan (.seq a b)) := by
  intro us env h σ names i hs hm hnames hadmits
  obtain ⟨hstand, hnames'⟩ := hx.lists names hnames
  have htarget := hx.target_eq (hstand.under (.stmt i))
  rw [Stmt.visitsAll] at hadmits ⊢
  obtain ⟨hadmits₁, hadmits₂⟩ := hadmits.append
  have hfirst := ih₁ us env h σ names hs hm hnames hadmits₁.under
  constructor
  · intro out hrun
    cases hrun with
    | next hrun hrest =>
      obtain ⟨r₁, hr₁, halike⟩ := hfirst.forth _ hrun
      cases halike with
      | done hus hm₁ hs₁ =>
        obtain ⟨r, hr, halike⟩ := (ih₂ _ _ _ _ _ _ hs₁ hm₁ hnames' hadmits₂).forth _ hrest
        exact ⟨r, Plan.ends_seq.2 (.inl ⟨_, hr₁, hr⟩), (halike.after hus).right htarget⟩
    | stop hrun =>
      obtain ⟨r₁, hr₁, halike⟩ := hfirst.forth _ hrun
      cases halike with
      | stopped hreports =>
        exact ⟨_, Plan.ends_seq.2 (.inr ⟨_, hr₁, rfl⟩), .stopped ((hreports.under _).left _)⟩
  · intro r hr
    rcases Plan.ends_seq.1 hr with ⟨ρ, hρ, hr⟩ | ⟨k, hk, rfl⟩
    · obtain ⟨out, hrun, halike⟩ := hfirst.back (.inl ρ) hρ
      cases halike with
      | done hus hm₁ hs₁ =>
        obtain ⟨out, hrest, halike⟩ := (ih₂ _ _ _ _ _ _ hs₁ hm₁ hnames' hadmits₂).back r hr
        exact ⟨out, .next hrun hrest, (halike.after hus).right htarget⟩
    · obtain ⟨out, hrun, halike⟩ := hfirst.back (.inr k) hk
      cases halike with
      | stopped hreports => exact ⟨_, .stop hrun, .stopped ((hreports.under _).left _)⟩

variable {e : Expr} {guard : Rvalue} {yes : Block} {loc : Option Location} {d : ActionDecl}

section

variable (hguard : branchCondition s e loc = .ok guard)
  (hyes : Elaborates depth (.statements ctx (s.enter .block "") yes.statements) c (.plan a) c₁)

include hguard hyes

theorem simulates_ifThen
    (ih : Simulates time depth c c₁ (.statements ctx (s.enter .block "") yes.statements)
      (.plan a)) :
    Simulates time depth c c₁ (.statement ctx s (.branch e yes none loc) s)
      (.plan (.ifThen guard a)) := by
  intro us env h σ names hs hm hnames hadmits
  rw [Stmt.visits, visits_block] at hadmits ⊢
  have heval := hs.lower hm e guard (branchCondition_eq_ok hguard).2
  have hbody := ih us ([] :: env) h σ ([] :: names) 0 hs.enter hm hnames.enter hadmits.under
  constructor
  · intro out hrun
    cases hrun with
    | yes he hrun =>
      obtain ⟨r, hr, halike⟩ := hbody.forth _ hrun
      exact ⟨r, Plan.ends_ifThen.2 (.inl ⟨heval.symm.trans he, hr⟩), (halike.leave hs).under _⟩
    | skip he =>
      exact ⟨_, Plan.ends_ifThen.2 (.inr ⟨heval.symm.trans he, rfl⟩),
        .done prefix_rfl (hm.mono hyes.numbered.uid) hs⟩
  · intro r hr
    rcases Plan.ends_ifThen.1 hr with ⟨he, hr⟩ | ⟨he, rfl⟩
    · obtain ⟨out, hrun, halike⟩ := hbody.back r hr
      exact ⟨_, .yes (heval.trans he) hrun, (halike.leave hs).under _⟩
    · exact ⟨_, .skip (heval.trans he), .done prefix_rfl (hm.mono hyes.numbered.uid) hs⟩

theorem simulates_ifElse {no : Block}
    (hno : Elaborates depth (.statements ctx (s.enter .block "") no.statements) c₁ (.plan b) c₂)
    (ih₁ : Simulates time depth c c₁ (.statements ctx (s.enter .block "") yes.statements) (.plan a))
    (ih₂ : Simulates time depth c₁ c₂ (.statements ctx (s.enter .block "") no.statements)
      (.plan b)) : Simulates time depth c c₂ (.statement ctx s (.branch e yes (some no) loc) s)
      (.plan (.ifElse guard a b)) := by
  intro us env h σ names hs hm hnames hadmits
  rw [Stmt.visits, visits_block, visits_block] at hadmits ⊢
  obtain ⟨hadmits₁, hadmits₂⟩ := hadmits.append
  have heval := hs.lower hm e guard (branchCondition_eq_ok hguard).2
  have htarget := hyes.target_eq ((hyes.lists ([] :: names) 0 hnames.enter).under .yes)
  have hfirst := ih₁ us ([] :: env) h σ ([] :: names) 0 hs.enter hm hnames.enter hadmits₁.under
  have hsecond := ih₂ us ([] :: env) h σ ([] :: names) 0 hs.enter (hm.mono hyes.numbered.uid)
    hnames.enter hadmits₂.under
  constructor
  · intro out hrun
    cases hrun with
    | yes he hrun =>
      obtain ⟨r, hr, halike⟩ := hfirst.forth _ hrun
      exact ⟨r, Plan.ends_ifElse.2 (.inl ⟨heval.symm.trans he, hr⟩),
        ((halike.leave hs).under _).left _ hno.numbered.uid⟩
    | no he hrun =>
      obtain ⟨r, hr, halike⟩ := hsecond.forth _ hrun
      exact ⟨r, Plan.ends_ifElse.2 (.inr ⟨heval.symm.trans he, hr⟩),
        ((halike.leave hs).under _).right htarget⟩
  · intro r hr
    rcases Plan.ends_ifElse.1 hr with ⟨he, hr⟩ | ⟨he, hr⟩
    · obtain ⟨out, hrun, halike⟩ := hfirst.back r hr
      exact ⟨_, .yes (heval.trans he) hrun, ((halike.leave hs).under _).left _ hno.numbered.uid⟩
    · obtain ⟨out, hrun, halike⟩ := hsecond.back r hr
      exact ⟨_, .no (heval.trans he) hrun, ((halike.leave hs).under _).right htarget⟩

end

theorem simulates_assign {target value : Expr} {v : Variable} {path : List String} {ty : Ty}
    {e : Rvalue} (hplace : s.place target = .ok (v, path, ty))
    (hvalue : s.lowerAs ty value loc = .ok e) :
    Simulates time depth c c (.statement ctx s (.assign target value loc) s)
      (.plan (.op (.assign v path e loc))) := by
  intro us env h σ names hs hm hnames hadmits
  have heval := hs.lowerAs hm hvalue
  obtain ⟨k, hk, hus⟩ := hs.place hplace
  constructor
  · intro out hrun
    cases hrun with
    | assign hk' hd hh' =>
      cases hk.symm.trans hk'
      rcases rel_cases (hm.assign hus path _) with ⟨hnone, -⟩ | ⟨h', τ, hh, hτ, hm'⟩
      · cases hh'.symm.trans hnone
      · cases hh'.symm.trans hh
        exact ⟨_, Plan.ends_op.2 ⟨τ, .assign (heval.symm.trans hd) hτ, rfl⟩,
          .done prefix_rfl hm' hs⟩
  · intro r hr
    obtain ⟨τ, hstep, rfl⟩ := Plan.ends_op.1 hr
    cases hstep with
    | assign hd hτ =>
      rcases rel_cases (hm.assign hus path _) with ⟨-, hnone⟩ | ⟨h', τ', hh, hτ', hm'⟩
      · cases hτ.symm.trans hnone
      · cases hτ.symm.trans hτ'
        exact ⟨_, .assign hk (heval.trans hd) hh, .done prefix_rfl hm' hs⟩

theorem runs_call (hcallee : env.callee? callee = some m)
    (hrun : Runs time env h (.statement (.call callee args callLoc loc)) out) :
    match m with
    | .assertion .bug => out = .stopped []
    | .assertion kind => ∃ e name argLoc, args = [.given e name argLoc] ∧
        (e.eval env h = some (.bool true) ∧ out = .done env h ∨
          e.eval env h = some (.bool false) ∧ out = .stopped [] ∧ kind = .assert)
    | .action d home => Runs time env h (.action d home args) out
    | .control d root => Runs time env h (.control d root args) out
    | .table d home => ∃ out', Runs time home h (.choices d 0 d.actions) out' ∧
        out = out'.leave env := by
  cases hrun <;> cases hcallee.symm.trans ‹env.callee? callee = some _› <;> grind

theorem reports_assertion (hnames : s.Names names) (hkind : s.assertion? callee = some kind)
    (hraises : kind = .bug ∨ kind = .assert) (n : Nat) :
    Reports (Stmt.visits (Callee.visits depth) names (.call callee args callLoc loc)) n [] n := by
  obtain ⟨hvisits, hv⟩ := visits_assertion hnames hkind args callLoc loc
  rw [hvisits]
  refine ⟨0, ?_, rfl⟩
  rw [stopPaths, filter_singleton, Visit.raises, hv]
  obtain rfl | rfl := hraises <;> rfl

theorem agree_called (hs : s.Models time us env)
    (hcall : ∀ out, Runs time env h (.statement x) out ↔ Runs time env h code out) (hbody : Agree
    (Runs time env h code) (a.Ends (.free .all) σ) (Alike (fun _ env' => env' = env) us n uid l)) :
    Agree (Runs time env h (.statement x)) (a.Ends (.free .all) σ)
      (Alike (s.Models time) us n uid l) := by
  refine (hbody.congr hcall fun _ => .rfl).imp fun out r halike => halike.imp ?_
  rintro us' _ hus rfl
  exact hs.mono hus

theorem simulates_action {callee : Scope} {unbound : Unbound}
    (hbound : bindArguments d.params args d.name loc unbound = .ok bound)
    (hbind : BindsFormals (inside ctx q) home caller loc c.uid bound formals)
    (hfill : FillsFormals loc (home.enter .action d.name) formals c.fresh fill callee fresh)
    (ih : Simulates time depth
      { c with uid := c.uid + formals.length, fresh, inlined := noting q c.inlined } c₁
      (.statements (inside ctx q) (callee.enter .block "") d.body.statements) (.plan a)) :
    Simulates time depth c c₁ (.action ctx ⟨d, q, home⟩ args caller loc unbound)
      (.plan (.seq fill (.seq a (backPlan loc formals)))) := by
  intro us homeEnv env h σ names hhome hcaller hm hnames hadmits
  have hvisits : Callee.visits (depth + 1) (.action d names) = _ := visits_block d.body
  rw [hvisits] at hadmits ⊢
  have hpass := hbind.agree hfill hhome hcaller hm
  rw [bound_eq_pairs hbound hbind hfill] at hpass
  refine (hpass.bind ?_).congr (fun _ => runs_action_iff) fun _ =>
    Plan.ends_seq_of_targets (hfill.straight hbind c []).targets
  rintro ⟨slots, h₁⟩ ρ ⟨us', hus, hm', hslots⟩
  have hbody := ih us' _ h₁ ρ _ 0 (hfill.models (hhome.mono hus) hslots).enter hm'
    (names_of_fills hbound hbind hfill hnames).enter hadmits
  exact (agree_body (hbind.straight_backPlan c).targets hbody hslots).imp fun _ _ halike =>
    halike.after hus

theorem target_locals (hl : DeclaresLocals ctx s l c a s' c₁) (names : Environment) (i : Nat) :
    c₁.target = c.target + (stopPaths (Local.visitsAll names i l)).length := by
  rw [hl.straight.target, ← (standFor_locals names i l).length_eq]
  rfl

theorem simulates_control {d : ControlDecl} {callee callee' : Scope} {locals : Plan}
    (hbound : bindArguments d.params args d.name loc .none = .ok bound)
    (hbind : BindsFormals (inside ctx d.name) caller.root caller loc c.uid bound formals)
    (hfill : FillsFormals loc (caller.root.enter .control d.name) formals c.fresh fill callee fresh)
    (hlocals : DeclaresLocals (inside ctx d.name) callee d.locals
      { c with uid := c.uid + formals.length, fresh, inlined := noting d.name c.inlined } locals
      callee' c₁) (ih : Simulates time depth c₁ c₂
      (.statements (inside ctx d.name) (callee'.enter .block "") d.body.statements) (.plan a)) :
    Simulates time depth c c₂ (.control ctx d args caller loc)
      (.plan (.seq fill (.seq locals (.seq a (backPlan loc formals))))) := by
  intro us root env h σ names hroot hcaller hm hnames hadmits
  have hvisits : Callee.visits (depth + 1) (.control d names) = _ ++ _ :=
    congrArg _ (visits_block d.body)
  rw [hvisits] at hadmits ⊢
  obtain ⟨hadmits₁, hadmits₂⟩ := hadmits.append
  have hpass := hbind.agree hfill hroot hcaller hm
  rw [bound_eq_pairs hbound hbind hfill] at hpass
  have hcallee := names_of_fills hbound hbind hfill hnames
  refine (hpass.bind ?_).congr (fun _ => runs_control_iff) fun _ =>
    Plan.ends_seq_of_targets (hfill.straight hbind c []).targets
  rintro ⟨slots, h₁⟩ ρ ⟨us₁, hus₁, hm₁, hslots⟩
  have hdeclares := hlocals.agree (hfill.models (hroot.mono hus₁) hslots) hm₁ hcallee hadmits₁
  refine (hdeclares.bind ?_).congr (fun _ => .rfl) fun _ =>
    Plan.ends_seq_of_targets hlocals.straight.targets
  rintro ⟨env₂, h₂⟩ ρ' ⟨us₂, hus₂, hm₂, hs₂⟩
  have hbody := ih us₂ _ h₂ ρ' _ 0 hs₂.enter hm₂ (hlocals.names hcallee).enter hadmits₂
  have hslots₂ := hslots.imp fun slot f hslot => hslot.mono hus₂
  exact (agree_body (hbind.straight_backPlan c).targets hbody hslots₂).imp fun _ _ halike =>
    (halike.after (hus₁.trans hus₂)).right (target_locals hlocals _ 0)

theorem simulates_arm (hresolve : resolveAction home ref = .ok (d, q, actionHome)) (hfirst :
    Elaborates depth (.action ctx ⟨d, q, actionHome⟩ ref.args home (Location.orElse ref.loc loc)
    .data) c (.plan a) c₁)
    (hrest : Elaborates depth (.arms ctx table home loc refs) c₁ (.arms rest) c₂) (ih₁ : Simulates
    time depth c c₁ (.action ctx ⟨d, q, actionHome⟩ ref.args home (Location.orElse ref.loc loc)
    .data) (.plan a))
    (ih₂ : Simulates time depth c₁ c₂ (.arms ctx table home loc refs) (.arms rest)) :
    Simulates time depth c c₂ (.arms ctx table home loc (ref :: refs))
      (.arms (.cons ref.name .tableAction a rest)) := by
  intro site us env h σ names i hs hm hnames hadmits
  have hscope := find?_of_resolveAction hresolve
  obtain ⟨_, _, hnamed, ⟨⟩, hhomeNames⟩ := hnames.find?_eq_some hscope
  obtain ⟨_, _, hfind, ⟨⟩, hhome⟩ := hs.find?_eq_some hscope
  rw [visitsChoices, visitsChoices.visitsAction, hnamed] at hadmits ⊢
  obtain ⟨hadmits₁, hadmits₂⟩ := hadmits.append
  have htarget := hfirst.target_eq ((hfirst.lists _ hhomeNames).under (.choice i))
  have hpick := ih₁ us _ env h σ _ hhome hs hm hhomeNames hadmits₁.under
  have hother := ih₂ site us env h σ names (i + 1) hs (hm.mono hfirst.numbered.uid) hnames hadmits₂
  constructor
  · intro out hrun
    cases hrun with
    | pick hsame hrun =>
      cases hfind.symm.trans hsame
      obtain ⟨r, hr, halike⟩ := hpick.forth _ hrun
      exact ⟨r, Arms.ends_cons.2 (.inl ⟨rfl, hr⟩),
        ((halike.imp fun _ _ _ _ => trivial).under _).left _ hrest.numbered.uid⟩
    | other hrun =>
      obtain ⟨r, hr, halike⟩ := hother.forth _ hrun
      exact ⟨r, Arms.ends_cons.2 (.inr hr), halike.right htarget⟩
  · intro r hr
    rcases Arms.ends_cons.1 hr with ⟨-, hr⟩ | hr
    · obtain ⟨out, hrun, halike⟩ := hpick.back r hr
      exact ⟨_, .pick hfind hrun,
        ((halike.imp fun _ _ _ _ => trivial).under _).left _ hrest.numbered.uid⟩
    · obtain ⟨out, hrun, halike⟩ := hother.back r hr
      exact ⟨_, .other hrun, halike.right htarget⟩

theorem simulates_default (hsome : table.defaultAction = some ref)
    (hresolve : resolveAction home ref = .ok (d, q, actionHome))
    (ih : Simulates time depth c c₁ (.action ctx ⟨d, q, actionHome⟩ ref.args home
      (Location.orElse ref.loc loc) .data) (.plan a)) :
    Simulates time depth c c₁ (.arms ctx table home loc [])
      (.arms (.cons TableSite.miss .tableMiss a .nil)) := by
  intro site us env h σ names i hs hm hnames hadmits
  have hscope := find?_of_resolveAction hresolve
  obtain ⟨_, _, hnamed, ⟨⟩, hhomeNames⟩ := hnames.find?_eq_some hscope
  obtain ⟨_, _, hfind, ⟨⟩, hhome⟩ := hs.find?_eq_some hscope
  have hvisits : visitsChoices (Callee.visits depth) table names i [] =
      (visitsChoices.visitsAction (Callee.visits depth) names ref).map (Visit.under .miss) := by
    rw [visitsChoices, hsome]
  rw [hvisits, visitsChoices.visitsAction, hnamed] at hadmits ⊢
  have hbody := ih us _ env h σ _ hhome hs hm hhomeNames hadmits.under
  constructor
  · intro out hrun
    cases hrun with
    | miss hnone => cases hnone.symm.trans hsome
    | default hsame hsame' hrun =>
      cases hsome.symm.trans hsame
      cases hfind.symm.trans hsame'
      obtain ⟨r, hr, halike⟩ := hbody.forth _ hrun
      exact ⟨r, Arms.ends_cons.2 (.inl ⟨rfl, hr⟩), (halike.imp fun _ _ _ _ => trivial).under _⟩
  · intro r hr
    obtain ⟨-, hr⟩ := (Arms.ends_cons.1 hr).resolve_right Arms.not_ends_nil
    obtain ⟨out, hrun, halike⟩ := hbody.back r hr
    exact ⟨_, .default hsome hfind hrun, (halike.imp fun _ _ _ _ => trivial).under _⟩

end Cases

theorem Elaborates.simulates {depth : Nat} {job : Job} {c c' : Counters} {out : Output}
    (h : Elaborates depth job c out c') : Simulates time depth c c' job out := by
  induction h with
  | nil =>
    intro us env h σ names i hs hm hnames hadmits
    constructor
    · rintro _ ⟨⟩
      exact ⟨_, Plan.ends_skip.2 rfl, .done prefix_rfl hm trivial⟩
    · intro r hr
      obtain rfl := Plan.ends_skip.1 hr
      exact ⟨_, .nil, .done prefix_rfl hm trivial⟩
  | cons h₁ _ ih₁ ih₂ => exact simulates_cons h₁ ih₁ ih₂
  | block _ ih =>
    intro us env h σ names hs hm hnames hadmits
    rw [Stmt.visits, visits_block] at hadmits ⊢
    have hbody := ih us ([] :: env) h σ ([] :: names) 0 hs.enter hm hnames.enter hadmits
    constructor
    · intro out hrun
      cases hrun with
      | block hrun =>
        obtain ⟨r, hr, halike⟩ := hbody.forth _ hrun
        exact ⟨r, hr, halike.leave hs⟩
    · intro r hr
      obtain ⟨out, hrun, halike⟩ := hbody.back r hr
      exact ⟨_, .block hrun, halike.leave hs⟩
  | ifThen hguard h ih => exact simulates_ifThen hguard h ih
  | ifElse hguard h₁ h₂ ih₁ ih₂ => exact simulates_ifElse hguard h₁ h₂ ih₁ ih₂
  | assign hplace hvalue => exact simulates_assign hplace hvalue
  | declare hd =>
    intro us env h σ names hs hm hnames hadmits
    have htargets := hd.straight.targets
    constructor
    · intro out hrun
      cases hrun with
      | declare hx =>
        obtain ⟨τ, hτ, us', hus, hm', hs'⟩ := (hd.agree hs hm).forth (_, _) hx
        exact ⟨_, (Plan.ends_iff_of_targets htargets).2 ⟨τ, hτ, rfl⟩, .done hus hm' hs'⟩
    · intro r hr
      obtain ⟨τ, hτ, rfl⟩ := (Plan.ends_iff_of_targets htargets).1 hr
      obtain ⟨⟨env', h'⟩, hx, us', hus, hm', hs'⟩ := (hd.agree hs hm).back τ hτ
      exact ⟨_, .declare hx, .done hus hm' hs'⟩
  | constant hd =>
    intro us env h σ names hs hm hnames hadmits
    rw [Stmt.visits.eq_def] at hadmits
    have hs' := hd.models hs hm (hadmits.fixed hnames)
    constructor
    · intro out hrun
      cases hrun with
      | constant hx =>
        cases hx
        exact ⟨_, Plan.ends_skip.2 rfl, .done prefix_rfl hm hs'⟩
    · intro r hr
      obtain rfl := Plan.ends_skip.1 hr
      exact ⟨_, .constant .constant, .done prefix_rfl hm hs'⟩
  | bug hkind _ =>
    intro us env h σ names hs hm hnames hadmits
    obtain ⟨_, hcallee, ⟨⟩⟩ := hs.callee?_eq_some (Scope.callee?_of_assertion hkind)
    constructor
    · intro out hrun
      obtain rfl := runs_call hcallee hrun
      exact ⟨_, Plan.ends_bug.2 rfl, .stopped (reports_assertion hnames hkind (.inl rfl) _)⟩
    · intro r hr
      obtain rfl := Plan.ends_bug.1 hr
      exact ⟨_, .bug hcallee, .stopped (reports_assertion hnames hkind (.inl rfl) _)⟩
  | assert hkind hcondition hguard =>
    intro us env h σ names hs hm hnames hadmits
    obtain ⟨_, hcallee, ⟨⟩⟩ := hs.callee?_eq_some (Scope.callee?_of_assertion hkind)
    obtain ⟨⟨⟩, -⟩ | ⟨-, _, name, argLoc, ⟨⟩, rfl⟩ := assertionCondition_eq_ok hcondition
    have heval := hs.lower hm _ _ (assertionGuard_eq_ok hguard).2
    constructor
    · intro out hrun
      obtain ⟨_, _, _, ⟨⟩, ⟨he, rfl⟩ | ⟨he, rfl, -⟩⟩ := runs_call hcallee hrun
      · exact ⟨_, Plan.ends_assert.2 (.inl ⟨heval.symm.trans he, rfl⟩), .done prefix_rfl hm hs⟩
      · exact ⟨_, Plan.ends_assert.2 (.inr ⟨heval.symm.trans he, rfl⟩),
          .stopped (reports_assertion hnames hkind (.inr rfl) _)⟩
    · intro r hr
      rcases Plan.ends_assert.1 hr with ⟨he, rfl⟩ | ⟨he, rfl⟩
      · exact ⟨_, .holds hcallee (heval.trans he), .done prefix_rfl hm hs⟩
      · exact ⟨_, .fails hcallee (heval.trans he),
          .stopped (reports_assertion hnames hkind (.inr rfl) _)⟩
  | assume hkind hcondition hguard =>
    intro us env h σ names hs hm hnames hadmits
    obtain ⟨_, hcallee, ⟨⟩⟩ := hs.callee?_eq_some (Scope.callee?_of_assertion hkind)
    obtain ⟨⟨⟩, -⟩ | ⟨-, _, name, argLoc, ⟨⟩, rfl⟩ := assertionCondition_eq_ok hcondition
    have heval := hs.lower hm _ _ (assertionGuard_eq_ok hguard).2
    constructor
    · intro out hrun
      obtain ⟨_, _, _, ⟨⟩, ⟨he, rfl⟩ | ⟨-, -, ⟨⟩⟩⟩ := runs_call hcallee hrun
      exact ⟨_, Plan.ends_op.2 ⟨σ, .assume (heval.symm.trans he), rfl⟩, .done prefix_rfl hm hs⟩
    · intro r hr
      obtain ⟨τ, hstep, rfl⟩ := Plan.ends_op.1 hr
      cases hstep with
      | assume he => exact ⟨_, .assume hcallee (heval.trans he), .done prefix_rfl hm hs⟩
  | callAction hassert hx hfind _ ih =>
    intro us env h σ names hs hm hnames hadmits
    have hscope := Scope.callee?_of_action hassert hx hfind
    obtain ⟨_, hnamed, _ | hhomeNames⟩ := hnames.callee?_eq_some hscope
    obtain ⟨_, hcallee, _ | hhome⟩ := hs.callee?_eq_some hscope
    rw [Stmt.visits, hnamed] at hadmits ⊢
    exact agree_called hs (fun _ => ⟨runs_call hcallee, .callAction hcallee⟩)
      (ih us _ env h σ _ hhome hs hm hhomeNames hadmits)
  | callTable hassert hx hfind _ ih =>
    intro us env h σ names hs hm hnames hadmits
    have hscope := Scope.callee?_of_table hassert hx hfind
    obtain ⟨_, hnamed, _ | _ | hhomeNames⟩ := hnames.callee?_eq_some hscope
    obtain ⟨_, hcallee, _ | _ | hhome⟩ := hs.callee?_eq_some hscope
    rw [Stmt.visits, hnamed] at hadmits ⊢
    have hchoices := fun n => ih n us _ h σ _ 0 hhome hm hhomeNames hadmits
    constructor
    · intro out hrun
      obtain ⟨_, hchoice, rfl⟩ := runs_call hcallee hrun
      obtain ⟨r, hr, halike⟩ := (hchoices _).forth _ hchoice
      exact ⟨r, Plan.ends_choose.2 hr, halike.leave hs⟩
    · intro r hr
      obtain ⟨out, hrun, halike⟩ := (hchoices _).back r (Plan.ends_choose.1 hr)
      exact ⟨_, .callTable hcallee hrun, halike.leave hs⟩
  | callControl hassert hx hfind _ ih =>
    intro us env h σ names hs hm hnames hadmits
    have hscope := Scope.callee?_of_control hassert hx hfind
    obtain ⟨_, hnamed, _ | _ | _ | hrootNames⟩ := hnames.callee?_eq_some hscope
    obtain ⟨_, hcallee, _ | _ | _ | hroot⟩ := hs.callee?_eq_some hscope
    rw [Stmt.visits, hnamed] at hadmits ⊢
    exact agree_called hs (fun _ => ⟨runs_call hcallee, .callControl hcallee⟩)
      (ih us _ env h σ _ hroot hs hm hrootNames hadmits)
  | action hbound _ hbind hfill _ ih => exact simulates_action hbound hbind hfill ih
  | control _ hbound _ hbind hfill hlocals _ ih =>
    exact simulates_control hbound hbind hfill hlocals ih
  | arm hresolve h₁ h₂ ih₁ ih₂ => exact simulates_arm hresolve h₁ h₂ ih₁ ih₂
  | miss hnone =>
    intro site us env h σ names i hs hm hnames hadmits
    constructor
    · intro out hrun
      cases hrun with
      | miss =>
        exact ⟨_, Arms.ends_cons.2 (.inl ⟨rfl, Plan.ends_skip.2 rfl⟩), .done prefix_rfl hm trivial⟩
      | default hsome => cases hnone.symm.trans hsome
    · intro r hr
      obtain ⟨-, hr⟩ := (Arms.ends_cons.1 hr).resolve_right Arms.not_ends_nil
      obtain rfl := Plan.ends_skip.1 hr
      exact ⟨_, .miss hnone, .done prefix_rfl hm trivial⟩
  | default hsome hresolve _ ih => exact simulates_default hsome hresolve ih

theorem ElaboratesControl.simulates (h : ElaboratesControl depth ctx globals d a c)
    (hglobals : globals.Models time [] env)
    (hadmits : Admits time (Callee.visits (depth + 1) (.control d env))) (σ : State) : Agree
      (fun out => ∃ y : List Slot × Heap,
        PassesAll env env [] (d.params.map fun x => (x, none)) y.1 y.2 ∧
        ∃ z : Environment × Heap, DeclaresAll time (slotFrame y.1 :: env) y.2 d.locals z.1 z.2 ∧
          Runs time ([] :: z.1) z.2 (.statements 0 d.body.statements) out) (a.Ends (.free .all) σ)
      (Alike (fun _ _ => True) [] 0 c.uid (Callee.visits (depth + 1) (.control d env))) := by
  cases h with
  | @mk inputs s₁ c₁ locals s₂ c₂ body c₃ hinputs hlocals hbody =>
    have hvisits : Callee.visits (depth + 1) (.control d env) = _ ++ _ :=
      congrArg _ (visits_block d.body)
    rw [hvisits] at hadmits ⊢
    obtain ⟨hadmits₁, hadmits₂⟩ := hadmits.append
    have hnames := hinputs.names (globals.env_enter _ _) hglobals.names.enter
    have hpass := hinputs.agree [] hglobals.enter (Mirrors.nil 0 σ)
    refine (hpass.bind ?_).congr (fun _ => .rfl) fun _ =>
      Plan.ends_seq_of_targets hinputs.straight.targets
    rintro ⟨slots, h₁⟩ ρ ⟨us₁, hus₁, hm₁, hs₁⟩
    have hdeclares := hlocals.agree hs₁ hm₁ hnames hadmits₁
    refine (hdeclares.bind ?_).congr (fun _ => .rfl) fun _ =>
      Plan.ends_seq_of_targets hlocals.straight.targets
    rintro ⟨env₂, h₂⟩ ρ' ⟨us₂, hus₂, hm₂, hs₂⟩
    have hagree := hbody.simulates us₂ _ h₂ ρ' _ 0 hs₂.enter hm₂ (hlocals.names hnames).enter hadmits₂
    refine hagree.imp fun _ _ halike => (halike.after nil_prefix).right ?_
    have hlocal := target_locals hlocals (paramFrame d.params :: env) 0
    rwa [hinputs.straight.target] at hlocal

end Elaborate

end ControlReach
