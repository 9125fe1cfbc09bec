import ControlReach.Proofs.Elaboration
import ControlReach.Proofs.ScopeContents

/-!
# Elaborations without failures

An elaboration that records no failure is one of `Elaborates`, and what it builds is the layout of
the plan. The proof follows the elaboration step by step.
-/

namespace ControlReach

open Builder List Runs Build

/-! ### Elementary steps -/

namespace Build

def withLayout (st : Build) (l : Layout) : Build :=
  { st with blocks := l.blocks, current := l.current, targets := l.targets, sites := l.sites }

@[simp] theorem layout_withLayout (st : Build) (l : Layout) : (st.withLayout l).layout = l := rfl

end Build

namespace Builder

theorem Runs.openFrom {α : Type} {st st' : Build} {i : Nat} {label : String} {kind : EdgeKind}
    {guard : Option Rvalue} {f : Nat → Builder α} {b : α} (h : Runs (do
      let j ← newBlock label
      connect i j kind guard
      setCurrent j
      f j) st b st') :
    Runs (f st.layout.size) (st.withLayout (st.layout.openFrom i label kind guard)) b st' :=
  ((h.step rfl).step rfl).step rfl

theorem runs_enterBody :
    Runs (enterBody ctx q loc) st ctx' st' ↔ ctx.recursion? q = none ∧
      Elaborate.inside ctx q = ctx' ∧ { st with inlined := noting q st.inlined } = st' := by
  unfold enterBody
  cases ctx.recursion? q with
  | some cycle => exact ⟨fun h => absurd h not_runs_fail, nofun⟩
  | none =>
    refine ⟨fun h => ⟨rfl, h.eq_of_run rfl⟩, ?_⟩
    rintro ⟨-, rfl, rfl⟩
    rfl

end Builder

/-! ### Elaborations without failures -/

/-- A construction has changed its layout, and given out numbers up to the given ones. -/
structure Build.Lays (st : Build) (lay : Layout → Layout) (c : Counters) (st' : Build) : Prop where
  layout : st'.layout = lay st.layout
  counters : st'.counters = c

variable {a : Plan}

theorem Build.Lays.seq {st : Build} {b : Plan} (h₁ : st.Lays a.lay c₁ st₁)
    (h₂ : st₁.Lays b.lay c₂ st₂) : st.Lays (Plan.seq a b).lay c₂ st₂ := by
  refine ⟨?_, h₂.counters⟩
  rw [h₂.layout, h₁.layout, Plan.lay]

theorem Build.lays_skip (st : Build) : st.Lays Plan.skip.lay st.counters st := ⟨rfl, rfl⟩

theorem Build.lays_op (st : Build) (op : Op) :
    st.Lays (Plan.op op).lay st.counters (st.withLayout (st.layout.emit op)) := ⟨rfl, rfl⟩

namespace Elaborate

variable {st st' : Build} {ctx : Context}

theorem declaresVariable_of_runs (h : Runs (declareVariable ctx s d) st s' st') :
    ∃ a c, DeclaresVariable ctx s d st.counters a s' c ∧ st.Lays a.lay c st' := by
  unfold declareVariable at h
  obtain ⟨ty, hty, h⟩ := h.checked
  cases hinitial : d.initial with
  | none =>
    rw [hinitial] at h
    replace h := (h.step rfl).step rfl
    obtain ⟨s₁, hs, h⟩ := h.checked
    obtain ⟨rfl, rfl⟩ := h.eq_of_run rfl
    exact ⟨_, _, .arbitrary hty hinitial hs, rfl, rfl⟩
  | some e =>
    rw [hinitial] at h
    obtain ⟨value, st₁, hvalue, h⟩ := h.bind
    cases hlower : s.lowerAs ty e d.loc with
    | error why =>
      rw [hlower] at hvalue
      cases hvalue
    | ok lowered =>
      rw [hlower] at hvalue
      cases hvalue
      replace h := h.step rfl
      obtain ⟨s₁, hs, h⟩ := h.checked
      obtain ⟨rfl, rfl⟩ := h.eq_of_run rfl
      exact ⟨_, _, .initial hty hinitial hlower hs, rfl, rfl⟩

theorem declaresConstant_of_runs (h : Runs (declareConstant s d) st s' st') :
    DeclaresConstant s d s' ∧ st = st' := by
  obtain ⟨ty, hty, h⟩ := h.checked
  obtain ⟨value, hvalue, h⟩ := h.checked
  obtain ⟨hs, rfl⟩ := h.check
  exact ⟨.mk hty hvalue hs, rfl⟩

theorem declaresName_of_runs : ∀ {x}, Runs (declareLocal ctx s x) st s' st' →
    st'.errors = [] → (∃ d, x = .variable d ∧ Runs (declareVariable ctx s d) st s' st') ∨
      DeclaresName s x s' ∧ st = st'
  | .variable d, h, _ => .inl ⟨d, rfl, h⟩
  | .constant d, h, _ => by
    obtain ⟨hd, rfl⟩ := declaresConstant_of_runs h
    exact .inr ⟨.constant hd, rfl⟩
  | .action d, h, _ => by
    obtain ⟨hd, rfl⟩ := check h
    exact .inr ⟨.action hd, rfl⟩
  | .table d, h, he => by
    obtain ⟨s₁, hs, h⟩ := checked h
    obtain ⟨_, st₁, hcheck, h⟩ := h.bind
    obtain ⟨rfl, rfl⟩ := h.pure
    obtain ⟨htable, rfl⟩ := (hcheck.recorded he).check
    exact .inr ⟨.table hs htable, rfl⟩
  | .inst d, h, _ => by
    obtain ⟨hd, rfl⟩ := check h
    exact .inr ⟨.inst hd, rfl⟩
  | .other _ _, h, _ => absurd h not_runs_fail

theorem declaresLocals_of_runs (h : Runs (declareLocals ctx s l) st s' st') (he : st'.errors = []) :
    ∃ a c, DeclaresLocals ctx s l st.counters a s' c ∧ st.Lays a.lay c st' := by
  induction l generalizing s st with
  | nil =>
    obtain ⟨rfl, rfl⟩ := (step h rfl).pure
    exact ⟨_, _, .nil, rfl, rfl⟩
  | cons x l ih =>
    obtain ⟨s₁, st₁, hx, h⟩ := bind h
    have he₁ := (steady_declareLocals ctx l s₁).keeps.errors_eq_nil h he
    obtain ⟨b, c₂, hrest, hlays⟩ := ih h
    obtain ⟨d, rfl, hd⟩ | ⟨hname, rfl⟩ := declaresName_of_runs (hx.recorded he₁) he₁
    · obtain ⟨a, c₁, hd, hlays₁⟩ := declaresVariable_of_runs hd
      rw [hlays₁.counters] at hrest
      exact ⟨_, _, .declare hd hrest, hlays₁.seq hlays⟩
    · exact ⟨_, _, .name hname hrest, hlays⟩

/-! ### Parameters -/

theorem bindsFormal_of_runs :
    ∀ {x}, Runs (bindFormal ctx home caller loc x) st f st' →
      BindsFormal ctx home caller loc st.nextUid x f ∧ { st with nextUid := st.nextUid + 1 } = st'
  | (p, none), h | (p, some (.any name argLoc)), h => by
    obtain ⟨ty, hty, h⟩ := checked h
    obtain ⟨rfl, rfl⟩ := h.eq_of_run rfl
    exact ⟨.arbitrary hty (by simp), rfl⟩
  | (p, some (.given e name argLoc)), h => by
    obtain ⟨ty, hty, h⟩ := checked h
    replace h := h.step rfl
    dsimp only at h
    by_cases hro : p.direction.readOnly = true
    · rw [if_pos hro] at h
      obtain ⟨value, hvalue, h⟩ := h.checked
      obtain ⟨rfl, rfl⟩ := h.pure
      exact ⟨.input hty hro hvalue, rfl⟩
    · rw [if_neg hro] at h
      obtain ⟨⟨target, path, targetTy⟩, hplace, h⟩ := h.checked
      by_cases hagrees : ty.agrees targetTy = true
      · simp only [hagrees, Bool.not_true, Bool.false_eq_true, if_false] at h
        by_cases hinout : p.direction = .inout
        · rw [if_pos hinout] at h
          obtain ⟨value, hvalue, h⟩ := h.checked
          obtain ⟨rfl, rfl⟩ := h.pure
          exact ⟨.inout hty hinout hplace hagrees hvalue, rfl⟩
        · rw [if_neg hinout] at h
          obtain ⟨rfl, rfl⟩ := h.pure
          have hout : p.direction = .output := by
            cases hd : p.direction <;> simp_all [Direction.readOnly]
          exact ⟨.output hty hout hplace hagrees, rfl⟩
      · simp only [hagrees, Bool.not_false, if_true] at h
        exact absurd h not_runs_fail

theorem bindsFormals_of_runs {bound : List (Parameter × Option Argument)}
    (h : Runs (bound.mapM (bindFormal ctx home caller loc)) st formals st') :
    BindsFormals ctx home caller loc st.nextUid bound formals ∧
      { st with nextUid := st.nextUid + formals.length } = st' := by
  induction bound generalizing formals st with
  | nil =>
    rw [mapM_nil] at h
    obtain ⟨rfl, rfl⟩ := h.pure
    exact ⟨.nil, rfl⟩
  | cons x bound ih =>
    obtain ⟨f, rest, st₁, rfl, hx, h⟩ := h.mapM_cons
    obtain ⟨hf, rfl⟩ := bindsFormal_of_runs hx
    obtain ⟨hrest, rfl⟩ := ih h
    refine ⟨.cons hf hrest, ?_⟩
    simp [Nat.add_assoc, Nat.add_comm 1]

theorem fillsFormals_of_runs (h : Runs (declareFormals loc s formals) st s' st') :
    ∃ a n, FillsFormals loc s formals st.nextFresh a s' n ∧
      st.Lays a.lay { st.counters with fresh := n } st' := by
  induction formals generalizing s st with
  | nil =>
    obtain ⟨rfl, rfl⟩ := pure h
    exact ⟨_, _, .nil, rfl, rfl⟩
  | cons f formals ih =>
    unfold declareFormals at h
    cases hcopy : f.copyIn with
    | none =>
      simp only [hcopy] at h
      obtain ⟨s₁, hs, h⟩ := (h.step rfl).checked
      obtain ⟨a, n, hrest, hlays⟩ := ih h
      exact ⟨_, _, .arbitrary hcopy hs hrest, hlays.layout, hlays.counters⟩
    | some op =>
      simp only [hcopy] at h
      obtain ⟨s₁, hs, h⟩ := (h.step rfl).checked
      obtain ⟨a, n, hrest, hlays⟩ := ih h
      exact ⟨_, _, .copy hcopy hs hrest, hlays.layout, hlays.counters⟩

theorem lays_of_runs_copyBack (h : Runs (copyBack formals loc) st u st') :
    st.Lays (backPlan loc formals).lay st.counters st' ∧ st'.errors = st.errors := by
  induction formals generalizing st with
  | nil =>
    obtain ⟨-, rfl⟩ := pure h
    exact ⟨⟨rfl, rfl⟩, rfl⟩
  | cons f formals ih =>
    unfold copyBack at h
    obtain ⟨st₁, hf, h⟩ := h.forM_cons
    unfold backPlan
    cases hcopy : f.copyOut with
    | none =>
      rw [hcopy] at hf
      obtain ⟨-, rfl⟩ := hf.pure
      exact ih h
    | some place =>
      rw [hcopy] at hf
      obtain ⟨-, rfl⟩ := hf.eq_of_run rfl
      obtain ⟨hlays, herrors⟩ := ih h
      exact ⟨(st.lays_op _).seq hlays, herrors⟩

/-! ### Conditions -/

section

theorem branchCondition_eq_ok (h : branchCondition s e loc = .ok r) :
    s.typeOf none e = .ok .bool ∧ s.lower e = .ok r := by
  obtain ⟨ty, hty, h⟩ := bind_eq_ok.1 h
  cases ty with
  | bool => exact ⟨hty, h⟩
  | string | struct => cases h

theorem assertionGuard_eq_ok (h : assertionGuard s kind e loc = .ok r) :
    s.typeOf none e = .ok .bool ∧ s.lower e = .ok r := by
  obtain ⟨ty, hty, h⟩ := bind_eq_ok.1 h
  cases ty with
  | bool => exact ⟨hty, h⟩
  | string | struct => cases h

theorem assertionCondition_eq_ok (h : assertionCondition kind args loc = .ok condition) : kind =
    .bug ∧ condition = none ∨ kind ≠ .bug ∧ ∃ e name argLoc, condition = some e ∧ args = [.given e
    name argLoc] := by
  unfold assertionCondition at h
  split at h
  · cases h
    exact .inl ⟨rfl, rfl⟩
  · cases h
  · rename_i hkind
    split at h
    · cases h
      exact .inr ⟨by rintro rfl; exact hkind rfl, _, _, _, rfl, rfl⟩
    · split at h
      · cases h
        exact .inr ⟨by rintro rfl; exact hkind rfl, _, _, _, rfl, rfl⟩
      · cases h
  · cases h

end

/-! ### Branches -/

/-- A job is elaborated to a plan, which is laid out. -/
abbrev Performs (depth : Nat) (job : Job) (st st' : Build) : Prop :=
  ∃ a c, Elaborates depth job st.counters (.plan a) c ∧ st.Lays a.lay c st'

def CallHandler.Elaborates (handle : CallHandler) (depth : Nat) : Prop :=
  ∀ ctx s callee args callLoc loc st st', Runs (handle ctx s callee args callLoc loc) st () st' →
    st'.errors = [] → Performs depth (.statement ctx s (.call callee args callLoc loc) s) st st'

section Handler

variable {handle : CallHandler}

theorem lays_ifThen (h : (st.withLayout (st.layout.openThen condition)).Lays a.lay c st₁) :
    st.Lays (Plan.ifThen condition a).lay c
      (st₁.withLayout (st₁.layout.closeThen st.layout.current condition)) := by
  refine ⟨?_, ?_⟩
  · rw [layout_withLayout, Plan.lay, h.layout, layout_withLayout]
  · rw [← h.counters]
    rfl

theorem lays_ifElse {b : Plan}
    (h₁ : (st.withLayout (st.layout.openThen condition)).Lays a.lay c₁ st₁)
    (h₂ : (st₁.withLayout (st₁.layout.openElse st.layout.current condition)).Lays b.lay c₂ st₂) :
    st.Lays (Plan.ifElse condition a b).lay c₂
      (st₂.withLayout (st₂.layout.closeElse st₁.layout.current st₁.layout.size)) := by
  refine ⟨?_, ?_⟩
  · rw [layout_withLayout, Plan.lay, h₂.layout, layout_withLayout, h₁.layout,
      layout_withLayout]
  · rw [← h₂.counters]
    rfl

/-! ### Calls -/

variable {s : Scope} {name : String} {site : TableSite} {join start : Nat}
  {kind : AssertionKind}

theorem fills_of_runs {callee : Scope} {kind : FrameKind}
    {bound : List (Parameter × Option Argument)} {ctx' : Context} {st₃ : Build}
    (henter : Runs (enterBody ctx q loc) st ctx' st₁)
    (hformals : Runs (bound.mapM (bindFormal ctx' home caller loc)) st₁ formals st₂)
    (hfill : Runs (declareFormals loc (home.enter kind name) formals) st₂ callee st₃) :
    ctx.recursion? q = none ∧ inside ctx q = ctx' ∧
      BindsFormals ctx' home caller loc st.counters.uid bound formals ∧
      ∃ fill fresh, FillsFormals loc (home.enter kind name) formals st.counters.fresh fill callee
        fresh ∧ st.Lays fill.lay { st.counters with
          uid := st.counters.uid + formals.length, fresh, inlined := noting q st.inlined } st₃ := by
  obtain ⟨hq, hctx, rfl⟩ := runs_enterBody.1 henter
  obtain ⟨hbinds, rfl⟩ := bindsFormals_of_runs hformals
  obtain ⟨fill, fresh, hfill, hlays⟩ := fillsFormals_of_runs hfill
  exact ⟨hq, hctx, hbinds, fill, fresh, hfill, hlays.layout, hlays.counters⟩

/-- The state in which a choice of a table begins. -/
def atChoice (st : Build) (name : String) (site : TableSite) (start : Nat) (kind : EdgeKind)
    (label : String) : Build :=
  st.withLayout (st.layout.openArm name site start label kind)

theorem counters_atChoice (st : Build) (name : String) (site : TableSite) (start : Nat)
    (kind : EdgeKind) (label : String) :
    (atChoice st name site start kind label).counters = st.counters :=
  congrArg (fun n => { st.counters with site := n })
    (length_modify _ _ _)

theorem runs_choice {label : String} {kind : EdgeKind} {x : Builder Unit}
    (h : Runs (do
      addLabel site.id label
      let entry ← newBlock (name ++ "." ++ label)
      connect start entry kind (some (site.guard label))
      setCurrent entry
      x
      connect (← current) join .fallthrough none) st u st') :
    ∃ st₁, Runs x (atChoice st name site start kind label) () st₁ ∧
      st₁.withLayout (st₁.layout.leaveTo join) = st' := by
  obtain ⟨_, st₁, hx, h⟩ := (h.step rfl).openFrom.bind
  obtain ⟨-, rfl⟩ := h.eq_of_run rfl
  exact ⟨st₁, hx, rfl⟩

theorem laysArms_cons {label : String} {kind : EdgeKind} {arms : Arms}
    (h₁ : (atChoice st name site start kind label).Lays a.lay c₁ st₁)
    (h₂ : (st₁.withLayout (st₁.layout.leaveTo join)).Lays (arms.lay name site start join) c₂ st₂) :
    st.Lays ((Arms.cons label kind a arms).lay name site start join) c₂ st₂ := by
  refine ⟨?_, h₂.counters⟩
  rw [h₂.layout, Arms.lay, layout_withLayout, h₁.layout, atChoice, layout_withLayout]

theorem elaborates_assertion (hkind : s.assertion? callee = some kind)
    (h : Runs (assertion ctx s kind args callLoc (Location.orElse loc callLoc)) st u st') :
    Performs (depth + 1) (.statement ctx s (.call callee args callLoc loc) s) st st' := by
  obtain ⟨condition, hcondition, h⟩ := checked h
  have htargets : ∀ t : Target, (st.targets ++ [t]).length = st.counters.target + 1 := by
    simp [counters]
  cases kind with
  | bug =>
    obtain ⟨-, rfl⟩ := (assertionCondition_eq_ok hcondition).resolve_right fun h => h.1 rfl
    obtain ⟨-, rfl⟩ := h.eq_of_run rfl
    refine ⟨_, _, .bug hkind hcondition, rfl, ?_⟩
    exact congrArg (fun n => { st.counters with target := n }) (htargets _)
  | assert =>
    obtain ⟨⟨⟩, -⟩ | ⟨-, e, -, -, rfl, -⟩ := assertionCondition_eq_ok hcondition
    obtain ⟨guard, hguard, h⟩ := h.checked
    obtain ⟨-, rfl⟩ := h.eq_of_run rfl
    refine ⟨_, _, .assert hkind hcondition hguard, rfl, ?_⟩
    exact congrArg (fun n => { st.counters with target := n }) (htargets _)
  | assume =>
    obtain ⟨⟨⟩, -⟩ | ⟨-, e, -, -, rfl, -⟩ := assertionCondition_eq_ok hcondition
    obtain ⟨guard, hguard, h⟩ := h.checked
    obtain ⟨-, rfl⟩ := h.eq_of_run rfl
    exact ⟨_, _, .assume hkind hcondition hguard, st.lays_op _⟩

/-! ### Statements -/

variable (hkeeps : handle.Keeps) (hhandle : handle.Elaborates depth)

include hkeeps hhandle

set_option linter.unusedSectionVars false in
mutual

theorem elaborates_statement : ∀ x ctx s s' st st',
      Runs (statement handle ctx s x) st s' st' → st'.errors = [] →
      Performs depth (.statement ctx s x s') st st'
  | .block body, ctx, s, s', st, st', h, he => by
    obtain ⟨_, st₁, hbody, h⟩ := bind h
    obtain ⟨rfl, rfl⟩ := h.pure
    obtain ⟨a, c, helab, hlays⟩ := elaborates_block body ctx s st st₁ hbody he
    exact ⟨a, c, .block helab, hlays⟩
  | .branch e yes none loc, ctx, s, s', st, st', h, he => by
    obtain ⟨guard, hguard, h⟩ := checked h
    obtain ⟨_, st₁, hyes, h⟩ := (h.step rfl).openFrom.bind
    obtain ⟨rfl, rfl⟩ := h.eq_of_run rfl
    obtain ⟨a, c, helab, hlays⟩ := elaborates_block yes ctx s _ st₁ hyes he
    exact ⟨_, _, .ifThen hguard helab, lays_ifThen hlays⟩
  | .branch e yes (some no) loc, ctx, s, s', st, st', h, he => by
    obtain ⟨guard, hguard, h⟩ := checked h
    obtain ⟨_, st₁, hyes, h⟩ := (h.step rfl).openFrom.bind
    obtain ⟨_, st₂, hno, h⟩ :=
      ((h.step rfl).step rfl).openFrom.bind
    obtain ⟨rfl, rfl⟩ := h.eq_of_run rfl
    have he₁ := (keeps_block hkeeps no ctx s).errors_eq_nil hno he
    obtain ⟨a, c₁, hyes, hlays₁⟩ := elaborates_block yes ctx s _ st₁ hyes he₁
    obtain ⟨b, c₂, hno, hlays₂⟩ := elaborates_block no ctx s _ st₂ hno he
    exact ⟨_, _, .ifElse hguard hyes (hlays₁.counters ▸ hno), lays_ifElse hlays₁ hlays₂⟩
  | .assign target value loc, ctx, s, s', st, st', h, _ => by
    obtain ⟨_, st₁, hassign, h⟩ := bind h
    obtain ⟨rfl, rfl⟩ := h.pure
    obtain ⟨⟨v, path, ty⟩, hplace, hassign⟩ := checked hassign
    obtain ⟨e, hvalue, hassign⟩ := hassign.checked
    obtain ⟨-, rfl⟩ := hassign.eq_of_run rfl
    exact ⟨_, _, .assign hplace hvalue, st.lays_op _⟩
  | .call callee args callLoc loc, ctx, s, s', st, st', h, he => by
    obtain ⟨_, st₁, hcall, h⟩ := bind h
    obtain ⟨rfl, rfl⟩ := h.pure
    exact hhandle ctx s callee args callLoc loc st st₁ hcall he
  | .variable d, ctx, s, s', st, st', h, _ => by
    obtain ⟨a, c, hd, hlays⟩ := declaresVariable_of_runs h
    exact ⟨a, c, .declare hd, hlays⟩
  | .constant d, _, _, _, st, _, h, _ => by
    obtain ⟨hd, rfl⟩ := declaresConstant_of_runs h
    exact ⟨_, _, .constant hd, st.lays_skip⟩
  | .other _ _, _, _, _, _, _, h, _ => absurd h not_runs_fail

theorem elaborates_statements : ∀ l ctx s st st',
      Runs (statements handle ctx s l) st () st' → st'.errors = [] →
      Performs depth (.statements ctx s l) st st'
  | [], ctx, s, st, st', h, _ => by
    obtain ⟨-, rfl⟩ := pure h
    exact ⟨_, _, .nil, st.lays_skip⟩
  | x :: l, ctx, s, st, st', h, he => by
    obtain ⟨s₁, st₁, hx, h⟩ := bind h
    have he₁ := Keeps.errors_eq_nil (congruence_keeps.statements hkeeps rfl l s₁) h he
    obtain ⟨a, c₁, hx, hlays₁⟩ :=
      elaborates_statement x ctx s s₁ st st₁ (hx.recorded he₁) he₁
    obtain ⟨b, c₂, hl, hlays₂⟩ := elaborates_statements l ctx s₁ st₁ st' h he
    rw [hlays₁.counters] at hl
    exact ⟨_, _, .cons hx hl, hlays₁.seq hlays₂⟩

theorem elaborates_block : ∀ b ctx s st st',
      Runs (block handle ctx s b) st () st' → st'.errors = [] →
      Performs depth (.statements ctx (s.enter .block "") b.statements) st st'
  | .mk l _, ctx, _, st, st', h, he => elaborates_statements l ctx _ st st' h he

end

theorem elaborates_action {a : PendingAction} {unbound : Unbound}
    (h : Runs (inlineAction handle ctx a args caller loc unbound) st u st') (he : st'.errors = []) :
    Performs depth (.action ctx a args caller loc unbound) st st' := by
  obtain ⟨bound, hbound, h⟩ := checked h
  obtain ⟨ctx', st₁, henter, h⟩ := h.bind
  obtain ⟨formals, st₂, hformals, h⟩ := h.bind
  obtain ⟨callee, st₃, hfill, h⟩ := h.bind
  obtain ⟨_, st₄, hbody, hback⟩ := h.bind
  obtain ⟨hlays₃, herrors₃⟩ := lays_of_runs_copyBack hback
  obtain ⟨hq, rfl, hformals, fill, fresh, hfill, hlays₁⟩ := fills_of_runs henter hformals hfill
  obtain ⟨body, c, hbody, hlays₂⟩ :=
    elaborates_block hkeeps hhandle _ _ _ _ _ hbody (herrors₃.symm.trans he)
  rw [hlays₁.counters] at hbody
  rw [hlays₂.counters] at hlays₃
  exact ⟨_, _, .action hbound hq hformals hfill hbody, hlays₁.seq (hlays₂.seq hlays₃)⟩

theorem elaborates_control (h : Runs (inlineControl handle ctx d args caller loc) st u st')
    (he : st'.errors = []) : Performs depth (.control ctx d args caller loc) st st' := by
  obtain ⟨_, hdirections, h⟩ := checked h
  obtain ⟨bound, hbound, h⟩ := h.checked
  obtain ⟨ctx', st₁, henter, h⟩ := h.bind
  obtain ⟨formals, st₂, hformals, h⟩ := h.bind
  obtain ⟨callee, st₃, hfill, h⟩ := h.bind
  obtain ⟨callee', st₄, hlocals, h⟩ := h.bind
  obtain ⟨_, st₅, hbody, hback⟩ := h.bind
  obtain ⟨hlays₄, herrors₄⟩ := lays_of_runs_copyBack hback
  obtain ⟨hq, rfl, hformals, fill, fresh, hfill, hlays₁⟩ := fills_of_runs henter hformals hfill
  have he₅ : st₅.errors = [] := herrors₄.symm.trans he
  have he₄ : st₄.errors = [] := (keeps_block hkeeps _ _ _).errors_eq_nil hbody he₅
  obtain ⟨locals, c₁, hlocals, hlays₂⟩ := declaresLocals_of_runs hlocals he₄
  obtain ⟨body, c, hbody, hlays₃⟩ := elaborates_block hkeeps hhandle _ _ _ _ _ hbody he₅
  rw [hlays₁.counters] at hlocals
  rw [hlays₂.counters] at hbody
  rw [hlays₃.counters] at hlays₄
  exact ⟨_, _, .control hdirections hbound hq hformals hfill hlocals hbody,
    hlays₁.seq (hlays₂.seq (hlays₃.seq hlays₄))⟩

theorem elaborates_miss (h : Runs (tableMiss handle ctx table home site start join loc) st u st')
    (he : st'.errors = []) :
    ∃ arms c, Elaborates depth (.arms ctx table home loc []) st.counters (.arms arms) c ∧
      st.Lays (arms.lay table.name site start join) c st' := by
  obtain ⟨st₁, hdefault, rfl⟩ := runs_choice h
  have he₁ : st₁.errors = [] := he
  have hcounters := counters_atChoice st table.name site start .tableMiss TableSite.miss
  unfold runDefault at hdefault
  cases htable : table.defaultAction with
  | none =>
    rw [htable] at hdefault
    obtain ⟨-, rfl⟩ := hdefault.pure
    refine ⟨_, _, .miss htable, laysArms_cons (lays_skip _) ?_⟩
    exact ⟨rfl, hcounters⟩
  | some ref =>
    rw [htable] at hdefault
    obtain ⟨⟨d, q, actionHome⟩, href, hdefault⟩ := hdefault.checked
    obtain ⟨a, c, haction, hlays⟩ := elaborates_action hkeeps hhandle (hdefault.recorded he₁) he₁
    rw [hcounters] at haction
    refine ⟨_, _, .default htable href haction, laysArms_cons hlays ?_⟩
    exact ⟨rfl, hlays.counters⟩

theorem elaborates_arms {choices : List (ActionRef × ActionDecl × String × Scope)} (hchoices :
    Forall₂ (fun ref choice => ref = choice.1 ∧ resolveAction home ref = .ok choice.2) refs
    choices)
    (h : Runs (choices.forM (tableChoice handle ctx table home site start join loc)) st () st₁)
    (hmiss : Runs (tableMiss handle ctx table home site start join loc) st₁ u st')
    (he : st'.errors = []) :
    ∃ arms c, Elaborates depth (.arms ctx table home loc refs) st.counters (.arms arms) c ∧
      st.Lays (arms.lay table.name site start join) c st' := by
  induction hchoices generalizing st with
  | nil =>
    obtain ⟨-, rfl⟩ := pure h
    exact elaborates_miss hkeeps hhandle hmiss he
  | @cons ref choice refs choices hchoice hrest ih =>
    obtain ⟨ref', d, q, actionHome⟩ := choice
    obtain ⟨rfl, href⟩ := hchoice
    obtain ⟨st₂, hfirst, h⟩ := h.forM_cons
    have hkept := congruence_keeps.tableMiss hkeeps (Eq.refl ctx) table home site start join loc
    have he₁ : st₁.errors = [] := hkept.errors_eq_nil hmiss he
    have he₂ : st₂.errors = [] :=
      Keeps.errors_eq_nil (Moves.forM (congruence_keeps.tableChoice hkeeps (Eq.refl ctx) _ _ _ _ _ _)
        choices) h he₁
    obtain ⟨st₃, haction, rfl⟩ := runs_choice hfirst
    obtain ⟨a, c₁, haction, hlays₁⟩ := elaborates_action hkeeps hhandle (haction.recorded he₂) he₂
    obtain ⟨arms, c₂, harms, hlays₂⟩ := ih h
    have hcounters : (st₃.withLayout (st₃.layout.leaveTo join)).counters = c₁ := hlays₁.counters
    rw [hcounters] at harms
    rw [counters_atChoice] at haction
    exact ⟨_, _, .arm href haction harms, laysArms_cons hlays₁ hlays₂⟩

theorem elaborates_table (h : Runs (applyTable handle ctx table q home args loc) st u st')
    (he : st'.errors = []) : args = [] ∧ ∃ arms c,
      Elaborates depth (.arms ctx table home loc table.actions)
        { st.counters with site := st.counters.site + 1 } (.arms arms) c ∧
      st.Lays (Plan.choose table.name ⟨st.counters.site, q, [], loc⟩ arms).lay c st' := by
  unfold applyTable at h
  by_cases hargs : args = []
  · rw [hargs] at h
    obtain ⟨choices, hchoices, h⟩ := checked h
    replace h := ((h.step rfl).step rfl).step rfl
    obtain ⟨_, st₁, hforM, h⟩ := h.bind
    obtain ⟨_, st₂, hmiss, h⟩ := h.bind
    obtain ⟨-, rfl⟩ := h.eq_of_run rfl
    have hresolved : Forall₂ (fun ref choice => ref = choice.1 ∧
        resolveAction home ref = .ok choice.2) table.actions choices := by
      refine (mapM_eq_ok.1 hchoices).imp fun ref choice hchoice => ?_
      obtain ⟨r, hr, hchoice⟩ := bind_eq_ok.1 hchoice
      obtain rfl := pure_eq_ok.1 hchoice
      exact ⟨rfl, hr⟩
    obtain ⟨arms, c, harms, hlays⟩ := elaborates_arms hkeeps hhandle hresolved hforM hmiss he
    have hcounters : (st.withLayout ((st.layout.newSite q loc).newBlock
        (table.name ++ "-join"))).counters =
        { st.counters with site := st.counters.site + 1 } :=
      congrArg (fun n => { st.counters with site := n })
        length_append
    exact ⟨hargs, arms, c, hcounters ▸ harms,
      congrArg (Layout.goTo · st.layout.size) hlays.layout, hlays.counters⟩
  · have hempty : args.isEmpty = false := by simpa using hargs
    simp only [hempty, Bool.not_false, if_true] at h
    exact absurd h not_runs_fail

theorem elaborates_callName (hnone : s.assertion? (.var x xloc) = none)
    (h : Runs (callName handle ctx s x xloc args (Location.orElse loc callLoc)) st u st')
    (he : st'.errors = []) :
    Performs (depth + 1) (.statement ctx s (.call (.var x xloc) args callLoc loc) s) st st' := by
  obtain ⟨⟨b, home⟩, hfound, h⟩ := checked h
  have hfind := Scope.find?_of_resolveWith hfound
  cases b with
  | action d q =>
    obtain ⟨a, c, haction, hlays⟩ := elaborates_action hkeeps hhandle h he
    exact ⟨a, c, .callAction hnone rfl hfind haction, hlays⟩
  | table d q =>
    obtain ⟨rfl, arms, c, harms, hlays⟩ := elaborates_table hkeeps hhandle h he
    exact ⟨_, c, .callTable hnone rfl hfind harms, hlays⟩
  | _ => exact absurd h not_runs_fail

theorem elaborates_callMethod
    (h : Runs (callMethod handle ctx s x f xloc args (Location.orElse loc callLoc)) st u st')
    (he : st'.errors = []) : Performs (depth + 1)
      (.statement ctx s (.call (.field (.var x xloc) f floc) args callLoc loc) s) st st' := by
  obtain ⟨⟨b, home⟩, hfound, h⟩ := checked h
  have hfind := Scope.find?_of_resolveWith hfound
  by_cases hf : f = "apply"
  · subst hf
    have happlied : (Expr.field (.var x xloc) "apply" floc).applied? = some (x, true) := rfl
    simp only [ne_eq, not_true_eq_false, if_false] at h
    cases b with
    | table d q =>
      obtain ⟨rfl, arms, c, harms, hlays⟩ := elaborates_table hkeeps hhandle h he
      exact ⟨_, c, .callTable rfl happlied hfind harms, hlays⟩
    | inst control =>
      cases control with
      | none => exact absurd h not_runs_fail
      | some d =>
        obtain ⟨a, c, hcontrol, hlays⟩ := elaborates_control hkeeps hhandle h he
        exact ⟨a, c, .callControl rfl happlied hfind hcontrol, hlays⟩
    | _ => exact absurd h not_runs_fail
  · simp only [ne_eq, hf, not_false_eq_true, if_true] at h
    exact absurd h not_runs_fail

end Handler

/-- An elaboration without failures, whatever the depth to which bodies are inlined. -/
theorem elaborates_call (depth : Nat) : (call depth).Elaborates depth := by
  induction depth with
  | zero => exact fun _ _ _ _ _ _ _ _ h _ => absurd h not_runs_fail
  | succ depth ih =>
    intro ctx s callee args callLoc loc st st' h he
    unfold call at h
    dsimp only at h
    cases hkind : s.assertion? callee with
    | some kind =>
      rw [hkind] at h
      exact elaborates_assertion hkind h
    | none =>
      rw [hkind] at h
      dsimp only at h
      split at h
      · exact elaborates_callName (keeps_call depth) ih hkind h he
      · exact elaborates_callMethod (keeps_call depth) ih h he
      · exact absurd h not_runs_fail

/-! ### Whole controls -/

theorem bindsInputs_of_runs (h : Runs (bindInputs s l) st s' st') (he : st'.errors = []) :
    ∃ a c, BindsInputs s l st.counters a s' c ∧ st.Lays a.lay c st' := by
  induction l generalizing s st with
  | nil =>
    obtain ⟨rfl, rfl⟩ := pure h
    exact ⟨_, _, .nil, rfl, rfl⟩
  | cons p l ih =>
    obtain ⟨bound, st₁, hbound, h⟩ := bind h
    have he₁ : st₁.errors = [] := by
      refine Keeps.errors_eq_nil ?_ h he
      split
      · exact (steady_bindInputs l _).keeps
      · exact Steady.keeps (Moves.bind (fun _ => ⟨prefix_rfl, rfl⟩) fun _ =>
          (steady_havoc _ _).bind fun _ => steady_bindInputs l _)
    replace hbound := hbound.recorded he₁
    obtain ⟨ty, hty, hbound⟩ := hbound.checked
    replace hbound := hbound.step rfl
    obtain ⟨s₁, hs, hbound⟩ := hbound.checked
    obtain ⟨rfl, rfl⟩ := hbound.pure
    replace h := (step h rfl).step rfl
    obtain ⟨a, c, hrest, hlays⟩ := ih h
    exact ⟨_, _, .cons hty hs hrest, hlays.layout, hlays.counters⟩

theorem detaches_of_runs_forM {depth : Nat} {actions : List PendingAction} {u : Unit}
    (h : Runs (actions.forM (detached depth ctx)) st u st') (he : st'.errors = []) {c : Counters}
    {l : Layout} (hrest : Detaches depth ctx [] st'.counters st'.layout c l) :
    Detaches depth ctx actions st.counters st.layout c l := by
  induction actions generalizing st with
  | nil =>
    obtain ⟨-, rfl⟩ := pure h
    exact hrest
  | cons action actions ih =>
    obtain ⟨st₁, hfirst, h⟩ := h.forM_cons
    have he₁ := Keeps.errors_eq_nil (Moves.forM (congruence_keeps.detached rfl depth) actions) h he
    have hrest := ih h
    replace hfirst := step hfirst rfl
    split at hfirst
    · obtain ⟨-, rfl⟩ := hfirst.pure
      exact .skip ‹_› hrest
    · replace hfirst := ((hfirst.step rfl).step rfl).recorded he₁
      obtain ⟨a, c₁, haction, hlays⟩ :=
        elaborates_action (keeps_call depth) (elaborates_call depth) hfirst he₁
      rw [hlays.counters, hlays.layout] at hrest
      exact .cons ‹_› haction hrest

theorem detaches_of_runs (h : Runs (drain depth ctx (rounds + 1)) st u st') (he : st'.errors = []) :
    Detaches depth ctx st.pending { st.counters with pending := [] } st.layout st'.counters
      st'.layout := by
  induction rounds generalizing st with
  | zero =>
    replace h := (step h rfl).step rfl
    obtain ⟨_, st₁, hround, h⟩ := h.bind
    obtain ⟨-, rfl⟩ := h.pure
    exact detaches_of_runs_forM hround he .nil
  | succ rounds ih =>
    replace h := (step h rfl).step rfl
    obtain ⟨_, st₁, hround, h⟩ := h.bind
    have he₁ := (keeps_drain depth ctx _).errors_eq_nil h he
    exact detaches_of_runs_forM hround he₁ (.round (ih h))

def body (depth : Nat) (ctx : Context) (globals : Scope) (d : ControlDecl) : Builder Unit := do
  let s ← bindInputs (globals.enter .control d.name) d.params
  let s ← declareLocals ctx s d.locals
  block (call depth) ctx s d.body

theorem control_eq (depth : Nat) (ctx : Context) (globals : Scope) (d : ControlDecl) :
    control depth ctx globals d = body depth ctx globals d >>= fun _ => drain depth ctx depth := by
  simp only [control, body, bind_assoc]

theorem elaboratesControl_of_runs (h : Runs (control (depth + 1) ctx globals d) initial u st')
    (he : st'.errors = []) :
    ∃ a st, Runs (body (depth + 1) ctx globals d) initial () st ∧
      ElaboratesControl (depth + 1) ctx globals d a st.counters ∧
      Detaches (depth + 1) ctx st.pending { st.counters with pending := [] } (a.lay .initial)
        st'.counters st'.layout := by
  rw [control_eq] at h
  obtain ⟨_, st, hrun, hdrain⟩ := h.bind
  have he₃ : st.errors = [] := (keeps_drain _ ctx _).errors_eq_nil hdrain he
  obtain ⟨s₁, st₁, hinputs, h⟩ := bind hrun
  obtain ⟨s₂, st₂, hlocals, hbody⟩ := h.bind
  have hkeeps := keeps_call (depth + 1)
  have he₂ : st₂.errors = [] := (keeps_block hkeeps _ _ _).errors_eq_nil hbody he₃
  have he₁ : st₁.errors = [] := (steady_declareLocals ctx _ _).keeps.errors_eq_nil hlocals he₂
  obtain ⟨inputs, c₁, hinputs, hlays₁⟩ := bindsInputs_of_runs hinputs he₁
  obtain ⟨locals, c₂, hlocals, hlays₂⟩ := declaresLocals_of_runs hlocals he₂
  obtain ⟨body, c₃, hbody, hlays₃⟩ :=
    elaborates_block hkeeps (elaborates_call (depth + 1)) _ _ _ _ _ hbody he₃
  rw [hlays₁.counters] at hlocals
  rw [hlays₂.counters, ← hlays₃.counters] at hbody
  have hdetaches := detaches_of_runs hdrain he
  rw [hlays₃.layout, hlays₂.layout, hlays₁.layout] at hdetaches
  exact ⟨_, st, hrun, .mk hinputs hlocals hbody, hdetaches⟩

end Elaborate

theorem Diagnostic.eq_nil_of_distinct (h : distinct l = []) : l = [] := by
  have hkeep : ∀ (l kept : List Diagnostic), kept ≠ [] →
      l.foldl (fun kept d => if kept.any (same d) then kept else d :: kept) kept ≠ [] := by
    intro l
    induction l with
    | nil => exact fun _ hkept => hkept
    | cons d l ih =>
      intro kept hkept
      rw [foldl_cons]
      split
      · exact ih kept hkept
      · exact ih _ (cons_ne_nil _ _)
  cases l with
  | nil => rfl
  | cons d l => exact absurd (reverse_eq_nil_iff.1 h) (hkeep l [d] (cons_ne_nil _ _))

def Build.ofControl (globals : Scope) (calls : Option CallGraph) (d : ControlDecl) : Build :=
  ((Elaborate.control (inlineBound globals) (.initial calls d) globals d).run initial).2

def Build.ofBody (globals : Scope) (calls : Option CallGraph) (d : ControlDecl) : Build :=
  ((Elaborate.body (inlineBound globals) (.initial calls d) globals d).run initial).2

theorem Build.runs_ofControl (h : (FlowGraph.ofControl globals calls d).2 = []) :
    Runs (Elaborate.control (inlineBound globals) (.initial calls d) globals d) initial ()
      (ofControl globals calls d) ∧ (ofControl globals calls d).errors = [] := by
  unfold FlowGraph.ofControl at h
  unfold ofControl Runs
  dsimp only at h ⊢
  rcases hrun : (Elaborate.control (inlineBound globals) (.initial calls d) globals d).run
    initial with ⟨result, st⟩
  rw [hrun] at h
  have hnil := map_eq_nil_iff.1 (Diagnostic.eq_nil_of_distinct h)
  rw [append_eq_nil_iff, append_eq_nil_iff] at hnil
  obtain ⟨⟨herrors, hresult⟩, -⟩ := hnil
  cases result with
  | error why => cases hresult
  | ok u => exact ⟨rfl, herrors⟩

/-- What is built for a control: its plan, and behind it the actions that it never calls. -/
theorem Build.ofControl_spec (h : (FlowGraph.ofControl globals calls d).2 = []) :
    ∃ a, Elaborate.ElaboratesControl (inlineBound globals) (.initial calls d) globals d a
        (ofBody globals calls d).counters ∧
      Elaborate.Detaches (inlineBound globals) (.initial calls d) (ofBody globals calls d).pending
        { (ofBody globals calls d).counters with pending := [] } (a.lay .initial)
        (ofControl globals calls d).counters (ofControl globals calls d).layout := by
  obtain ⟨hrun, herrors⟩ := runs_ofControl h
  obtain ⟨a, st, hbody, hspec⟩ := Elaborate.elaboratesControl_of_runs hrun herrors
  obtain rfl : ofBody globals calls d = st := congrArg Prod.snd hbody
  exact ⟨a, hspec⟩

theorem FlowGraph.backEdges_ofControl (h : (ofControl globals calls d).2 = []) :
    (ofControl globals calls d).1.backEdges = [] := by
  have hnil := map_eq_nil_iff.1 (Diagnostic.eq_nil_of_distinct h)
  have hcyclic : (if (ofControl globals calls d).1.backEdges.isEmpty then []
      else [Diagnostic.of (.cyclicGraph d.name) d.loc]) = [] := (append_eq_nil_iff.1 hnil).2
  split at hcyclic
  · exact isEmpty_iff.1 ‹_›
  · cases hcyclic

end ControlReach
