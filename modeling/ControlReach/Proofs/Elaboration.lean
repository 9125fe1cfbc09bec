import ControlReach.Proofs.Plan
import ControlReach.Proofs.RelatedSteps

/-!
# What is elaborated

An elaboration without failures turns statements into a plan and lays it out. `Elaborates` says
which plan: the checks, the variables, sites and error locations it makes, and the scopes of inlined
bodies.
-/

namespace ControlReach

open Builder Location

/-- The next numbers, the bodies that have been inlined, and the actions left. -/
structure Counters where
  uid : Nat
  fresh : Nat
  site : Nat
  target : Nat
  inlined : List String
  pending : List PendingAction

def Build.counters (st : Build) : Counters :=
  ⟨st.nextUid, st.nextFresh, st.sites.length, st.targets.length, st.inlined, st.pending⟩

def noting (q : String) (names : List String) : List String :=
  if q ∈ names then names else q :: names

theorem mem_noting : x ∈ noting q names ↔ x = q ∨ x ∈ names := by
  unfold noting
  split
  · exact ⟨.inr, fun h => h.elim (fun heq => heq ▸ ‹_›) id⟩
  · exact List.mem_cons

def Scope.actions (s : Scope) : List PendingAction :=
  s.inner.symbols.filterMap fun
    | (_, .action d q) => some ⟨d, q, s⟩
    | _ => none

def Expr.applied? : Expr → Option (String × Bool)
  | .var x _ => some (x, false)
  | .field (.var x _) f _ => if f = "apply" then some (x, true) else none
  | _ => none

namespace Elaborate

/-! ### Declarations -/

def localVariable (ctx : Context) (uid : Nat) (d : VariableDecl) (ty : Ty) : Variable :=
  ⟨uid, d.name, ty, .ordinary, .data, false,
    if ctx.display d.name = "" then d.name else ctx.display d.name⟩

/-- Declaring a variable. -/
inductive DeclaresVariable (ctx : Context) (s : Scope) (d : VariableDecl) (c : Counters) :
    Plan → Scope → Counters → Prop
  | initial {ty e value s'} : s.resolveType d.type = .ok ty → d.initial = some e →
      s.lowerAs ty e d.loc = .ok value →
      s.declare d.name (.variable (localVariable ctx c.uid d ty)) d.loc = .ok s' →
      DeclaresVariable ctx s d c (.op (.assign (localVariable ctx c.uid d ty) [] value d.loc)) s'
        { c with uid := c.uid + 1 }
  | arbitrary {ty s'} : s.resolveType d.type = .ok ty → d.initial = none →
      s.declare d.name (.variable (localVariable ctx c.uid d ty)) d.loc = .ok s' →
      DeclaresVariable ctx s d c (.op (.havoc (localVariable ctx c.uid d ty) c.fresh d.loc)) s'
        { c with uid := c.uid + 1, fresh := c.fresh + 1 }

/-- Declaring a constant. -/
inductive DeclaresConstant (s : Scope) (d : ConstantDecl) : Scope → Prop
  | mk {ty value s'} : s.resolveType d.type = .ok ty → s.lowerAs ty d.value d.loc = .ok value →
      s.declare d.name (.constant (some (ty, value))) d.loc = .ok s' → DeclaresConstant s d s'

/-- Declaring a local that needs no variable. -/
inductive DeclaresName (s : Scope) : Local → Scope → Prop
  | constant {d s'} : DeclaresConstant s d s' → DeclaresName s (.constant d) s'
  | action {d s'} : s.declare d.name (.action d (s.qualified d.name)) d.loc = .ok s' →
      DeclaresName s (.action d) s'
  | table {d s'} : s.declare d.name (.table d (s.qualified d.name)) d.loc = .ok s' →
      checkTable s' d = .ok () → DeclaresName s (.table d) s'
  | inst {d s'} : declareInstance s d = .ok s' → DeclaresName s (.inst d) s'

theorem declareInstance_eq_ok (h : declareInstance s d = .ok s') :
    ∃ control, s.resolve d.typeName d.loc = .ok (.control control) ∧
      s.declare d.name (.inst (some control)) d.loc = .ok s' := by
  obtain ⟨b, hb, h⟩ := bind_eq_ok.1 h
  split at h
  · split at h
    · exact ⟨_, hb, h⟩
    · cases h
  · cases h

/-- Declaring the locals of a control. -/
inductive DeclaresLocals (ctx : Context) :
    Scope → List Local → Counters → Plan → Scope → Counters → Prop
  | nil {s c} : DeclaresLocals ctx s [] c .skip s { c with pending := c.pending ++ s.actions }
  | declare {s d l c a s₁ c₁ b s₂ c₂} : DeclaresVariable ctx s d c a s₁ c₁ →
      DeclaresLocals ctx s₁ l c₁ b s₂ c₂ →
      DeclaresLocals ctx s (.variable d :: l) c (.seq a b) s₂ c₂
  | name {s x l c s₁ b s₂ c₂} : DeclaresName s x s₁ → DeclaresLocals ctx s₁ l c b s₂ c₂ →
      DeclaresLocals ctx s (x :: l) c b s₂ c₂

/-! ### Parameters -/

def formalVariable (display : String) (uid : Nat) (p : Parameter) (ty : Ty) : Variable :=
  ⟨uid, p.name, ty, .parameter, p.direction, p.direction.readOnly,
    if display = "" then p.name else display⟩

/-- A parameter becomes a formal: a value is copied in, a place is copied back to, or neither. -/
inductive BindsFormal (ctx : Context) (home caller : Scope) (loc : Option Location) (uid : Nat) :
    Parameter × Option Argument → Formal → Prop
  | input {p e name argLoc ty value} : home.resolveType p.type = .ok ty →
      p.direction.readOnly = true → caller.lowerAs ty e (orElse argLoc loc) = .ok value →
      BindsFormal ctx home caller loc uid (p, some (.given e name argLoc))
        ⟨p, formalVariable (ctx.display p.name) uid p ty,
          some (.assign (formalVariable (ctx.display p.name) uid p ty) [] value
            (orElse argLoc loc)), none⟩
  | inout {p e name argLoc ty target path targetTy value} : home.resolveType p.type = .ok ty →
      p.direction = .inout → caller.place e = .ok (target, path, targetTy) →
      ty.agrees targetTy = true → caller.lower e = .ok value →
      BindsFormal ctx home caller loc uid (p, some (.given e name argLoc))
        ⟨p, formalVariable (ctx.display p.name) uid p ty,
          some (.assign (formalVariable (ctx.display p.name) uid p ty) [] value
            (orElse argLoc loc)), some (target, path)⟩
  | output {p e name argLoc ty target path targetTy} : home.resolveType p.type = .ok ty →
      p.direction = .output → caller.place e = .ok (target, path, targetTy) →
      ty.agrees targetTy = true →
      BindsFormal ctx home caller loc uid (p, some (.given e name argLoc))
        ⟨p, formalVariable (ctx.display p.name) uid p ty, none, some (target, path)⟩
  | arbitrary {p arg ty} : home.resolveType p.type = .ok ty →
      (∀ e name argLoc, arg ≠ some (.given e name argLoc)) →
      BindsFormal ctx home caller loc uid (p, arg)
        ⟨p, formalVariable (ctx.display p.name) uid p ty, none, none⟩

/-- Parameters become formals with consecutive numbers. -/
inductive BindsFormals (ctx : Context) (home caller : Scope) (loc : Option Location) :
    Nat → List (Parameter × Option Argument) → List Formal → Prop
  | nil {uid} : BindsFormals ctx home caller loc uid [] []
  | cons {uid x bound f formals} : BindsFormal ctx home caller loc uid x f →
      BindsFormals ctx home caller loc (uid + 1) bound formals →
      BindsFormals ctx home caller loc uid (x :: bound) (f :: formals)

theorem BindsFormals.params (h : BindsFormals ctx home caller loc uid bound formals) :
    formals.map Formal.param = bound.map Prod.fst := by
  induction h with
  | nil => rfl
  | cons h _ ih =>
    rw [List.map_cons, List.map_cons, ih]
    cases h <;> rfl

section Arguments

theorem bindNamed_eq_ok : ∀ {named} {bound r},
      bindNamed params callee loc bound named = .ok r → r = bound ++ named
  | [], bound, r, h => by
    cases h
    rw [List.append_nil]
  | (x, arg) :: named, bound, r, h => by
    rw [bindNamed] at h
    split at h
    · cases h
    · split at h
      · cases h
      · rw [bindNamed_eq_ok h, List.append_assoc]
        rfl

theorem bindArguments_eq_ok (h : bindArguments params args callee loc unbound = .ok bound) :
    let positional := args.filter fun a => a.name.isNone
    let named := args.filterMap fun a => a.name.map fun x => (x, a)
    (positional = [] ∨ named = []) ∧ positional.length ≤ params.length ∧
      bound = params.map fun p => (p, ((params.zip positional).foldl
        (fun bound (p, a) => Assoc.set p.name a bound) [] ++ named).lookup p.name) := by
  intro positional named
  rw [bindArguments] at h
  dsimp only at h
  split at h
  · cases h
  · rename_i hmixed
    split at h
    · cases h
    · rename_i hlen
      obtain ⟨b, hb, h⟩ := bind_eq_ok.1 h
      split at h
      · cases h
      · cases h
        rw [bindNamed_eq_ok hb]
        refine ⟨?_, Nat.le_of_not_lt hlen, rfl⟩
        by_contra! hne
        exact hmixed (by simpa [positional, named] using hne)

theorem bindArguments_params (h : bindArguments params args callee loc unbound = .ok bound) :
    bound.map Prod.fst = params := by
  rw [(bindArguments_eq_ok h).2.2, List.map_map]
  exact List.map_id _

end Arguments

/-- Formals are filled and declared from left to right. -/
inductive FillsFormals (loc : Option Location) :
    Scope → List Formal → Nat → Plan → Scope → Nat → Prop
  | nil {s n} : FillsFormals loc s [] n .skip s n
  | copy {s f op formals s₁ n a s₂ n₂} : f.copyIn = some op →
      s.declare f.param.name (.variable f.v) f.param.loc = .ok s₁ →
      FillsFormals loc s₁ formals n a s₂ n₂ →
      FillsFormals loc s (f :: formals) n (.seq (.op op) a) s₂ n₂
  | arbitrary {s f formals s₁ n a s₂ n₂} : f.copyIn = none →
      s.declare f.param.name (.variable f.v) f.param.loc = .ok s₁ →
      FillsFormals loc s₁ formals (n + 1) a s₂ n₂ →
      FillsFormals loc s (f :: formals) n
        (.seq (.op (.havoc f.v n (orElse f.param.loc loc))) a) s₂ n₂

theorem FillsFormals.keeps (h : FillsFormals loc s formals n a s' n') {P : Scope → Prop} (hP : ∀ f
    ∈ formals, ∀ s s', s.declare f.param.name (.variable f.v) f.param.loc = .ok s' → P s → P s')
    (hs : P s) : P s' := by
  induction h with
  | nil => exact hs
  | copy _ hdeclare _ ih | arbitrary _ hdeclare _ ih =>
    obtain ⟨hhere, hP⟩ := List.forall_mem_cons.1 hP
    exact ih hP (hhere _ _ hdeclare hs)

def backPlan (loc : Option Location) : List Formal → Plan
  | [] => .skip
  | f :: formals =>
    match f.copyOut with
    | some (target, path) =>
      .seq (.op (.assign target path (.read f.v) loc)) (backPlan loc formals)
    | none => backPlan loc formals

/-! ### Statements and calls -/

def inside (ctx : Context) (q : String) : Context := { ctx with stack := ctx.stack ++ [q] }

def errorLocation (ctx : Context) (s : Scope) (index : Nat) (kind : AssertionKind)
    (condition : Option Expr) (loc : Option Location) : Target :=
  ⟨ctx.control, index, kind, 0, targetDescription condition, loc, s.visible⟩

/-- What is to be elaborated. -/
inductive Job where
  | statements (ctx : Context) (s : Scope) (l : List Stmt)
  /-- A statement, with the scope after it. -/
  | statement (ctx : Context) (s : Scope) (x : Stmt) (s' : Scope)
  | action (ctx : Context) (a : PendingAction) (args : List Argument) (caller : Scope)
      (loc : Option Location) (unbound : Unbound)
  | control (ctx : Context) (d : ControlDecl) (args : List Argument) (caller : Scope)
      (loc : Option Location)
  /-- The choices of a table application from some of its actions on. -/
  | arms (ctx : Context) (table : TableDecl) (home : Scope) (loc : Option Location)
      (refs : List ActionRef)

/-- What comes out of it. -/
inductive Output where
  | plan (a : Plan)
  | arms (a : Arms)

/-- A job is elaborated without failures, with bodies inlined to the given depth. -/
inductive Elaborates : Nat → Job → Counters → Output → Counters → Prop
  | nil {depth ctx s c} : Elaborates depth (.statements ctx s []) c (.plan .skip) c
  | cons {depth ctx s x s' l c a c₁ b c₂} :
      Elaborates depth (.statement ctx s x s') c (.plan a) c₁ →
      Elaborates depth (.statements ctx s' l) c₁ (.plan b) c₂ →
      Elaborates depth (.statements ctx s (x :: l)) c (.plan (.seq a b)) c₂
  | block {depth ctx s body c a c'} :
      Elaborates depth (.statements ctx (s.enter .block "") body.statements) c (.plan a) c' →
      Elaborates depth (.statement ctx s (.block body) s) c (.plan a) c'
  | ifThen {depth ctx s e guard yes loc c a c'} : branchCondition s e loc = .ok guard →
      Elaborates depth (.statements ctx (s.enter .block "") yes.statements) c (.plan a) c' →
      Elaborates depth (.statement ctx s (.branch e yes none loc) s) c (.plan (.ifThen guard a)) c'
  | ifElse {depth ctx s e guard yes no loc c a c₁ b c₂} : branchCondition s e loc = .ok guard →
      Elaborates depth (.statements ctx (s.enter .block "") yes.statements) c (.plan a) c₁ →
      Elaborates depth (.statements ctx (s.enter .block "") no.statements) c₁ (.plan b) c₂ →
      Elaborates depth (.statement ctx s (.branch e yes (some no) loc) s) c
        (.plan (.ifElse guard a b)) c₂
  | assign {depth ctx s target value v path ty e loc c} : s.place target = .ok (v, path, ty) →
      s.lowerAs ty value loc = .ok e →
      Elaborates depth (.statement ctx s (.assign target value loc) s) c
        (.plan (.op (.assign v path e loc))) c
  | declare {depth ctx s d s' c a c'} : DeclaresVariable ctx s d c a s' c' →
      Elaborates depth (.statement ctx s (.variable d) s') c (.plan a) c'
  | constant {depth ctx s d s' c} : DeclaresConstant s d s' →
      Elaborates depth (.statement ctx s (.constant d) s') c (.plan .skip) c
  | bug {depth ctx s callee args callLoc loc c} : s.assertion? callee = some .bug →
      assertionCondition .bug args callLoc = .ok none →
      Elaborates (depth + 1) (.statement ctx s (.call callee args callLoc loc) s) c
        (.plan (.bug (errorLocation ctx s c.target .bug none (orElse loc callLoc))))
        { c with target := c.target + 1 }
  | assert {depth ctx s callee args callLoc loc e guard c} : s.assertion? callee = some .assert →
      assertionCondition .assert args callLoc = .ok (some e) →
      assertionGuard s .assert e (orElse loc callLoc) = .ok guard →
      Elaborates (depth + 1) (.statement ctx s (.call callee args callLoc loc) s) c
        (.plan (.assert
          (errorLocation ctx s c.target .assert (some e) (orElse loc callLoc)) guard))
        { c with target := c.target + 1 }
  | assume {depth ctx s callee args callLoc loc e guard c} : s.assertion? callee = some .assume →
      assertionCondition .assume args callLoc = .ok (some e) →
      assertionGuard s .assume e (orElse loc callLoc) = .ok guard →
      Elaborates (depth + 1) (.statement ctx s (.call callee args callLoc loc) s) c
        (.plan (.op (.assume guard (orElse loc callLoc)))) c
  | callAction {depth ctx s callee x d q home args callLoc loc c a c'} :
      s.assertion? callee = none → callee.applied? = some (x, false) →
      s.find? x = some (.action d q, home) →
      Elaborates depth (.action ctx ⟨d, q, home⟩ args s (orElse loc callLoc) .none) c
        (.plan a) c' →
      Elaborates (depth + 1) (.statement ctx s (.call callee args callLoc loc) s) c (.plan a) c'
  | callTable {depth ctx s callee x apply d q home callLoc loc c a c'} :
      s.assertion? callee = none → callee.applied? = some (x, apply) →
      s.find? x = some (.table d q, home) →
      Elaborates depth (.arms ctx d home (orElse loc callLoc) d.actions)
        { c with site := c.site + 1 } (.arms a) c' →
      Elaborates (depth + 1) (.statement ctx s (.call callee [] callLoc loc) s) c
        (.plan (.choose d.name ⟨c.site, q, [], orElse loc callLoc⟩ a)) c'
  | callControl {depth ctx s callee x d home args callLoc loc c a c'} :
      s.assertion? callee = none → callee.applied? = some (x, true) →
      s.find? x = some (.inst (some d), home) →
      Elaborates depth (.control ctx d args s (orElse loc callLoc)) c (.plan a) c' →
      Elaborates (depth + 1) (.statement ctx s (.call callee args callLoc loc) s) c (.plan a) c'
  | action {depth ctx d q home args caller loc unbound bound formals c fill callee fresh body c'} :
      bindArguments d.params args d.name loc unbound = .ok bound → ctx.recursion? q = none →
      BindsFormals (inside ctx q) home caller loc c.uid bound formals →
      FillsFormals loc (home.enter .action d.name) formals c.fresh fill callee fresh →
      Elaborates depth (.statements (inside ctx q) (callee.enter .block "") d.body.statements)
        { c with uid := c.uid + formals.length, fresh, inlined := noting q c.inlined } (.plan body)
        c' →
      Elaborates depth (.action ctx ⟨d, q, home⟩ args caller loc unbound) c
        (.plan (.seq fill (.seq body (backPlan loc formals)))) c'
  | control {depth ctx d args caller loc bound formals c fill callee fresh locals callee' c₁ body c₂} :
      checkDirections d loc = .ok () →
      bindArguments d.params args d.name loc .none = .ok bound → ctx.recursion? d.name = none →
      BindsFormals (inside ctx d.name) caller.root caller loc c.uid bound formals →
      FillsFormals loc (caller.root.enter .control d.name) formals c.fresh fill callee fresh →
      DeclaresLocals (inside ctx d.name) callee d.locals
        { c with uid := c.uid + formals.length, fresh, inlined := noting d.name c.inlined } locals
        callee' c₁ →
      Elaborates depth (.statements (inside ctx d.name) (callee'.enter .block "") d.body.statements)
        c₁ (.plan body) c₂ →
      Elaborates depth (.control ctx d args caller loc) c
        (.plan (.seq fill (.seq locals (.seq body (backPlan loc formals))))) c₂
  | arm {depth ctx table home loc ref d q actionHome refs c a c₁ rest c₂} :
      resolveAction home ref = .ok (d, q, actionHome) →
      Elaborates depth (.action ctx ⟨d, q, actionHome⟩ ref.args home (orElse ref.loc loc)
        .data) c (.plan a) c₁ →
      Elaborates depth (.arms ctx table home loc refs) c₁ (.arms rest) c₂ →
      Elaborates depth (.arms ctx table home loc (ref :: refs)) c
        (.arms (.cons ref.name .tableAction a rest)) c₂
  | miss {depth ctx table home loc c} : table.defaultAction = none →
      Elaborates depth (.arms ctx table home loc []) c
        (.arms (.cons TableSite.miss .tableMiss .skip .nil)) c
  | default {depth ctx table home loc ref d q actionHome c a c'} :
      table.defaultAction = some ref → resolveAction home ref = .ok (d, q, actionHome) →
      Elaborates depth (.action ctx ⟨d, q, actionHome⟩ ref.args home (orElse ref.loc loc)
        .data) c (.plan a) c' →
      Elaborates depth (.arms ctx table home loc []) c
        (.arms (.cons TableSite.miss .tableMiss a .nil)) c'

/-! ### Whole controls -/

/-- The parameters of the control that is built become inputs. -/
inductive BindsInputs : Scope → List Parameter → Counters → Plan → Scope → Counters → Prop
  | nil {s c} : BindsInputs s [] c .skip s c
  | cons {s p ty l c s₁ a s₂ c₂} : s.resolveType p.type = .ok ty →
      s.declare p.name (.variable (formalVariable "" c.uid p ty)) p.loc = .ok s₁ →
      BindsInputs s₁ l { c with uid := c.uid + 1, fresh := c.fresh + 1 } a s₂ c₂ →
      BindsInputs s (p :: l) c
        (.seq (.op (.havoc (formalVariable "" c.uid p ty) c.fresh p.loc)) a) s₂ c₂

/-- A control is elaborated without failures: its inputs, its locals and its body. -/
inductive ElaboratesControl (depth : Nat) (ctx : Context) (globals : Scope) (d : ControlDecl) :
    Plan → Counters → Prop
  | mk {inputs s₁ c₁ locals s₂ c₂ body c₃} :
      BindsInputs (globals.enter .control d.name) d.params ⟨0, 0, 0, 0, [], []⟩ inputs s₁ c₁ →
      DeclaresLocals ctx s₁ d.locals c₁ locals s₂ c₂ →
      Elaborates depth (.statements ctx (s₂.enter .block "") d.body.statements) c₂ (.plan body) c₃ →
      ElaboratesControl depth ctx globals d (.seq inputs (.seq locals body)) c₃

/-- The given actions, and those met meanwhile, that are not called are laid out, each in a block
that no edge leads to. -/
inductive Detaches (depth : Nat) (ctx : Context) :
    List PendingAction → Counters → Layout → Counters → Layout → Prop
  | nil {c l} : Detaches depth ctx [] c l c l
  | skip {action rest c l c₂ l₂} : action.qualified ∈ c.inlined →
      Detaches depth ctx rest c l c₂ l₂ → Detaches depth ctx (action :: rest) c l c₂ l₂
  | cons {action rest c l a c₁ c₂ l₂} : action.qualified ∉ c.inlined →
      Elaborates depth (.action ctx action [] action.home action.decl.loc .all) c (.plan a) c₁ →
      Detaches depth ctx rest c₁
        (a.lay ((l.newBlock ("detached " ++ action.qualified)).goTo l.size)) c₂ l₂ →
      Detaches depth ctx (action :: rest) c l c₂ l₂
  | round {c l c₂ l₂} : Detaches depth ctx c.pending { c with pending := [] } l c₂ l₂ →
      Detaches depth ctx [] c l c₂ l₂

end Elaborate

def Layout.initial : Layout := ⟨[⟨0, "entry", [], [], [], none⟩], 0, [], []⟩

def Layout.graph (l : Layout) (name : String) (inputs : List Variable) : FlowGraph :=
  ⟨name, l.blocks, 0, [], [], l.sites, inputs, 0⟩

end ControlReach
