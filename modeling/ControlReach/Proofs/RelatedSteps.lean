import ControlReach.Proofs.Construction

/-!
# Elaborations in two contexts

Two elaborations of one control that differ in what they refuse to inline take the same steps,
except where a body is entered. A relation kept by sequences of steps holds between them if it
holds there.
-/

namespace ControlReach

open Builder Elaborate List

/-- A relation between steps in contexts that differ in what is recursive. -/
structure Builder.Congruence (R : ∀ α : Type, Builder α → Builder α → Prop)
    (C : Context → Context → Prop) : Prop where
  context : ∀ {ctx ctx'}, C ctx ctx' → ∃ l f, ctx' = { ctx with recursive := l, cycle := f }
  steady : ∀ {α} {x : Builder α}, Steady x → R α x x
  bind : ∀ {α β} {x y : Builder α} {f g : α → Builder β}, R α x y → (∀ a, R β (f a) (g a)) →
    R β (x >>= f) (y >>= g)
  recorded : ∀ {α} {x y : Builder α}, R α x y → ∀ a, R α (recorded a x) (recorded a y)
  enterBody : ∀ {ctx ctx' q loc} {f g : Context → Builder Unit}, C ctx ctx' →
    (∀ ctx ctx', C ctx ctx' → R Unit (f ctx) (g ctx')) →
    R Unit (enterBody ctx q loc >>= f) (enterBody ctx' q loc >>= g)

/-- What is done with a call in one context is related to what is done in the other. -/
def Elaborate.CallHandler.Related (R : ∀ α : Type, Builder α → Builder α → Prop)
    (C : Context → Context → Prop) (handle : CallHandler) : Prop :=
  ∀ ctx ctx', C ctx ctx' → ∀ s callee args callLoc loc,
    R Unit (handle ctx s callee args callLoc loc) (handle ctx' s callee args callLoc loc)

namespace Builder.Congruence

variable {R : ∀ α : Type, Builder α → Builder α → Prop} {C : Context → Context → Prop}
  {handle : CallHandler}

section

variable (h : Congruence R C)

include h

theorem after {α β : Type} {x : Builder α} {f g : α → Builder β} (hx : Steady x)
    (hf : ∀ a, R β (f a) (g a)) : R β (x >>= f) (x >>= g) := h.bind (h.steady hx) hf

theorem forM {α : Type} {f g : α → Builder Unit} (hf : ∀ a, R Unit (f a) (g a)) (l : List α) :
    R _ (l.forM f) (l.forM g) := by
  induction l with
  | nil => exact h.steady (steady_pure ())
  | cons a l ih => exact h.bind (hf a) fun _ => ih

theorem declareLocals (hctx : C ctx ctx') (l : List Local) (s : Scope) :
    declareLocals ctx' s l = declareLocals ctx s l := by
  obtain ⟨_, _, rfl⟩ := h.context hctx
  induction l generalizing s with
  | nil => rfl
  | cons x l ih =>
    rw [Elaborate.declareLocals, Elaborate.declareLocals, funext ih]
    cases x <;> rfl

theorem openFrom {α : Type} {i : Nat} {label : String} {kind : EdgeKind} {guard : Option Rvalue}
    {f g : Nat → Builder α} (hf : ∀ j, R α (f j) (g j)) :
    R α (do let j ← newBlock label; connect i j kind guard; setCurrent j; f j)
      (do let j ← newBlock label; connect i j kind guard; setCurrent j; g j) :=
  h.after (steady_newBlock _) fun j => h.after (fun _ => ⟨prefix_rfl, rfl⟩) fun _ =>
    h.after (steady_setCurrent _) fun _ => hf j

variable (hhandle : handle.Related R C) (hctx : C ctx ctx')

include hhandle hctx

/-! ### Statements -/

set_option linter.unusedSectionVars false in
mutual

theorem statement :
    ∀ x s, R _ (statement handle ctx s x) (statement handle ctx' s x)
  | .block body, s => h.bind (block body s) fun _ => h.steady (steady_pure _)
  | .branch _ yes none _, s =>
    h.after (steady_check _) fun _ => h.after steady_current fun _ => h.openFrom fun _ =>
      h.bind (block yes s) fun _ => h.steady fun _ => ⟨prefix_rfl, rfl⟩
  | .branch _ yes (some no) _, s =>
    h.after (steady_check _) fun _ => h.after steady_current fun _ => h.openFrom fun _ =>
      h.bind (block yes s) fun _ => h.after steady_current fun _ =>
      h.after (steady_newBlock _) fun _ => h.openFrom fun _ => h.bind (block no s) fun _ =>
      h.steady fun _ => ⟨prefix_rfl, rfl⟩
  | .assign target value loc, s =>
    h.steady (Moves.bind ((steady_check _).bind fun _ => (steady_check _).bind fun _ =>
      steady_emit _) fun _ => steady_pure _)
  | .call callee args callLoc loc, s =>
    h.bind (hhandle ctx ctx' hctx s callee args callLoc loc) fun _ => h.steady (steady_pure _)
  | .variable d, s => by
    obtain ⟨_, _, rfl⟩ := h.context hctx
    exact h.steady (steady_declareVariable ctx s d)
  | .constant d, s => h.steady (steady_declareConstant s d)
  | .other _ _, _ => h.steady (steady_fail _ _)

theorem statements :
    ∀ l s, R _ (statements handle ctx s l) (statements handle ctx' s l)
  | [], _ => h.steady (steady_pure _)
  | x :: l, s => h.bind (h.recorded (statement x s) s) fun s' =>
    statements l s'

theorem block : ∀ b s, R _ (block handle ctx s b) (block handle ctx' s b)
  | .mk body _, s => statements body (s.enter .block "")

end

/-! ### Calls -/

theorem inlineAction (a : PendingAction) (args : List Argument) (caller : Scope)
    (loc : Option Location) (unbound : Unbound) :
    R _ (inlineAction handle ctx a args caller loc unbound)
      (inlineAction handle ctx' a args caller loc unbound) := by
  refine h.after (steady_check _) fun bound => h.enterBody hctx fun ctx ctx' hctx => ?_
  have hbody := h.block hhandle hctx a.decl.body
  obtain ⟨_, _, rfl⟩ := h.context hctx
  exact h.after (Moves.mapM (steady_bindFormal ctx _ _ _) _) fun formals =>
    h.after (steady_declareFormals _ _ _) fun callee => h.bind (hbody callee) fun _ =>
    h.steady (steady_copyBack formals loc)

theorem inlineControl (d : ControlDecl) (args : List Argument) (caller : Scope)
    (loc : Option Location) : R _ (inlineControl handle ctx d args caller loc)
      (inlineControl handle ctx' d args caller loc) := by
  refine h.after (steady_check _) fun _ => h.after (steady_check _) fun bound =>
    h.enterBody hctx fun ctx ctx' hctx => ?_
  have hbody := h.block hhandle hctx d.body
  have hlocals := h.declareLocals hctx
  obtain ⟨_, _, rfl⟩ := h.context hctx
  refine h.after (Moves.mapM (steady_bindFormal ctx _ _ _) _) fun formals =>
    h.after (steady_declareFormals _ _ _) fun callee => ?_
  rw [hlocals]
  exact h.after (steady_declareLocals ctx _ callee) fun callee => h.bind (hbody callee) fun _ =>
    h.steady (steady_copyBack formals loc)

theorem tableChoice (table : TableDecl) (home : Scope) (site : TableSite) (start join : Nat)
    (loc : Option Location) (choice : ActionRef × ActionDecl × String × Scope) :
    R _ (tableChoice handle ctx table home site start join loc choice)
      (tableChoice handle ctx' table home site start join loc choice) :=
  h.after (fun _ => ⟨prefix_rfl, rfl⟩) fun _ => h.openFrom fun _ =>
    h.bind (h.recorded (h.inlineAction hhandle hctx _ _ _ _ _) ()) fun _ =>
    h.steady fun _ => ⟨prefix_rfl, rfl⟩

theorem runDefault (table : TableDecl) (home : Scope) (loc : Option Location) :
    R _ (runDefault handle ctx table home loc) (runDefault handle ctx' table home loc) := by
  unfold Elaborate.runDefault
  cases table.defaultAction with
  | none => exact h.steady (steady_pure _)
  | some ref =>
    exact h.after (steady_check _) fun _ => h.recorded (h.inlineAction hhandle hctx _ _ _ _ _) ()

theorem tableMiss (table : TableDecl) (home : Scope) (site : TableSite) (start join : Nat)
    (loc : Option Location) : R _ (tableMiss handle ctx table home site start join loc)
      (tableMiss handle ctx' table home site start join loc) :=
  h.after (fun _ => ⟨prefix_rfl, rfl⟩) fun _ => h.openFrom fun _ =>
    h.bind (h.runDefault hhandle hctx _ _ _) fun _ =>
    h.steady fun _ => ⟨prefix_rfl, rfl⟩

theorem applyTable (table : TableDecl) (q : String) (home : Scope) (args : List Argument)
    (loc : Option Location) : R _ (applyTable handle ctx table q home args loc)
      (applyTable handle ctx' table q home args loc) := by
  unfold Elaborate.applyTable
  split
  · exact h.steady (steady_fail _ _)
  · exact h.after (steady_check _) fun choices => h.after (fun _ => ⟨prefix_rfl, rfl⟩) fun _ =>
      h.after steady_current fun _ => h.after (steady_newBlock _) fun _ =>
      h.bind (h.forM (h.tableChoice hhandle hctx _ _ _ _ _ _) _) fun _ =>
      h.bind (h.tableMiss hhandle hctx _ _ _ _ _ _) fun _ => h.steady (steady_setCurrent _)

theorem callName (s : Scope) (x : String) (xloc : Option Location) (args : List Argument)
    (loc : Option Location) :
    R _ (callName handle ctx s x xloc args loc) (callName handle ctx' s x xloc args loc) := by
  refine h.after (steady_check _) fun found => ?_
  split
  · exact h.inlineAction hhandle hctx _ _ _ _ _
  · exact h.applyTable hhandle hctx _ _ _ _ _
  · exact h.steady (steady_fail _ _)

theorem callMethod (s : Scope) (x f : String) (xloc : Option Location) (args : List Argument)
    (loc : Option Location) : R _ (callMethod handle ctx s x f xloc args loc)
      (callMethod handle ctx' s x f xloc args loc) := by
  refine h.after (steady_check _) fun found => ?_
  dsimp only
  split
  · exact h.steady (steady_fail _ _)
  · split
    · exact h.applyTable hhandle hctx _ _ _ _ _
    · exact h.inlineControl hhandle hctx _ _ _ _
    · exact h.steady (steady_fail _ _)

end

theorem call (h : Congruence R C) (depth : Nat) : (call depth).Related R C := by
  induction depth with
  | zero =>
    intro ctx ctx' hctx _ _ _ _ _
    obtain ⟨_, _, rfl⟩ := h.context hctx
    exact h.steady (steady_fail (.recursion ctx.stack) _)
  | succ depth ih =>
    intro ctx ctx' hctx s callee args callLoc loc
    unfold Elaborate.call
    dsimp only
    split
    · obtain ⟨_, _, rfl⟩ := h.context hctx
      exact h.steady (steady_assertion ctx s _ args callLoc _)
    · split
      · exact h.callName ih hctx _ _ _ _ _
      · exact h.callMethod ih hctx _ _ _ _ _ _
      · exact h.steady (steady_fail _ _)

/-! ### Whole controls -/

section

variable (h : Congruence R C) (hctx : C ctx ctx') (depth : Nat)

include h hctx

theorem detached (a : PendingAction) : R _ (detached depth ctx a) (detached depth ctx' a) := by
  refine h.after (fun _ => ⟨prefix_rfl, rfl⟩) fun st => ?_
  split
  · exact h.steady (steady_pure _)
  · exact h.after (steady_newBlock _) fun _ => h.after (steady_setCurrent _) fun _ =>
      h.recorded (h.inlineAction (h.call depth) hctx _ _ _ _ _) ()

theorem drain (rounds : Nat) : R _ (drain depth ctx rounds) (drain depth ctx' rounds) := by
  induction rounds with
  | zero => exact h.steady (steady_pure _)
  | succ rounds ih =>
    -- The pending actions are taken in one step, which inlines nothing.
    let take : Builder (List PendingAction) := do
      let st : Build ← get
      set { st with pending := [] }
      return st.pending
    have htake : Steady take := fun _ => ⟨prefix_rfl, rfl⟩
    show R _ (take >>= fun l => l.forM (Elaborate.detached depth ctx) >>= fun _ => _)
      (take >>= fun l => l.forM (Elaborate.detached depth ctx') >>= fun _ => _)
    exact h.after htake fun l => h.bind (h.forM (h.detached hctx depth) l) fun _ => ih

theorem elaboration (globals : Scope) (d : ControlDecl) :
    R _ (control depth ctx globals d) (control depth ctx' globals d) := by
  refine h.after (steady_bindInputs _ _) fun s => ?_
  rw [h.declareLocals hctx]
  exact h.after (steady_declareLocals ctx _ s) fun s => h.bind (h.block (h.call depth) hctx _ s)
    fun _ => h.drain hctx depth depth

end

end Builder.Congruence

/-! ### Nothing is forgotten -/

theorem Builder.congruence_keeps : Congruence (fun _ x _ => Keeps x) Eq where
  context := fun h => ⟨_, _, h.symm⟩
  steady := Steady.keeps
  bind := Moves.bind
  recorded := Moves.recorded
  enterBody := fun _ hf => Keeps.enterBody (hf _ _ rfl) _

namespace Elaborate

/-- Failures recorded before a call are not forgotten. -/
def CallHandler.Keeps (handle : CallHandler) : Prop := handle.Related (fun _ x _ => Builder.Keeps x) Eq

theorem keeps_block {handle : CallHandler} (hhandle : handle.Keeps) (b : Block) (ctx : Context)
    (s : Scope) : Keeps (block handle ctx s b) := congruence_keeps.block hhandle rfl b s

theorem keeps_call (depth : Nat) : (call depth).Keeps := congruence_keeps.call depth

theorem keeps_drain (depth : Nat) (ctx : Context) (rounds : Nat) : Keeps (drain depth ctx rounds) :=
  congruence_keeps.drain rfl depth rounds

end Elaborate

end ControlReach
