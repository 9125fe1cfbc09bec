import ControlReach.Flow.OfControl
import ControlReach.Proofs.Success
import Mathlib.Data.List.Basic

/-!
# Constructions without failures

Failures of a construction are recorded and not forgotten. So one that ends with an empty record
has met none, and each of its steps can be taken at its word.
-/

namespace ControlReach.Builder

open List

variable {α : Type}

/-! ### Recorded failures -/

/-- What a step does to the state is of some kind. -/
def Moves (r : Build → Build → Prop) (step : Builder α) : Prop := ∀ st, r st (step.run st).2

/-- A kind of change that sequences of steps make if each step makes it. -/
class IsChange (r : Build → Build → Prop) : Prop where
  refl : ∀ st, r st st
  trans : ∀ {st st' st''}, r st st' → r st' st'' → r st st''
  record : ∀ {st st'} (why : Diagnostic), r st st' →
    r st { st' with errors := st'.errors ++ [why] }

/-- A step forgets neither a recorded failure nor a body that has been inlined. -/
abbrev Keeps (step : Builder α) : Prop :=
  Moves (fun st st' => st.errors <+: st'.errors ∧ st.inlined ⊆ st'.inlined) step

/-- A step forgets no recorded failure and inlines nothing. -/
abbrev Steady (step : Builder α) : Prop :=
  Moves (fun st st' => st.errors <+: st'.errors ∧ st'.inlined = st.inlined) step

instance : IsChange fun st st' => st.errors <+: st'.errors ∧ st.inlined ⊆ st'.inlined :=
  ⟨fun _ => ⟨prefix_rfl, List.Subset.refl _⟩,
    fun h h' => ⟨h.1.trans h'.1, List.Subset.trans h.2 h'.2⟩,
    fun _ h => ⟨h.1.trans (prefix_append _ _), h.2⟩⟩

instance : IsChange fun st st' => st.errors <+: st'.errors ∧ st'.inlined = st.inlined :=
  ⟨fun _ => ⟨prefix_rfl, rfl⟩, fun h h' => ⟨h.1.trans h'.1, h'.2.trans h.2⟩,
    fun _ h => ⟨h.1.trans (prefix_append _ _), h.2⟩⟩

theorem Steady.keeps (h : Steady step) : Keeps step :=
  fun st => ⟨(h st).1, fun _ hq => (h st).2 ▸ hq⟩

theorem run_bind (x : Builder α) (f : α → Builder β) (st : Build) :
    (x >>= f).run st =
      match x.run st with
      | (.ok a, st') => (f a).run st'
      | (.error why, st') => (.error why, st') := by
  show (ExceptT.bindCont f (x.run st).1 : StateM Build _) (x.run st).2 = _
  rcases x.run st with ⟨a | a, st'⟩ <;> rfl

theorem run_recorded (a : α) (step : Builder α) (st : Build) :
    (recorded a step).run st =
      match step.run st with
      | (.ok b, st') => (.ok b, st')
      | (.error why, st') => (.ok a, { st' with errors := st'.errors ++ [why] }) := rfl

variable {a : α}

variable {r : Build → Build → Prop} [IsChange r]

theorem Moves.bind (hx : Moves r x) (hf : ∀ a, Moves r (f a)) : Moves r (x >>= f) := by
  intro st
  rw [run_bind]
  have h := hx st
  rcases hrun : x.run st with ⟨a | a, st'⟩ <;> rw [hrun] at h
  · exact h
  · exact IsChange.trans h (hf a st')

theorem Moves.recorded (h : Moves r step) (a : α) : Moves r (recorded a step) := by
  intro st
  have h := h st
  rw [run_recorded]
  rcases hrun : step.run st with ⟨b | b, st'⟩ <;> rw [hrun] at h
  · exact IsChange.record b h
  · exact h

theorem Moves.forM {f : α → Builder Unit} (h : ∀ a, Moves r (f a)) (l : List α) :
    Moves r (l.forM f) := by
  induction l with
  | nil => exact IsChange.refl
  | cons a l ih => exact (h a).bind fun _ => ih

theorem Moves.mapM (h : ∀ a, Moves r (f a)) (l : List α) : Moves r (l.mapM f) := by
  induction l with
  | nil =>
    rw [mapM_nil]
    exact IsChange.refl
  | cons a l ih =>
    rw [mapM_cons]
    exact (h a).bind fun _ => ih.bind fun _ => IsChange.refl

theorem steady_pure (a : α) : Steady (pure a) := fun _ => ⟨prefix_rfl, rfl⟩

theorem steady_check (r : Checked α) : Steady (check r) := fun _ => ⟨prefix_rfl, rfl⟩

theorem steady_fail (cause : Cause) (loc : Option Location) : Steady (fail cause loc : Builder α) :=
  fun _ => ⟨prefix_rfl, rfl⟩

/-! ### Steps that succeed -/

def Runs (step : Builder α) (st : Build) (a : α) (st' : Build) : Prop :=
  step.run st = (.ok a, st')

theorem Keeps.errors_eq_nil (hk : Keeps step) (h : Runs step st a st') (he : st'.errors = []) :
    st.errors = [] := by
  have hkept := (hk st).1
  rw [h, he] at hkept
  exact prefix_nil.1 hkept

theorem Keeps.inlined (hk : Keeps step) (h : Runs step st a st') : st.inlined ⊆ st'.inlined := by
  have hkept := (hk st).2
  rwa [h] at hkept

theorem Steady.inlined (hs : Steady step) (h : Runs step st a st') : st'.inlined = st.inlined := by
  have hkept := (hs st).2
  rwa [h] at hkept

theorem Runs.bind (h : Runs (x >>= f) st b st'') :
    ∃ a st', Runs x st a st' ∧ Runs (f a) st' b st'' := by
  unfold Runs at h
  rw [run_bind] at h
  rcases hx : x.run st with ⟨why | a, st'⟩
  · rw [hx] at h
    cases h
  · rw [hx] at h
    exact ⟨a, st', hx, h⟩

theorem Runs.recorded {step : Builder α} {b : α} (h : Runs (recorded a step) st b st')
    (he : st'.errors = []) : Runs step st b st' := by
  unfold Runs at h ⊢
  rw [run_recorded] at h
  rcases hs : step.run st with ⟨why | b', st₁⟩
  · rw [hs] at h
    cases h
    simp at he
  · rw [hs] at h
    exact h

theorem Runs.eq_of_run {step : Builder α} {b : α} (h : Runs step st b st')
    (hrun : step.run st = (.ok a, st₁)) : a = b ∧ st₁ = st' := by
  have heq := h.symm.trans hrun
  cases heq
  exact ⟨rfl, rfl⟩

theorem Runs.step (h : Runs (x >>= f) st b st') (hrun : x.run st = (.ok a, st₁)) :
    Runs (f a) st₁ b st' := by
  obtain ⟨a', st₂, hx, h⟩ := h.bind
  obtain ⟨rfl, rfl⟩ := hx.eq_of_run hrun
  exact h

theorem Runs.pure {b : α} (h : Runs (pure a) st b st') : a = b ∧ st = st' :=
  h.eq_of_run rfl

theorem Runs.check {r : Checked α} (h : Runs (check r) st a st') : r = .ok a ∧ st = st' := by
  cases r with
  | error why => cases h
  | ok b =>
    cases h
    exact ⟨rfl, rfl⟩

theorem Runs.checked {r : Checked α} (h : Runs (Builder.check r >>= f) st b st') :
    ∃ a, r = .ok a ∧ Runs (f a) st b st' := by
  obtain ⟨a, st₁, hcheck, h⟩ := h.bind
  obtain ⟨hr, rfl⟩ := hcheck.check
  exact ⟨a, hr, h⟩

theorem not_runs_fail : ¬ Runs (fail cause loc) st a st' := by
  intro h
  cases h

theorem Runs.mapM_cons (h : Runs ((a :: l).mapM f) st bs st') :
    ∃ b rest st₁, bs = b :: rest ∧ Runs (f a) st b st₁ ∧ Runs (l.mapM f) st₁ rest st' := by
  rw [List.mapM_cons] at h
  obtain ⟨b, st₁, hb, h⟩ := h.bind
  obtain ⟨rest, st₂, hrest, h⟩ := h.bind
  obtain ⟨rfl, rfl⟩ := h.pure
  exact ⟨b, rest, st₁, rfl, hb, hrest⟩

theorem Runs.forM_cons {f : α → Builder Unit} {l : List α} {u : Unit}
    (h : Runs ((a :: l).forM f) st u st') :
    ∃ st₁, Runs (f a) st () st₁ ∧ Runs (l.forM f) st₁ () st' := by
  obtain ⟨_, st₁, ha, h⟩ := Runs.bind (f := fun _ => l.forM f) h
  exact ⟨st₁, ha, h⟩

/-! ### The elementary steps -/

theorem steady_newBlock (label : String) : Steady (newBlock label) :=
  fun _ => ⟨prefix_rfl, rfl⟩

theorem steady_setCurrent (i : Nat) : Steady (setCurrent i) := fun _ => ⟨prefix_rfl, rfl⟩

theorem steady_current : Steady current := fun _ => ⟨prefix_rfl, rfl⟩

theorem steady_emit (op : Op) : Steady (emit op) := fun _ => ⟨prefix_rfl, rfl⟩

theorem steady_newVariable (x : String) (ty : Ty) (role : Role) (direction : Direction)
    (readOnly : Bool) (display : String) :
    Steady (newVariable x ty role direction readOnly display) := fun _ => ⟨prefix_rfl, rfl⟩

theorem steady_havoc (v : Variable) (loc : Option Location) : Steady (havoc v loc) :=
  fun _ => ⟨prefix_rfl, rfl⟩

theorem Keeps.enterBody {ctx : Context} {q : String} {f : Context → Builder α}
    (hf : Keeps (f { ctx with stack := ctx.stack ++ [q] })) (loc : Option Location) :
    Keeps (enterBody ctx q loc >>= f) := by
  unfold Builder.enterBody
  split
  · exact (steady_fail _ _).keeps
  · rw [bind_assoc]
    refine Moves.bind (fun st => ⟨prefix_rfl, fun x hx => ?_⟩) fun _ => hf
    show x ∈ if q ∈ st.inlined then st.inlined else q :: st.inlined
    split
    · exact hx
    · exact mem_cons_of_mem _ hx

end ControlReach.Builder

namespace ControlReach.Elaborate

open Builder List

/-! ### The steps of the elaboration -/

variable (ctx : Context)

theorem steady_declareVariable (s : Scope) (d : VariableDecl) :
    Steady (declareVariable ctx s d) := by
  refine (steady_check _).bind fun ty => ?_
  cases d.initial
  case' none => refine (steady_pure _).bind fun value => ?_
  case' some e =>
    refine Moves.bind (fun _ => by cases s.lowerAs ty e d.loc <;> exact ⟨prefix_rfl, rfl⟩)
      fun value => ?_
  all_goals
    refine (steady_newVariable _ _ _ _ _ _).bind fun v => (steady_check _).bind fun s => ?_
    cases value with
    | none | some => exact fun _ => ⟨prefix_rfl, rfl⟩

theorem steady_declareConstant (s : Scope) (d : ConstantDecl) : Steady (declareConstant s d) :=
  (steady_check _).bind fun _ => (steady_check _).bind fun _ => steady_check _

theorem steady_declareLocal (s : Scope) :
    ∀ l : Local, Steady (declareLocal ctx s l)
  | .variable d => steady_declareVariable ctx s d
  | .constant d => steady_declareConstant s d
  | .action _ => steady_check _
  | .table _ =>
    (steady_check _).bind fun _ => ((steady_check _).recorded ()).bind fun _ => steady_pure _
  | .inst _ => steady_check _
  | .other _ _ => steady_fail _ _

theorem steady_declareLocals (l : List Local) (s : Scope) : Steady (declareLocals ctx s l) := by
  induction l generalizing s with
  | nil => exact fun _ => ⟨prefix_rfl, rfl⟩
  | cons x l ih => exact ((steady_declareLocal ctx s x).recorded s).bind ih

theorem steady_bindFormal (home caller : Scope) (loc : Option Location) :
    ∀ x : Parameter × Option Argument, Steady (bindFormal ctx home caller loc x)
  | (p, none) | (p, some (.any _ _)) =>
    (steady_check _).bind fun _ _ => ⟨prefix_rfl, rfl⟩
  | (p, some (.given e _ argLoc)) => by
    refine (steady_check _).bind fun ty => (steady_newVariable _ _ _ _ _ _).bind fun v => ?_
    dsimp only
    split
    · exact (steady_check _).bind fun _ => steady_pure _
    · refine (steady_check _).bind fun place => ?_
      split
      · exact steady_fail _ _
      · split
        · exact (steady_check _).bind fun _ => steady_pure _
        · exact steady_pure _

theorem steady_declareFormals (loc : Option Location) (formals : List Formal) (s : Scope) :
    Steady (declareFormals loc s formals) := by
  induction formals generalizing s with
  | nil => exact steady_pure _
  | cons f rest ih =>
    unfold declareFormals
    cases f.copyIn with
    | none => exact (steady_havoc _ _).bind fun _ => (steady_check _).bind ih
    | some op => exact (steady_emit _).bind fun _ => (steady_check _).bind ih

theorem steady_copyBack (formals : List Formal) (loc : Option Location) :
    Steady (copyBack formals loc) := by
  refine Moves.forM (fun f => ?_) formals
  cases f.copyOut with
  | none | some => exact fun _ => ⟨prefix_rfl, rfl⟩

theorem steady_assertion (s : Scope) (kind : AssertionKind) (args : List Argument)
    (callLoc loc : Option Location) : Steady (assertion ctx s kind args callLoc loc) := by
  refine (steady_check _).bind fun condition => ?_
  cases condition with
  | none => exact fun _ => ⟨prefix_rfl, rfl⟩
  | some condition =>
    refine (steady_check _).bind fun guard => ?_
    split <;> exact fun _ => ⟨prefix_rfl, rfl⟩

theorem steady_bindInputs (l : List Parameter) (s : Scope) : Steady (bindInputs s l) := by
  induction l generalizing s with
  | nil => exact steady_pure _
  | cons p l ih =>
    refine (Moves.recorded ?_ none).bind fun bound => ?_
    · exact (steady_check _).bind fun _ => (steady_newVariable _ _ _ _ _ _).bind fun _ =>
        (steady_check _).bind fun _ => steady_pure _
    · split
      · exact ih s
      · exact Moves.bind (fun _ => ⟨prefix_rfl, rfl⟩) fun _ =>
          (steady_havoc _ _).bind fun _ => ih _

end ControlReach.Elaborate
