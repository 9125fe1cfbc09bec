import ControlReach.Proofs.Numbering
import ControlReach.Proofs.Semantics
import Mathlib.Data.List.Nodup

/-!
# Error locations and the statements they stand for

The error locations of a control are made in the order in which its executions may come to the
statements they stand for.
-/

namespace ControlReach

open List Stmt

section Rel

variable {R : α → α' → Prop} {Q : β → β' → Prop}

theorem Env.Rel.callee?_eq_some (h : Env.Rel R Q env env') (hc : env.callee? e = some c) :
    ∃ c', env'.callee? e = some c' ∧ c.Rel R Q c' :=
  exists_of_rel (h.callee? e) hc

theorem Env.Rel.lookup_eq_some (h : Env.Rel R Q env env') (hx : env.lookup x = some m) :
    ∃ m', env'.lookup x = some m' ∧ m.Rel R Q m' :=
  exists_of_rel (h.lookup x) hx

theorem Env.Rel.find?_eq_some (h : Env.Rel R Q env env') (hx : env.find? x = some (m, home)) :
    ∃ m' home', env'.find? x = some (m', home') ∧ m.Rel R Q m' ∧ Env.Rel R Q home home' := by
  obtain ⟨⟨m', home'⟩, hx', hrel⟩ := exists_of_rel (h.find? x) hx
  exact ⟨m', home', hx', hrel⟩

end Rel

variable {v : Visit}

namespace Scope

variable {s : Scope} {home : Scope}

theorem callee?_of_assertion (h : s.assertion? callee = some kind) :
    s.env.callee? callee = some (.assertion kind) := by
  rw [Env.callee?, assertion?_env, h]

section

variable (h : s.assertion? callee = none)

include h

theorem callee?_of_action (hx : callee.applied? = some (x, false))
    (hfind : s.find? x = some (.action d q, home)) :
    s.env.callee? callee = some (.action d home.env) := by
  simp only [Env.callee?, assertion?_env, h, hx, find?_env, hfind]
  rfl

theorem callee?_of_table (hx : callee.applied? = some (x, apply))
    (hfind : s.find? x = some (.table d q, home)) :
    s.env.callee? callee = some (.table d home.env) := by
  simp only [Env.callee?, assertion?_env, h, hx, find?_env, hfind]
  cases apply <;> rfl

theorem callee?_of_control (hx : callee.applied? = some (x, true))
    (hfind : s.find? x = some (.inst (some d), home)) :
    s.env.callee? callee = some (.control d s.root.env) := by
  simp only [Env.callee?, assertion?_env, h, hx, find?_env, hfind, env_root]
  rfl

end

/-- A scope and an environment with the same names. -/
abbrev Names (s : Scope) (env : Environment) : Prop :=
  Env.Rel (fun _ _ => True) (fun _ _ => True) s.env env

end Scope

namespace Elaborate

/-! ### Names -/

theorem DeclaresVariable.names {d : VariableDecl} (h : DeclaresVariable ctx s d c a s' c')
    {env : Environment} (hs : s.Names env) : s'.Names (Local.after env (.variable d)) := by
  cases h with
  | initial _ _ _ hdeclare | arbitrary _ _ hdeclare =>
    rw [Scope.Names, Scope.env_declare hdeclare]
    exact hs.declare (.var trivial) d.name

theorem DeclaresConstant.names {d : ConstantDecl} (h : DeclaresConstant s d s') {env : Environment}
    (hs : s.Names env) : s'.Names (Local.after env (.constant d)) := by
  cases h with
  | mk _ _ hdeclare =>
    rw [Scope.Names, Scope.env_declare hdeclare]
    exact hs.declare (.const trivial) d.name

theorem DeclaresName.names {x : Local} (h : DeclaresName s x s') {env : Environment}
    (hs : s.Names env) : s'.Names (x.after env) := by
  cases h with
  | constant h => exact h.names hs
  | action h =>
    rw [Scope.Names, Scope.env_declare h]
    exact hs.declare .action _
  | table h _ =>
    rw [Scope.Names, Scope.env_declare h]
    exact hs.declare .table _
  | @inst d s' h =>
    obtain ⟨control, hb, h⟩ := declareInstance_eq_ok h
    obtain ⟨_, hlookup, ⟨⟩⟩ := hs.lookup_eq_some (Scope.resolve_env hb)
    rw [Scope.Names, Scope.env_declare h, Local.after, hlookup]
    exact hs.declare .inst _

theorem DeclaresLocals.names {l : List Local} (h : DeclaresLocals ctx s l c a s' c')
    {env : Environment} (hs : s.Names env) : s'.Names (l.foldl Local.after env) := by
  induction h generalizing env with
  | nil => exact hs
  | declare h _ ih | name h _ ih => exact ih (h.names hs)

theorem FillsFormals.env (h : FillsFormals loc s formals n a s' n')
    {outer : Env Variable (Option (Ty × Rvalue))} (hs : s.env = f :: outer) :
    s'.env = (f ++ formals.map fun x => (x.param.name, .var x.v)) :: outer := by
  induction h generalizing f with
  | nil => simpa using hs
  | copy _ hdeclare _ ih | arbitrary _ hdeclare _ ih =>
    rw [ih (f := f ++ [(_, .var _)]) (by rw [Scope.env_declare hdeclare, hs]; rfl)]
    simp [append_assoc]

/-- The names of a body: its parameters, and those of the scope that declares it. -/
theorem names_of_fills (hbound : bindArguments params args name loc unbound = .ok bound)
    (hbind : BindsFormals ctx home caller loc uid bound formals)
    (hfill : FillsFormals loc (home.enter kind name) formals n a callee n')
    (hhome : home.Names env) : callee.Names (paramFrame params :: env) := by
  have hparams : formals.map Formal.param = params :=
    hbind.params.trans (bindArguments_params hbound)
  rw [Scope.Names, hfill.env (home.env_enter kind name), ← hparams]
  refine .cons ?_ hhome
  rw [paramFrame, nil_append, map_map, forall₂_map_left_iff, forall₂_map_right_iff]
  exact forall₂_same.2 fun f _ => ⟨rfl, .var trivial⟩

theorem BindsInputs.names {l : List Parameter} (h : BindsInputs s l c a s' c')
    {outer : Env Variable _} (hs : s.env = f :: outer)
    {f' : List (String × Meaning Nat (Heap → Option Datum))} {outer' : Environment}
    (hnames : s.Names (f' :: outer')) : s'.Names ((f' ++ paramFrame l) :: outer') := by
  induction h generalizing f f' with
  | nil => simpa [paramFrame] using hnames
  | @cons s p ty l c s₁ a s₂ c₂ _ hdeclare _ ih =>
    have hs₁ : s₁.Names ((f' ++ [(p.name, .var 0)]) :: outer') := by
      rw [Scope.Names, Scope.env_declare hdeclare]
      exact Env.Rel.declare hnames (.var trivial) p.name
    have := ih (by rw [Scope.env_declare hdeclare, hs]; rfl) hs₁
    rwa [append_assoc] at this

theorem find?_of_resolveAction (h : resolveAction s ref = .ok (d, q, home)) :
    s.env.find? ref.name = some (.action d, home.env) := by
  rw [Scope.find?_env, resolveAction_eq_ok h]
  rfl

end Elaborate

/-! ### Error locations -/

/-- An error location has the kind and the place of a statement. -/
def Target.StandsFor (t : Target) (v : Visit) : Prop := v.kind? = some t.kind ∧ v.loc = t.loc

theorem filter_raises_under (step : PathStep) (l : List Visit) :
    (l.map (Visit.under step)).filter Visit.raises =
      (l.filter Visit.raises).map (Visit.under step) := by
  rw [filter_map]
  rfl

def StandFor (targets : List Target) (l : List Visit) : Prop :=
  Forall₂ Target.StandsFor targets (l.filter Visit.raises)

namespace StandFor

theorem nil : StandFor [] [] := Forall₂.nil

theorem append (h : StandFor targets l) (h' : StandFor targets' l') :
    StandFor (targets ++ targets') (l ++ l') := by
  rw [StandFor, filter_append]
  exact rel_append h h'

theorem under (h : StandFor targets l) (step : PathStep) :
    StandFor targets (l.map (Visit.under step)) := by
  rw [StandFor, filter_raises_under, forall₂_map_right_iff]
  exact h

theorem silent (h : v.raises = false) : StandFor [] [v] := by
  rw [StandFor, filter_singleton, h]
  exact .nil

theorem single {t : Target} (hv : v.raises = true) (h : t.StandsFor v) : StandFor [t] [v] := by
  rw [StandFor, filter_singleton, hv]
  exact .cons h .nil

end StandFor

theorem standFor_locals (env : Environment) (i : Nat) (l : List Local) :
    StandFor [] (Local.visitsAll env i l) := by
  induction l generalizing env i with
  | nil => exact .nil
  | cons x l ih =>
    cases x with
    | constant d => exact (StandFor.silent rfl).append (ih _ _)
    | _ => exact ih _ _

namespace Elaborate

def Lists (depth : Nat) : Job → Output → Prop
  | .statements _ s l, .plan a => ∀ env i, s.Names env →
      StandFor a.targets (visitsAll (Callee.visits depth) env i l)
  | .statement _ s x s', .plan a => ∀ env, s.Names env →
      StandFor a.targets (visits (Callee.visits depth) env x) ∧ s'.Names (x.after env)
  | .action _ p _ _ _ _, .plan a => ∀ env, p.home.Names env → StandFor a.targets
      (Block.visits (Callee.visits depth) (paramFrame p.decl.params :: env) p.decl.body)
  | .control _ d _ caller _, .plan a => ∀ env, caller.root.Names env →
      StandFor a.targets (Callee.visits (depth + 1) (.control d env))
  | .arms _ d home _ refs, .arms a => ∀ env i, home.Names env →
      StandFor a.targets (visitsChoices (Callee.visits depth) d env i refs)
  | _, _ => True

variable {s : Scope}

theorem visits_block (b : Block) :
    Block.visits called env b = visitsAll called ([] :: env) 0 b.statements := by
  cases b
  rw [Block.visits, Block.statements]

theorem visits_assertion (hs : s.Names env) (h : s.assertion? callee = some kind)
    (args : List Argument) (callLoc loc : Option Location) :
    visits called env (.call callee args callLoc loc) =
        [⟨[], env, .call callee args callLoc loc⟩] ∧
      Visit.kind? ⟨[], env, .call callee args callLoc loc⟩ = some kind := by
  obtain ⟨_, hcallee, ⟨⟩⟩ := hs.callee?_eq_some (Scope.callee?_of_assertion h)
  refine ⟨by rw [visits, hcallee], ?_⟩
  exact (hs.assertion? callee).symm.trans ((s.assertion?_env callee).trans h)

theorem Elaborates.lists (h : Elaborates depth job c out c') : Lists depth job out := by
  induction h with
  | nil =>
    intro env i hs
    rw [visitsAll]
    exact .nil
  | cons _ _ ih₁ ih₂ =>
    intro env i hs
    obtain ⟨hx, hs'⟩ := ih₁ env hs
    rw [visitsAll]
    exact (hx.under _).append (ih₂ _ _ hs')
  | block _ ih =>
    intro env hs
    rw [visits, visits_block]
    exact ⟨ih _ _ hs.enter, hs⟩
  | ifThen _ _ ih =>
    intro env hs
    rw [visits, visits_block]
    exact ⟨(ih _ _ hs.enter).under _, hs⟩
  | ifElse _ _ _ ih₁ ih₂ =>
    intro env hs
    rw [visits, visits_block, visits_block]
    exact ⟨((ih₁ _ _ hs.enter).under _).append ((ih₂ _ _ hs.enter).under _), hs⟩
  | assign =>
    intro env hs
    rw [visits.eq_def]
    exact ⟨.silent rfl, hs⟩
  | declare hd =>
    intro env hs
    refine ⟨?_, hd.names hs⟩
    rw [visits.eq_def]
    cases hd with
    | initial | arbitrary => exact .silent rfl
  | constant hd =>
    intro env hs
    rw [visits.eq_def]
    exact ⟨.silent rfl, hd.names hs⟩
  | bug hkind _ | assert hkind _ _ =>
    intro env hs
    obtain ⟨hvisits, hv⟩ := visits_assertion hs hkind _ _ _
    rw [hvisits]
    exact ⟨.single (by rw [Visit.raises, hv]; rfl) ⟨hv, rfl⟩, hs⟩
  | assume hkind _ _ =>
    intro env hs
    obtain ⟨hvisits, hv⟩ := visits_assertion hs hkind _ _ _
    rw [hvisits]
    exact ⟨.silent (by rw [Visit.raises, hv]; rfl), hs⟩
  | callAction hassert hx hfind _ ih =>
    intro env hs
    obtain ⟨_, hcallee, hrel⟩ := hs.callee?_eq_some (Scope.callee?_of_action hassert hx hfind)
    cases hrel with
    | action hhome =>
      rw [visits, hcallee]
      exact ⟨ih _ hhome, hs⟩
  | callTable hassert hx hfind _ ih =>
    intro env hs
    obtain ⟨_, hcallee, hrel⟩ := hs.callee?_eq_some (Scope.callee?_of_table hassert hx hfind)
    cases hrel with
    | table hhome =>
      rw [visits, hcallee]
      exact ⟨ih _ _ hhome, hs⟩
  | callControl hassert hx hfind _ ih =>
    intro env hs
    obtain ⟨_, hcallee, hrel⟩ := hs.callee?_eq_some (Scope.callee?_of_control hassert hx hfind)
    cases hrel with
    | control hroot =>
      rw [visits, hcallee]
      exact ⟨ih _ hroot, hs⟩
  | action hbound _ hbind hfill _ ih =>
    intro env hs
    have hcallee := names_of_fills hbound hbind hfill hs
    rw [Plan.targets, (hfill.straight hbind c []).targets, Plan.targets,
      (hbind.straight_backPlan c).targets, append_nil, visits_block]
    exact ih _ _ hcallee.enter
  | control _ hbound _ hbind hfill hlocals _ ih =>
    intro env hs
    have hcallee := hlocals.names (names_of_fills hbound hbind hfill hs)
    rw [Plan.targets, (hfill.straight hbind c []).targets, Plan.targets, hlocals.straight.targets,
      Plan.targets, (hbind.straight_backPlan c).targets, append_nil, Callee.visits, visits_block]
    exact (standFor_locals _ _ _).append (ih _ _ hcallee.enter)
  | arm hresolve _ _ ih₁ ih₂ =>
    intro env i hs
    obtain ⟨_, home, hfind, ⟨⟩, hhome⟩ := hs.find?_eq_some (find?_of_resolveAction hresolve)
    rw [visitsChoices, visitsChoices.visitsAction, hfind]
    exact ((ih₁ _ hhome).under _).append (ih₂ _ _ hs)
  | miss hnone =>
    intro env i hs
    rw [visitsChoices, hnone]
    exact .nil
  | default href hresolve _ ih =>
    intro env i hs
    obtain ⟨_, home, hfind, ⟨⟩, hhome⟩ := hs.find?_eq_some (find?_of_resolveAction hresolve)
    rw [visitsChoices, href]
    dsimp only
    rw [visitsChoices.visitsAction, hfind, Arms.targets, Arms.targets, append_nil]
    exact (ih _ hhome).under _

theorem ElaboratesControl.lists (h : ElaboratesControl depth ctx globals d a c)
    (hglobals : globals.Names env) :
    StandFor a.targets (Callee.visits (depth + 1) (.control d env)) := by
  cases h with
  | mk hinputs hlocals hbody =>
    have hs := hlocals.names (hinputs.names (globals.env_enter _ _) hglobals.enter)
    rw [Plan.targets, hinputs.straight.targets, Plan.targets, hlocals.straight.targets, Callee.visits,
      visits_block]
    exact (standFor_locals _ _ _).append (hbody.lists _ _ hs.enter)

end Elaborate

/-! ### Call paths -/

/-- The call paths of statements are different. -/
def Apart (l : List Visit) : Prop := (l.map Visit.path).Nodup

theorem Apart.under (h : Apart l) (step : PathStep) : Apart (l.map (Visit.under step)) := by
  have hpath : (l.map (Visit.under step)).map Visit.path =
      (l.map Visit.path).map (List.cons step) := by
    rw [map_map, map_map]
    rfl
  rw [Apart, hpath]
  exact Nodup.map cons_injective h

theorem Apart.append (h : Apart l) (h' : Apart l')
    (hne : ∀ v ∈ l, ∀ v' ∈ l', v.path.head? ≠ v'.path.head?) : Apart (l ++ l') := by
  rw [Apart, map_append]
  refine Nodup.append h h' (disjoint_left.2 ?_)
  rintro path hpath hpath'
  obtain ⟨v, hv, rfl⟩ := mem_map.1 hpath
  obtain ⟨v', hv', heq⟩ := mem_map.1 hpath'
  exact hne v hv v' hv' (by rw [heq])

theorem head?_of_mem_under {l : List Visit} (h : v ∈ l.map (Visit.under step)) :
    v.path.head? = some step := by
  obtain ⟨v, -, rfl⟩ := mem_map.1 h
  rfl

section Paths

theorem head?_of_mem_visitsAll (h : v ∈ visitsAll called env i l) :
    ∃ j, i ≤ j ∧ v.path.head? = some (.stmt j) := by
  induction l generalizing env i with
  | nil =>
    rw [visitsAll] at h
    cases h
  | cons x l ih =>
    rw [visitsAll, mem_append] at h
    rcases h with h | h
    · exact ⟨i, Nat.le_refl i, head?_of_mem_under h⟩
    · obtain ⟨j, hj, h⟩ := ih h
      exact ⟨j, Nat.le_of_succ_le hj, h⟩

theorem head?_of_mem_locals (h : v ∈ Local.visitsAll env i l) :
    ∃ j, i ≤ j ∧ v.path.head? = some (.decl j) := by
  induction l generalizing env i with
  | nil => cases h
  | cons x l ih =>
    have hrest : ∀ {env}, v ∈ Local.visitsAll env (i + 1) l →
        ∃ j, i ≤ j ∧ v.path.head? = some (.decl j) := by
      intro env h
      obtain ⟨j, hj, h⟩ := ih h
      exact ⟨j, Nat.le_of_succ_le hj, h⟩
    cases x with
    | constant d =>
      rcases mem_cons.1 h with rfl | h
      · exact ⟨i, Nat.le_refl i, rfl⟩
      · exact hrest h
    | _ => exact hrest h

theorem apart_locals (env : Environment) (i : Nat) (l : List Local) :
    Apart (Local.visitsAll env i l) := by
  induction l generalizing env i with
  | nil => exact nodup_nil
  | cons x l ih =>
    cases x with
    | constant d =>
      refine Apart.append (l := [_]) (nodup_singleton _) (ih _ _) ?_
      intro v hv v' hv'
      obtain rfl := mem_singleton.1 hv
      obtain ⟨j, hj, h⟩ := head?_of_mem_locals hv'
      rw [h]
      simp only [head?_cons, ne_eq, Option.some.injEq, PathStep.decl.injEq]
      omega
    | _ => exact ih _ _

mutual

theorem Stmt.apart_visits (hcalled : ∀ c, Apart (called c)) :
    ∀ env x, Apart (visits called env x)
  | env, .block body => by
    rw [visits]
    exact Block.apart_visits hcalled env body
  | env, .branch _ yes none _ => by
    rw [visits]
    exact (Block.apart_visits hcalled env yes).under .yes
  | env, .branch _ yes (some no) _ => by
    rw [visits]
    refine ((Block.apart_visits hcalled env yes).under .yes).append
      ((Block.apart_visits hcalled env no).under .no) ?_
    intro v hv v' hv'
    rw [head?_of_mem_under hv, head?_of_mem_under hv']
    simp
  | env, .call callee args callLoc loc => by
    rw [visits]
    split
    · exact nodup_singleton _
    · exact hcalled _
    · exact nodup_nil
  | env, .assign _ _ _ | env, .variable _ | env, .constant _ | env, .other _ _ => by
    rw [visits.eq_def]
    exact nodup_singleton _

theorem Stmt.apart_visitsAll (hcalled : ∀ c, Apart (called c)) :
    ∀ env i l, Apart (Stmt.visitsAll called env i l)
  | env, i, [] => by
    rw [Stmt.visitsAll]
    exact nodup_nil
  | env, i, x :: l => by
    rw [Stmt.visitsAll]
    refine ((Stmt.apart_visits hcalled env x).under _).append
      (Stmt.apart_visitsAll hcalled _ (i + 1) l) ?_
    intro v hv v' hv'
    obtain ⟨j, hj, h⟩ := head?_of_mem_visitsAll hv'
    rw [head?_of_mem_under hv, h]
    simp only [ne_eq, Option.some.injEq, PathStep.stmt.injEq]
    omega

theorem Block.apart_visits (hcalled : ∀ c, Apart (called c)) :
    ∀ env b, Apart (Block.visits called env b)
  | env, .mk body _ => by
    rw [Block.visits]
    exact Stmt.apart_visitsAll hcalled _ 0 body

end

theorem apart_choices (hcalled : ∀ c, Apart (called c)) (d : TableDecl) (home : Environment)
    (i : Nat) (refs : List ActionRef) : Apart (visitsChoices called d home i refs) := by
  have haction : ∀ ref, Apart (visitsChoices.visitsAction called home ref) := by
    intro ref
    rw [visitsChoices.visitsAction]
    split
    · exact Block.apart_visits hcalled _ _
    · exact nodup_nil
  have hhead : ∀ {refs i v}, v ∈ visitsChoices called d home i refs →
      v.path.head? = some .miss ∨ ∃ j, i ≤ j ∧ v.path.head? = some (.choice j) := by
    intro refs i v hv
    induction refs generalizing i with
    | nil =>
      rw [visitsChoices] at hv
      split at hv
      · cases hv
      · exact .inl (head?_of_mem_under hv)
    | cons ref refs ih =>
      rw [visitsChoices, mem_append] at hv
      rcases hv with hv | hv
      · exact .inr ⟨i, Nat.le_refl i, head?_of_mem_under hv⟩
      · exact (ih hv).imp_right fun ⟨j, hj, h⟩ => ⟨j, Nat.le_of_succ_le hj, h⟩
  induction refs generalizing i with
  | nil =>
    rw [visitsChoices]
    split
    · exact nodup_nil
    · exact (haction _).under _
  | cons ref refs ih =>
    rw [visitsChoices]
    refine ((haction ref).under _).append (ih (i + 1)) ?_
    intro v hv v' hv'
    rw [head?_of_mem_under hv]
    rcases hhead hv' with h | ⟨j, hj, h⟩
    · simp [h]
    · rw [h]
      simp only [ne_eq, Option.some.injEq, PathStep.choice.injEq]
      omega

theorem Callee.apart_visits (n : Nat) (c : Callee Nat (Heap → Option Datum)) :
    Apart (c.visits n) := by
  induction n generalizing c with
  | zero => exact nodup_nil
  | succ n ih =>
    cases c with
    | assertion kind => exact nodup_nil
    | action d home => exact Block.apart_visits ih _ _
    | table d home => exact apart_choices ih _ _ _ _
    | control d root =>
      refine (apart_locals _ _ _).append (Block.apart_visits ih _ _) ?_
      intro v hv v' hv'
      obtain ⟨i, -, h⟩ := head?_of_mem_locals hv
      obtain ⟨j, -, h'⟩ := head?_of_mem_visitsAll (Elaborate.visits_block d.body ▸ hv')
      rw [h, h']
      simp

end Paths

/-- Each statement at which executions may stop has a call path of its own. -/
theorem Program.apart_occurrences (p : Program) (d : ControlDecl) : Apart (p.occurrences d) :=
  (Callee.apart_visits _ _).sublist (filter_sublist.map _)

end ControlReach
