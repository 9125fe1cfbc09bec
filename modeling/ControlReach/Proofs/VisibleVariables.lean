import ControlReach.Proofs.ScopeContents
import Mathlib.Data.List.Nodup

/-!
# The variables in scope

The variables reported for a scope are those that the innermost frames declare, even where a frame
further in declares the name as something that is not a variable.
-/

namespace ControlReach

open List

variable {x : String} {v : Variable} {symbols : List (String × Binding)}

/-- A frame in which names are declared one after another. -/
inductive Frame.Declared : Frame → Prop
  | empty (kind : FrameKind) (name : String) : Declared (.empty kind name)
  | declare {f f' : Frame} (x : String) (b : Binding) (loc : Option Location) :
      Declared f → f.declare x b loc = .ok f' → Declared f'

/-- The variables among declarations, in order. -/
def variablesOf : List (String × Binding) → List (String × Variable)
  | [] => []
  | (x, .variable v) :: rest => (x, v) :: variablesOf rest
  | _ :: rest => variablesOf rest

def Frame.variables (f : Frame) : List (String × Variable) := variablesOf f.symbols

/-- The variables of frames outermost first, except those declared again in `inner` frames. -/
def shownVariables (inner : List Frame) : List Frame → List (String × Variable)
  | [] => []
  | f :: outer => shownVariables (f :: inner) outer ++
      f.variables.filter fun p => ∀ g ∈ inner, p.1 ∉ g.variables.map Prod.fst

theorem mem_variablesOf : (x, v) ∈ variablesOf symbols ↔ (x, .variable v) ∈ symbols := by
  fun_induction variablesOf symbols with
  | case1 => simp
  | case2 y w rest ih => simp [ih]
  | case3 p rest hother ih =>
    rw [ih, mem_cons, or_iff_right]
    rintro rfl
    exact hother x v rfl

theorem names_variablesOf (symbols : List (String × Binding)) :
    (variablesOf symbols).map Prod.fst <+ symbols.map Prod.fst := by
  fun_induction variablesOf symbols with
  | case1 => exact .slnil
  | case2 y w rest ih => exact ih.cons_cons y
  | case3 p rest _ ih => exact ih.cons p.1

namespace Frame.Declared

variable {f : Frame} (hf : f.Declared)

include hf

theorem nodup_names : (f.symbols.map Prod.fst).Nodup := by
  induction hf with
  | empty => exact nodup_nil
  | declare x b loc _ hdeclare ih =>
    obtain ⟨hnew, rfl⟩ := Frame.declare_eq_ok hdeclare
    rw [map_append]
    exact nodup_append_comm.1 (nodup_cons.2 ⟨hnew, ih⟩)

theorem nodup_variables : (f.variables.map Prod.fst).Nodup :=
  hf.nodup_names.sublist (names_variablesOf f.symbols)

theorem lookup_variables : f.variables.lookup x = some v ↔ f.lookup x = some (.variable v) := by
  refine ⟨fun h => Assoc.lookup_of_mem hf.nodup_names ?_,
    fun h => Assoc.lookup_of_mem hf.nodup_variables ?_⟩
  · exact mem_variablesOf.1 (Assoc.mem_of_lookup h)
  · exact mem_variablesOf.2 (Assoc.mem_of_lookup h)

end Frame.Declared

namespace Scope

theorem addVisible_eq (hnodup : (symbols.map Prod.fst).Nodup) (seen : List (String × Variable)) :
    addVisible seen symbols =
      seen.filter (fun p => p.1 ∉ (variablesOf symbols).map Prod.fst) ++ variablesOf symbols := by
  fun_induction addVisible seen symbols with
  | case1 => simp [variablesOf]
  | case2 seen y v rest ih =>
    obtain ⟨hy, hrest⟩ := nodup_cons.1 hnodup
    have hy' : y ∉ (variablesOf rest).map Prod.fst := fun h => hy ((names_variablesOf rest).subset h)
    have hseen : ∀ p : String × Variable, (decide (p.1 ∉ (variablesOf rest).map Prod.fst) &&
        p.1 != y) = decide (p.1 ∉ y :: (variablesOf rest).map Prod.fst) := fun p => by
      simp [bne, Bool.and_comm]
    rw [ih hrest, filter_append, filter_filter, filter_singleton, variablesOf, map_cons,
      decide_eq_true hy', append_assoc, funext hseen]
    rfl
  | case3 seen p rest hother ih =>
    rw [ih (nodup_cons.1 hnodup).2, variablesOf]
    exact hother

/-- The variables that are reported for frames around each other. -/
def visibleIn (frames : List Frame) : List (String × Variable) :=
  frames.foldr (fun f seen => addVisible seen f.symbols) []

theorem visibleIn_cons {f : Frame} (hf : f.Declared) (outer : List Frame) : visibleIn (f :: outer) =
    (visibleIn outer).filter (·.1 ∉ f.variables.map Prod.fst) ++ f.variables :=
  addVisible_eq hf.nodup_names _

section Frames

variable {frames : List Frame} (hframes : ∀ f ∈ frames, f.Declared)

include hframes

theorem shownVariables_eq (inner : List Frame) : shownVariables inner frames =
    (visibleIn frames).filter fun p => ∀ g ∈ inner, p.1 ∉ g.variables.map Prod.fst := by
  induction frames generalizing inner with
  | nil => rfl
  | cons f outer ih =>
    obtain ⟨hf, houter⟩ := forall_mem_cons.1 hframes
    rw [shownVariables, ih houter, visibleIn_cons hf, filter_append, filter_filter]
    congr 1
    refine filter_congr fun p _ => ?_
    rw [← Bool.decide_and, decide_eq_decide, forall_mem_cons, and_comm]

theorem mem_visibleIn : (x, v) ∈ visibleIn frames ↔
    frames.findSome? (·.variables.lookup x) = some v := by
  induction frames with
  | nil => simp [visibleIn]
  | cons f outer ih =>
    obtain ⟨hf, houter⟩ := forall_mem_cons.1 hframes
    rw [visibleIn_cons hf, mem_append, mem_filter, findSome?_cons, ih houter]
    cases hx : f.variables.lookup x with
    | none =>
      have hnot := Assoc.lookup_eq_none_iff.1 hx
      rw [or_iff_left fun h => hnot (mem_map_of_mem h), decide_eq_true hnot]
      exact and_iff_left rfl
    | some w =>
      have hmem : x ∈ f.variables.map Prod.fst := mem_map_of_mem (Assoc.mem_of_lookup hx)
      rw [or_iff_right (by simp [hmem]), Option.some.injEq]
      refine ⟨fun h => ?_, fun h => h ▸ Assoc.mem_of_lookup hx⟩
      rw [Assoc.lookup_of_mem hf.nodup_variables h] at hx
      exact (Option.some.inj hx).symm

theorem findSome?_variables
    (hkind : ∀ b, frames.findSome? (·.lookup x) = some b → b.kind = .variable) :
    frames.findSome? (·.variables.lookup x) = some v ↔
      frames.findSome? (·.lookup x) = some (.variable v) := by
  induction frames with
  | nil => simp
  | cons f outer ih =>
    obtain ⟨hf, houter⟩ := forall_mem_cons.1 hframes
    rw [findSome?_cons] at hkind
    rw [findSome?_cons, findSome?_cons]
    cases hx : f.lookup x with
    | none =>
      have hnone : f.variables.lookup x = none := Option.eq_none_iff_forall_ne_some.2 fun w hw => by
        cases hx.symm.trans (hf.lookup_variables.1 hw)
      rw [hx] at hkind
      rw [hnone]
      exact ih houter hkind
    | some b =>
      rw [hx] at hkind
      obtain ⟨w, rfl⟩ : ∃ w, b = .variable w := by
        cases b <;> first | exact ⟨_, rfl⟩ | cases hkind _ rfl
      simp [hf.lookup_variables.2 hx]

end Frames

theorem lookup_eq_findSome? (s : Scope) (x : String) :
    s.lookup x = s.frames.findSome? (·.lookup x) := by
  have hfrom : ∀ (outer : List Frame) (inner : Frame),
      (findFrom x inner outer).map Prod.fst = (inner :: outer).findSome? (·.lookup x) := by
    intro outer
    induction outer with
    | nil =>
      intro inner
      rw [findFrom, findSome?_cons]
      cases inner.lookup x <;> rfl
    | cons f outer ih =>
      intro inner
      rw [findFrom, findSome?_cons]
      cases inner.lookup x with
      | none => exact ih f
      | some b => rfl
  rw [lookup, find?, Option.map_map, frames, ← hfrom]
  rfl

/-- Variables are reported outermost first, each name once, for the innermost frame that declares it
as a variable. -/
theorem visible_spec (s : Scope) (hs : ∀ f ∈ s.frames, f.Declared) :
    s.visible = shownVariables [] s.frames ∧ (s.visible.map Prod.fst).Nodup ∧
    (∀ x v, (x, v) ∈ s.visible ↔ s.frames.findSome? (·.variables.lookup x) = some v) ∧
    ∀ x, (∀ b, s.lookup x = some b → b.kind = .variable) →
      ∀ v, (x, v) ∈ s.visible ↔ s.lookup x = some (.variable v) := by
  refine ⟨?_, s.nodup_visible, fun x v => mem_visibleIn hs, fun x hkind v => ?_⟩
  · rw [shownVariables_eq hs, filter_eq_self.2 fun _ _ => by simp]
    rfl
  · rw [lookup_eq_findSome?] at hkind ⊢
    exact (mem_visibleIn hs).trans (findSome?_variables hs hkind)

def shadowing : Scope where
  inner := ⟨.block, "", [("x", .constant none),
    ("y", .variable ⟨1, "y", .bool, .ordinary, .data, false, "y"⟩)], false⟩
  outer := [⟨.control, "C", [("x", .variable ⟨0, "x", .bool, .parameter, .data, true, "x"⟩)], false⟩]
  invalid := []

theorem declared_shadowing : ∀ f ∈ shadowing.frames, f.Declared := by
  refine forall_mem_cons.2 ⟨?_, forall_mem_singleton.2 ?_⟩
  · have hx := Frame.Declared.declare "x" (.constant none) none (.empty .block "") rfl
    exact hx.declare "y" _ none rfl
  · exact Frame.Declared.declare "x" _ none (.empty .control "C") rfl

theorem visible_spec_shadowing : shadowing.visible = shownVariables [] shadowing.frames ∧
    shadowing.visible.map Prod.fst = ["x", "y"] ∧ (shadowing.visible.map Prod.fst).Nodup ∧
    ∀ v, ("y", v) ∈ shadowing.visible ↔ shadowing.lookup "y" = some (.variable v) := by
  obtain ⟨hshown, hnodup, -, hlookup⟩ := visible_spec shadowing declared_shadowing
  refine ⟨hshown, rfl, hnodup, hlookup "y" fun b hb => ?_⟩
  obtain rfl := Option.some.inj hb
  rfl

/-- The parameter is reported under a name that stands for the constant. -/
theorem not_forall_mem_visible_iff : ¬ ∀ s : Scope, (∀ f ∈ s.frames, f.Declared) →
    ∀ x v, (x, v) ∈ s.visible ↔ s.lookup x = some (.variable v) := by
  intro h
  cases (h shadowing declared_shadowing "x" _).1 mem_cons_self

end Scope

end ControlReach
