import ControlReach.Proofs.CallEntries

/-!
# Constructions with a call graph

With a call graph no function on a cycle is inlined. Two constructions, one with it and one
without, go through the same states as long as nothing fails and nothing on a cycle is inlined.
-/

namespace ControlReach

open Builder Elaborate

/-- The context that also refuses the functions on cycles of a call graph. -/
def Context.guarded (g : CallGraph) (ctx : Context) : Context :=
  { ctx with recursive := ctx.recursive ++ g.recursive, cycle := g.cycleThrough }

theorem Context.recursion?_guarded {ctx : Context} :
    (ctx.guarded g).recursion? q = none ↔ q ∉ g.recursive ∧ ctx.recursion? q = none := by
  rw [recursion?_eq_none_iff, recursion?_eq_none_iff, guarded, List.mem_append]
  tauto

/-- None of the given bodies has been inlined. -/
def Build.Avoids (l : List String) (st : Build) : Prop := ∀ q ∈ l, q ∉ st.inlined

namespace Builder

/-- The first step, if it succeeds, does what the second does, inlining none of the given bodies. -/
structure Follows (l : List String) {α : Type} (x y : Builder α) : Prop where
  keeps : Keeps x
  keeps' : Keeps y
  runs : ∀ {st a st'}, st.Avoids l → st'.errors = [] →
    (Runs x st a st' ↔ Runs y st a st' ∧ st'.Avoids l)

theorem Runs.bind_iff {α β : Type} {x : Builder α} {f : α → Builder β} {st st'' : Build} {b : β} :
    Runs (x >>= f) st b st'' ↔ ∃ a st', Runs x st a st' ∧ Runs (f a) st' b st'' := by
  refine ⟨Runs.bind, ?_⟩
  rintro ⟨a, st', hx, hf⟩
  unfold Runs
  rw [run_bind, show x.run st = _ from hx]
  exact hf

theorem Runs.recorded_iff {α : Type} {step : Builder α} {a b : α} {st st' : Build}
    (he : st'.errors = []) : Runs (Builder.recorded a step) st b st' ↔ Runs step st b st' := by
  refine ⟨fun h => h.recorded he, fun h => ?_⟩
  unfold Runs
  rw [run_recorded, show step.run st = _ from h]

namespace Follows

variable {α : Type}

theorem of_steady (h : Steady x) : Follows l x x where
  keeps := h.keeps
  keeps' := h.keeps
  runs := by
    intro st a st' hst _
    refine ⟨fun hrun => ⟨hrun, fun q hq => ?_⟩, And.left⟩
    rw [h.inlined hrun]
    exact hst q hq

theorem bind (hx : Follows l x y) (hf : ∀ a, Follows l (f a) (g a)) :
    Follows l (x >>= f) (y >>= g) where
  keeps := hx.keeps.bind fun a => (hf a).keeps
  keeps' := hx.keeps'.bind fun a => (hf a).keeps'
  runs := by
    intro st b st'' hst he
    rw [Runs.bind_iff, Runs.bind_iff]
    constructor
    · rintro ⟨a, st', hrun, hrest⟩
      obtain ⟨hrun', hst'⟩ := (hx.runs hst ((hf a).keeps.errors_eq_nil hrest he)).1 hrun
      obtain ⟨hrest', hst''⟩ := ((hf a).runs hst' he).1 hrest
      exact ⟨⟨a, st', hrun', hrest'⟩, hst''⟩
    · rintro ⟨⟨a, st', hrun, hrest⟩, hst''⟩
      -- What has been inlined in between is still there at the end.
      have hst' : st'.Avoids l := fun q hq hmem => hst'' q hq ((hf a).keeps'.inlined hrest hmem)
      exact ⟨a, st', (hx.runs hst ((hf a).keeps'.errors_eq_nil hrest he)).2 ⟨hrun, hst'⟩,
        ((hf a).runs hst' he).2 ⟨hrest, hst''⟩⟩

theorem recorded (h : Follows l x y) (a : α) :
    Follows l (Builder.recorded a x) (Builder.recorded a y) where
  keeps := h.keeps.recorded a
  keeps' := h.keeps'.recorded a
  runs := by
    intro st b st' hst he
    rw [Runs.recorded_iff he, Runs.recorded_iff he]
    exact h.runs hst he

end Follows

/-- A body is entered with and without the call graph, or it is on a cycle. -/
theorem follows_enterBody {graph : CallGraph} {α : Type} {ctx : Context} {q : String}
    {loc : Option Location} {f g : Context → Builder α}
    (hf : ∀ ctx', Follows graph.recursive (f (ctx'.guarded graph)) (g ctx')) :
    Follows graph.recursive (enterBody (ctx.guarded graph) q loc >>= f)
      (enterBody ctx q loc >>= g) where
  keeps := Keeps.enterBody (hf (inside ctx q)).keeps loc
  keeps' := Keeps.enterBody (hf (inside ctx q)).keeps' loc
  runs := by
    intro st a st' hst he
    rw [Runs.bind_iff, Runs.bind_iff]
    constructor
    · rintro ⟨_, st₁, henter, hrest⟩
      obtain ⟨hguard, rfl, rfl⟩ := runs_enterBody.1 henter
      obtain ⟨hq, hnone⟩ := Context.recursion?_guarded.1 hguard
      have hst₁ : Build.Avoids graph.recursive { st with inlined := noting q st.inlined } := by
        intro x hx hmem
        obtain rfl | hmem := mem_noting.1 hmem
        · exact hq hx
        · exact hst x hx hmem
      obtain ⟨hrest, hst'⟩ := ((hf (inside ctx q)).runs hst₁ he).1 hrest
      exact ⟨⟨_, _, runs_enterBody.2 ⟨hnone, rfl, rfl⟩, hrest⟩, hst'⟩
    · rintro ⟨⟨_, st₁, henter, hrest⟩, hst'⟩
      obtain ⟨hnone, rfl, rfl⟩ := runs_enterBody.1 henter
      have hst₁ : Build.Avoids graph.recursive { st with inlined := noting q st.inlined } :=
        fun x hx hmem => hst' x hx ((hf _).keeps'.inlined hrest hmem)
      have hq : q ∉ graph.recursive := fun hq => hst₁ q hq (mem_noting.2 (.inl rfl))
      refine ⟨_, _, runs_enterBody.2 ⟨Context.recursion?_guarded.2 ⟨hq, hnone⟩, rfl, rfl⟩, ?_⟩
      exact ((hf (inside ctx q)).runs hst₁ he).2 ⟨hrest, hst'⟩

theorem congruence_follows (graph : CallGraph) :
    Congruence (fun _ x y => Follows graph.recursive x y) fun ctx ctx' => ctx = ctx'.guarded graph where
  context := by
    rintro _ ctx rfl
    exact ⟨_, _, rfl⟩
  steady := Follows.of_steady
  bind := Follows.bind
  recorded := Follows.recorded
  enterBody := by
    rintro _ ctx q loc f g rfl hf
    exact follows_enterBody fun ctx => hf _ ctx rfl

end Builder

end ControlReach
