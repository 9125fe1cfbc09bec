import ControlReach.Proofs.RelatedSteps

/-!
# Contexts that list the same recursive functions

A construction asks of a function only whether it is among the recursive ones. So the order in
which these are listed makes no difference to what is built.
-/

namespace ControlReach

open Builder

def Context.listing (ctx : Context) (l : List String) : Context := { ctx with recursive := l }

def Context.Lists (ctx : Context) (l : List String) : Prop := ∀ q, q ∈ l ↔ q ∈ ctx.recursive

theorem Context.Lists.recursion? {ctx : Context} (h : ctx.Lists l) (q : String) :
    (ctx.listing l).recursion? q = ctx.recursion? q := if_congr (h q) rfl rfl

/-- Elaborations take the same steps in contexts with the same recursive functions. -/
theorem Builder.congruence_listing (l : List String) :
    Congruence (fun _ x y => x = y) fun ctx ctx' => ctx.Lists l ∧ ctx' = ctx.listing l where
  context := fun ⟨_, hctx⟩ => ⟨_, _, hctx⟩
  steady := fun _ => rfl
  bind := fun hx hf => by rw [hx, funext hf]
  recorded := fun hx a => by rw [hx]
  enterBody := by
    rintro ctx _ q loc f g ⟨hctx, rfl⟩ hf
    unfold Builder.enterBody
    rw [hctx.recursion? q]
    cases ctx.recursion? q with
    | some cycle => rfl
    | none =>
      dsimp only
      rw [bind_assoc, bind_assoc]
      exact bind_congr fun _ => hf { ctx with stack := ctx.stack ++ [q] } _ ⟨hctx, rfl⟩

/-- The same is built for a control, in whatever order the recursive functions are listed. -/
theorem Elaborate.control_listing {ctx : Context} (h : ctx.Lists l) (depth : Nat) (globals : Scope)
    (c : ControlDecl) : control depth (ctx.listing l) globals c = control depth ctx globals c :=
  ((congruence_listing l).elaboration ⟨h, rfl⟩ depth globals c).symm

end ControlReach
