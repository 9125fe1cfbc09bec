import ControlReach.Proofs.Generation
import Mathlib.Tactic.Linarith
import Mathlib.Tactic.Ring

/-!
# Formulas that are not linear in the graph

A term that is used twice is written twice. A control that stores `x == !x` to `x` again and again
doubles the value of `x` each time, so formulas grow exponentially.
-/

namespace ControlReach

open List Term

/-! ### The size of a graph -/

mutual

def Rvalue.extent : Rvalue → Nat
  | .bool _ | .text _ | .read _ | .guard _ _ _ => 1
  | .field e _ | .not e => 1 + extent e
  | .struct fields => 1 + extentOf fields
  | .and a b | .or a b | .equal _ a b => 1 + (extent a + extent b)

def Rvalue.extentOf : List (String × Rvalue) → Nat
  | [] => 0
  | (_, e) :: rest => extent e + extentOf rest

end

def Op.extent : Op → Nat
  | .assign _ _ e _ | .assume e _ => e.extent
  | .havoc _ _ _ => 1

def Edge.extent (e : Edge) : Nat := 1 + (e.guard.map Rvalue.extent).getD 0

def FlowBlock.extent (b : FlowBlock) : Nat :=
  1 + (b.ops.map Op.extent).sum + (b.edges.map Edge.extent).sum

/-- The number of blocks, edges, nodes of expressions, and scalars observed. -/
def FlowGraph.extent (g : FlowGraph) (t : Target) : Nat :=
  (g.blocks.map FlowBlock.extent).sum + (t.observed.map fun q => (q.2.ty.leaves []).length).sum

namespace Doubling

/-! ### The control -/

def x : Expr := .var "x" none

def double : Stmt := .assign x (.equal false x (.not x none) none) none

def bug : Stmt := .call (.var "bug" none) [] none none

variable (n : Nat)

def control : ControlDecl where
  name := "c"
  params := [⟨.inout, .bool none, "x", none⟩]
  locals := []
  body := .mk (replicate n double ++ [bug]) none
  loc := none

def program : Program := ⟨[.control (control n)], ""⟩

theorem mem_controls : control n ∈ (program n).controls := mem_cons_self

/-! ### Its graph -/

def v : Variable := ⟨0, "x", .bool, .parameter, .inout, false, "x"⟩

def op : Op := .assign v [] (.equal false (.read v) (.not (.read v))) none

def ops : List Op := .havoc v 0 none :: replicate n op

def goal : Target := ⟨"c", 0, .bug, 1, "bug() reached", none, [("x", v)]⟩

def scope (n : Nat) : Scope :=
  Scope.enter { (program n).globals.scope.enter .control "c" with
    inner := ⟨.control, "c", [("x", .variable v)], false⟩ } .block ""

def during (ops : List Op) : Build :=
  { blocks := [⟨0, "entry", ops, [], [], none⟩], current := 0, targets := [], sites := [],
    inputs := [v], errors := [], nextUid := 1, nextFresh := 1, inlined := [], pending := [] }

def final (ops : List Op) : Build :=
  { during ops with
    blocks := [⟨0, "entry", ops, [⟨1, .assertFail, none⟩], [], none⟩,
      ⟨1, "bug", [], [], [0], some goal⟩, ⟨2, "after-bug", [], [], [], none⟩]
    current := 2
    targets := [goal] }

def graph : FlowGraph where
  name := "c"
  blocks := [⟨0, "entry", ops n, [⟨1, .assertFail, none⟩], [], none⟩,
    ⟨1, "bug", [], [], [0], some goal⟩]
  entry := 0
  targets := [goal]
  deadTargets := []
  sites := []
  inputs := [v]
  pruned := 1

theorem run_statements (n m : Nat) (ops : List Op) :
    (Elaborate.statements (Elaborate.call (inlineBound (program n).globals.scope))
      (.initial none (control n)) (scope n) (replicate m double ++ [bug])).run (during ops) =
        (.ok (), final (ops ++ replicate m op)) := by
  induction m generalizing ops with
  | zero =>
    rw [replicate_zero, replicate_zero, append_nil]
    rfl
  | succ m ih =>
    rw [replicate_succ, replicate_succ, append_cons ops op]
    exact ih (ops ++ [op])

theorem run_control : (Elaborate.control (inlineBound (program n).globals.scope)
    (.initial none (control n)) (program n).globals.scope (control n)).run Build.initial =
      (.ok (), final (ops n)) := by
  have hbody : (Elaborate.body (inlineBound (program n).globals.scope) (.initial none (control n))
      (program n).globals.scope (control n)).run Build.initial = (.ok (), final (ops n)) :=
    run_statements n n [.havoc v 0 none]
  rw [Elaborate.control_eq, Builder.run_bind, hbody]
  rfl

theorem ofControl_eq :
    FlowGraph.ofControl (program n).globals.scope none (control n) = (graph n, []) := by
  rw [FlowGraph.ofControl]
  simp only [run_control]
  rfl

theorem extent_graph : (graph n).extent goal = 4 * n + 5 := by
  have hops : ((ops n).map Op.extent).sum = 4 * n + 1 := by
    have hop : Op.extent op = 4 := rfl
    rw [ops, map_cons, sum_cons, map_replicate, sum_replicate_nat, hop, Op.extent]
    omega
  have hgraph : (graph n).extent goal = 1 + ((ops n).map Op.extent).sum + 1 + 1 + 1 := rfl
  rw [hgraph, hops]
  omega

/-! ### Its query -/

def value : Nat → Term
  | 0 => .symbol ⟨"x@0", .bool⟩
  | n + 1 => .eq (value n) (.not (value n))

theorem size_value : (value n).size + 2 = 3 * 2 ^ n := by
  induction n with
  | zero => rfl
  | succ n ih =>
    rw [value, size, size, Nat.pow_succ]
    omega

theorem mkNot_value : mkNot (value n) = .not (value n) := by
  cases n <;> rfl

theorem mkEq_value : mkEq (value n) (.not (value n)) = value (n + 1) := by
  have hne : value n ≠ .not (value n) := by cases n <;> exact nofun
  unfold mkEq
  rw [if_neg hne]
  cases n <;> rfl

theorem execute_op : op.execute [(0, v, .term (value n))] [] =
    .ok ([(0, v, .term (value (n + 1)))], []) := by
  rw [← mkEq_value, ← mkNot_value]
  rfl

theorem execute_replicate (m n : Nat) : execute (replicate m op) [(0, v, .term (value n))] [] =
    .ok ([(0, v, .term (value (n + m)))], []) := by
  induction m generalizing n with
  | zero => rfl
  | succ m ih =>
    have hcount : n + 1 + m = n + (m + 1) := by omega
    rw [replicate_succ, execute, execute_op, ← hcount]
    exact ih (n + 1)

theorem execute_ops : execute (ops n) [] [] = .ok ([(0, v, .term (value n))], []) := by
  have hexecute := execute_replicate n 0
  rw [Nat.zero_add] at hexecute
  exact hexecute

def handed : Progress :=
  ⟨[(0, [⟨tt, []⟩]), (1, [⟨tt, [(0, v, .term (value n))]⟩])], []⟩

def seen : Symbol := ⟨"c#0|x", .bool⟩

def query : Query := ⟨goal, .eq (.symbol seen) (value (n + 1)), [], [("x", seen)], []⟩

theorem visit_entry : visitBlock (graph n) goal ((graph n).reaching goal.block) 0
    (graph n).start = .ok (.inr (handed n)) := by
  have hpass : (graph n).pass 0 (graph n).start =
      .ok (some ⟨[], tt, [(0, v, .term (value n))]⟩) := by
    show (execute (ops n) [] [] >>= _) = _
    rw [execute_ops]
    rfl
  rw [visitBlock_eq, hpass]
  rfl

theorem visit_goal : visitBlock (graph (n + 1)) goal
    ((graph (n + 1)).reaching goal.block) 1 (handed (n + 1)) =
      .ok (.inl ((query n).formula, (query n).observations)) := by
  have hne : symbol seen ≠ value (n + 1) := nofun
  have heq : mkEq (.symbol seen) (value (n + 1)) = (query n).formula := by
    unfold mkEq
    rw [if_neg hne]
    rfl
  have hand : mkAnd [tt, mkEq (.symbol seen) (value (n + 1))] =
      (query n).formula := by
    rw [heq]
    rfl
  rw [← hand]
  rfl

theorem generate_eq : ((graph (n + 1)).generate true goal .never).1 = .ok (query n) := by
  have hback : (!(graph (n + 1)).backEdges.isEmpty) = false := rfl
  have hblock : ((graph (n + 1)).block? goal.block).isNone = false := rfl
  have horder : (graph (n + 1)).topological ((graph (n + 1)).reaching goal.block) = [0, 1] := rfl
  have hformula : (graph (n + 1)).formula goal ((graph (n + 1)).reaching goal.block) .never =
      (.ok ((query n).formula, (query n).observations), .never) := by
    change visitBlocks _ _ _ _ _ (graph (n + 1)).start = _
    rw [horder]
    simp only [visitBlocks, Token.poll_never, visit_entry, visit_goal]
    rfl
  rw [FlowGraph.generate, hback, hblock, if_neg Bool.false_ne_true, if_neg Bool.false_ne_true]
  simp only [hformula]
  rfl

theorem size_query : (query n).formula.size = 3 * 2 ^ (n + 1) := by
  rw [← size_value, query, size, size]
  omega

theorem mul_lt_two_pow (k : Nat) : k * (4 * (2 * k + 6) + 5) < 2 ^ (2 * k + 6) := by
  have hk : (k + 1) * (k + 1) ≤ 2 ^ k * 2 ^ k :=
    Nat.mul_le_mul Nat.lt_two_pow_self Nat.lt_two_pow_self
  calc k * (4 * (2 * k + 6) + 5) < 64 * ((k + 1) * (k + 1)) := by nlinarith
    _ ≤ 64 * (2 ^ k * 2 ^ k) := Nat.mul_le_mul_left 64 hk
    _ = 2 ^ (2 * k + 6) := by ring

end Doubling

/-- With each further statement the graph gets four nodes more, and the formula twice as large. -/
theorem FlowGraph.exists_size_eq (n : Nat) : ∃ (p : Program) (d : ControlDecl) (g : FlowGraph)
    (t : Target) (q : Query), d ∈ p.controls ∧ d.body.statements.length = n + 2 ∧
      ofControl p.globals.scope none d = (g, []) ∧ t ∈ g.targets ∧
      (g.generate true t .never).1 = .ok q ∧
      g.extent t = 4 * (n + 1) + 5 ∧ q.formula.size = 3 * 2 ^ (n + 1) := by
  have hlength : (Doubling.control (n + 1)).body.statements.length = n + 2 := by
    simp [Doubling.control, Block.statements]
  exact ⟨_, _, _, Doubling.goal, _, Doubling.mem_controls (n + 1), hlength,
    Doubling.ofControl_eq (n + 1), mem_cons_self, Doubling.generate_eq n,
    Doubling.extent_graph (n + 1), Doubling.size_query n⟩

/-- The size of formulas is not bounded by a constant times the size of the graph. -/
theorem FlowGraph.not_exists_size_le : ¬ ∃ k, ∀ (p : Program) (calls : Option CallGraph)
    (d : ControlDecl) (g : FlowGraph) (t : Target) (exclusive : Bool) (q : Query),
    d ∈ p.controls → ofControl p.globals.scope calls d = (g, []) → t ∈ g.targets →
    (g.generate exclusive t .never).1 = .ok q → q.formula.size ≤ k * g.extent t := by
  rintro ⟨k, h⟩
  have hsize := h (Doubling.program (2 * k + 6)) none _ _ _ true _ (Doubling.mem_controls _)
    (Doubling.ofControl_eq _) mem_cons_self (Doubling.generate_eq (2 * k + 5))
  have hlt : k * (4 * (2 * k + 6) + 5) < 2 ^ (2 * k + 5 + 1) := Doubling.mul_lt_two_pow k
  rw [Doubling.extent_graph, Doubling.size_query] at hsize
  omega

end ControlReach
