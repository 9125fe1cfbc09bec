import ControlReach.Assoc
import ControlReach.Flow.Graph
import ControlReach.Query.Symbolic

/-!
# Symbolic execution

A symbolic store gives values to the variables assigned so far, in the order of their first
assignment.
-/

namespace ControlReach

/-- The values of variables, by the variables' numbers. -/
abbrev Store := List (Nat × Variable × SymValue)

def Store.value? (s : Store) (v : Variable) : Option SymValue := (s.lookup v.uid).map Prod.snd

def Store.assign (s : Store) (v : Variable) (w : SymValue) : Store := Assoc.set v.uid (v, w) s

namespace Rvalue

mutual

def evaluate (s : Store) : Rvalue → Except EvalFault SymValue
  | .bool b => .ok (.term (.bool b))
  | .text t => .ok (.term (.text t))
  | .read v =>
    match s.value? v with
    | some w => .ok w
    | none => .error (.undefined v.display)
  | .field base f => do (← evaluate s base).get f
  | .struct fields => do return .struct (← evaluateFields s fields)
  | .not operand => do return .term (Term.mkNot (← (← evaluate s operand).scalar))
  | .and left right => do
    let a ← (← evaluate s left).scalar
    let b ← (← evaluate s right).scalar
    return .term (Term.mkAnd [a, b])
  | .or left right => do
    let a ← (← evaluate s left).scalar
    let b ← (← evaluate s right).scalar
    return .term (Term.mkOr [a, b])
  | .equal negated left right => do
    let a ← evaluate s left
    let b ← evaluate s right
    let t ← a.equality b
    return .term (if negated then Term.mkNot t else t)
  | .guard _ _ name => .ok (.term (Term.flag name))

def evaluateFields (s : Store) :
    List (String × Rvalue) → Except EvalFault (List (String × SymValue))
  | [] => .ok []
  | (f, e) :: rest => do
    let v ← evaluate s e
    return (f, v) :: (← evaluateFields s rest)

end

def condition (s : Store) (e : Rvalue) : Except EvalFault Term := do (← e.evaluate s).scalar

end Rvalue

def freshName (v : Variable) (fresh : Nat) : String := v.display ++ "@" ++ toString fresh

/-- Execute an operation: the store afterwards, and the conditions added to `assumed`. -/
def Op.execute (op : Op) (s : Store) (assumed : List Term) : Except EvalFault (Store × List Term) :=
  match op with
  | .assign v [] e _ => do return (s.assign v (← e.evaluate s), assumed)
  | .assign v (f :: path) e _ => do
    let w ← e.evaluate s
    match s.value? v with
    | none => throw (.unassigned v.display)
    | some old => return (s.assign v (← old.update (f :: path) w), assumed)
  | .havoc v fresh _ => .ok (s.assign v (SymValue.fresh (freshName v fresh) v.ty), assumed)
  | .assume e _ => do return (s, assumed ++ [← e.condition s])

def execute : List Op → Store → List Term → Except EvalFault (Store × List Term)
  | [], s, assumed => .ok (s, assumed)
  | op :: rest, s, assumed => do
    let (s, assumed) ← op.execute s assumed
    execute rest s assumed

end ControlReach
