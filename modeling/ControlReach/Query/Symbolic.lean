import ControlReach.Formula.Build
import ControlReach.Typing.Ty

/-!
# Symbolic values

The value of a variable as a term, or, for a struct, as one value for each field.
-/

namespace ControlReach

/-- The symbolic value of a variable. -/
inductive SymValue where
  | term (t : Term)
  | struct (fields : List (String × SymValue))
  deriving Inhabited

/-- Why an expression has no value. -/
inductive EvalFault where
  | undefined (name : String)
  /-- A field of a variable is stored to that has no value. -/
  | unassigned (name : String)
  | noField (name : String)
  | notStruct
  | notScalar
  | scalarPath (path : List String)
  deriving DecidableEq, Repr

def Ty.sort : Ty → Sorts
  | .string => .string
  | _ => .bool

namespace SymValue

mutual

/-- Comparison of values, with what it means. Two parts that are one object are not looked into. -/
def same : (a b : SymValue) → { r : Bool // r = true ↔ a = b }
  | .term a, .term b => ⟨a == b, by simp⟩
  | .term _, .struct _ => ⟨false, by simp⟩
  | .struct _, .term _ => ⟨false, by simp⟩
  | .struct as, .struct bs => ⟨(sameFields as bs).1, by simp [(sameFields as bs).2]⟩

def sameFields : (as bs : List (String × SymValue)) → { r : Bool // r = true ↔ as = bs }
  | [], [] => ⟨true, by simp⟩
  | [], _ :: _ => ⟨false, by simp⟩
  | _ :: _, [] => ⟨false, by simp⟩
  | (n, a) :: as, (m, b) :: bs =>
    ⟨n == m && withPtrEq a b (fun _ => (same a b).1) (same a b).2.2 && (sameFields as bs).1, by
      simp [withPtrEq, (same a b).2, (sameFields as bs).2]⟩

end

instance : DecidableEq SymValue := fun a b =>
  decidable_of_iff (withPtrEq a b (fun _ => (same a b).1) (same a b).2.2 = true) (same a b).2

mutual

/-- An arbitrary value of a type; the unknowns of its leaves are named after `name`. -/
def fresh (name : String) : Ty → SymValue
  | .bool => .term (.symbol ⟨name, .bool⟩)
  | .string => .term (.symbol ⟨name, .string⟩)
  | .struct _ fields => .struct (freshFields name fields)

def freshFields (name : String) : List (String × Ty) → List (String × SymValue)
  | [] => []
  | (f, ty) :: rest => (f, fresh (name ++ "." ++ f) ty) :: freshFields name rest

end

def scalar : SymValue → Except EvalFault Term
  | .term t => .ok t
  | .struct _ => .error .notScalar

def get (v : SymValue) (f : String) : Except EvalFault SymValue :=
  match v with
  | .term _ => .error .notStruct
  | .struct fields =>
    match fields.lookup f with
    | some w => .ok w
    | none => .error (.noField f)

def replace (fields : List (String × SymValue)) (f : String) (w : SymValue) :
    List (String × SymValue) :=
  fields.map fun p => if p.1 = f then (p.1, w) else p

def update (v : SymValue) : List String → SymValue → Except EvalFault SymValue
  | [], w => .ok w
  | f :: path, w =>
    match v with
    | .term _ => .error (.scalarPath (f :: path))
    | .struct fields => do
      let inner ← (SymValue.struct fields).get f
      return .struct (replace fields f (← update inner path w))

mutual

def leaves (path : List String) : SymValue → List (List String × Term)
  | .term t => [(path, t)]
  | .struct fields => leavesOf path fields

def leavesOf (path : List String) : List (String × SymValue) → List (List String × Term)
  | [] => []
  | (f, v) :: rest => leaves (path ++ [f]) v ++ leavesOf path rest

end

mutual

/-- The term that says that two values are equal; for structs, field by field. -/
def equality : SymValue → SymValue → Except EvalFault Term
  | .term a, .term b => .ok (Term.mkEq a b)
  | .struct as, .struct bs => do return Term.mkAnd (← equalities as bs)
  | _, _ => .error .notScalar

def equalities : List (String × SymValue) → List (String × SymValue) → Except EvalFault (List Term)
  | [], _ => .ok []
  | (f, a) :: as, bs => do
    let b ← (SymValue.struct bs).get f
    let t ← equality a b
    return t :: (← equalities as bs)

end

end SymValue

end ControlReach
