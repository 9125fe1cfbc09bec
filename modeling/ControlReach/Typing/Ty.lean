import ControlReach.Text.Quoted

/-!
# Types

A struct type carries its fields in order; it is anonymous when it is the type of a struct literal
that no context gave a type.
-/

namespace ControlReach

/-- The type of a value. -/
inductive Ty where
  | bool
  | string
  | struct (name : Option String) (fields : List (String × Ty))
  deriving Inhabited

namespace Ty

def isStruct : Ty → Bool
  | .struct _ _ => true
  | _ => false

def fields : Ty → List (String × Ty)
  | .struct _ fields => fields
  | _ => []

def fieldNames (t : Ty) : List String := t.fields.map Prod.fst

def field? (t : Ty) (name : String) : Option Ty := t.fields.lookup name

mutual

/-- The printed form: a struct goes by its name, an anonymous one shows its fields. -/
def text : Ty → String
  | .bool => "bool"
  | .string => "string"
  | .struct (some name) _ => name
  | .struct none fields => "struct \x7b " ++ Text.join "; " (fieldTexts fields) ++ " \x7d"

def fieldTexts : List (String × Ty) → List String
  | [] => []
  | (name, t) :: rest => (text t ++ " " ++ name) :: fieldTexts rest

end

/-- Whether two struct types agree, given whether their fields do: by name if both have one. -/
def sameName (a b : Option String) (fields : Bool) : Bool :=
  match a, b with
  | some a, some b => a == b
  | _, _ => fields

mutual

/-- Named structs agree by name; an anonymous one agrees with a struct of the same field names and
types. -/
def agrees : Ty → Ty → Bool
  | .bool, .bool => true
  | .string, .string => true
  | .struct a as, .struct b bs => sameName a b (agreesFields as bs)
  | _, _ => false

def agreesFields : List (String × Ty) → List (String × Ty) → Bool
  | [], [] => true
  | (n, a) :: as, (m, b) :: bs => n == m && agrees a b && agreesFields as bs
  | _, _ => false

end

theorem sameName_refl (a : Option String) : sameName a a true = true := by
  cases a <;> simp [sameName]

theorem sameName_comm (a b : Option String) (f : Bool) : sameName a b f = sameName b a f := by
  cases a <;> cases b <;> simp [sameName, Bool.beq_comm]

mutual

theorem agrees_refl : ∀ t : Ty, agrees t t = true
  | .bool => rfl
  | .string => rfl
  | .struct name fields => by
    rw [agrees, agreesFields_refl fields]
    exact sameName_refl name

theorem agreesFields_refl : ∀ l : List (String × Ty), agreesFields l l = true
  | [] => rfl
  | (_, t) :: rest => by simp [agreesFields, agrees_refl t, agreesFields_refl rest]

end

mutual

theorem agrees_comm : ∀ a b : Ty, agrees a b = agrees b a
  | .bool, b => by cases b <;> rfl
  | .string, b => by cases b <;> rfl
  | .struct _ _, .bool => rfl
  | .struct _ _, .string => rfl
  | .struct n as, .struct m bs => by
    rw [agrees, agrees, agreesFields_comm as bs]
    exact sameName_comm n m _

theorem agreesFields_comm : ∀ as bs : List (String × Ty), agreesFields as bs = agreesFields bs as
  | [], [] => rfl
  | [], _ :: _ => rfl
  | _ :: _, [] => rfl
  | (n, a) :: as, (m, b) :: bs => by
    rw [agreesFields, agreesFields, agrees_comm a b, agreesFields_comm as bs, Bool.beq_comm]

end

end Ty

end ControlReach
