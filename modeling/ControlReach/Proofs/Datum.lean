import ControlReach.Assoc
import ControlReach.Typing.Ty
import Mathlib.Data.List.Forall2
import Mathlib.Data.Option.Basic

/-!
# Data

The values that variables hold when a control is executed: truth values, strings, and records with
one value for each field, in order.
-/

namespace ControlReach

theorem rel_cases {α β : Type} {r : α → β → Prop} {a : Option α} {b : Option β}
    (h : Option.Rel r a b) : (a = none ∧ b = none) ∨ ∃ x y, a = some x ∧ b = some y ∧ r x y := by
  cases h with
  | none => exact .inl ⟨rfl, rfl⟩
  | some h => exact .inr ⟨_, _, rfl, rfl, h⟩

theorem exists_of_rel {α β : Type} {r : α → β → Prop} {a : Option α} {b : Option β}
    (h : Option.Rel r a b) {x : α} (ha : a = some x) : ∃ y, b = some y ∧ r x y := by
  subst ha
  cases h with
  | some h => exact ⟨_, rfl, h⟩

section Keys

variable {α β : Type} {r : α → β → Prop} {l : List (String × α)} {m : List (String × β)}
  (h : List.Forall₂ (fun p q => p.1 = q.1 ∧ r p.2 q.2) l m)

include h

theorem Assoc.keys_eq : l.map Prod.fst = m.map Prod.fst := by
  rw [← List.forall₂_eq_eq_eq, List.forall₂_map_left_iff, List.forall₂_map_right_iff]
  exact h.imp fun _ _ hpq => hpq.1

theorem Assoc.rel_lookup (x : String) : Option.Rel r (l.lookup x) (m.lookup x) := by
  induction h with
  | nil => exact .none
  | @cons p q l m hpq _ ih =>
    obtain ⟨y, a⟩ := p
    obtain ⟨y', b⟩ := q
    obtain ⟨rfl, hab⟩ := hpq
    rw [List.lookup_cons, List.lookup_cons]
    cases x == y with
    | true => exact .some hab
    | false => exact ih

theorem Assoc.exists_lookup (hx : m.lookup x = some b) : ∃ a, l.lookup x = some a ∧ r a b := by
  have hrel := rel_lookup h x
  rw [hx] at hrel
  generalize l.lookup x = a at hrel
  cases hrel with
  | some hab => exact ⟨_, rfl, hab⟩

end Keys

/-- A value. -/
inductive Datum where
  | bool (b : Bool)
  | text (s : String)
  | struct (fields : List (String × Datum))
  deriving Inhabited

namespace Datum

mutual

def same : (a b : Datum) → { r : Bool // r = true ↔ a = b }
  | .bool a, .bool b => ⟨a == b, by simp⟩
  | .text a, .text b => ⟨a == b, by simp⟩
  | .struct as, .struct bs => ⟨(sameFields as bs).1, by simp [(sameFields as bs).2]⟩
  | .bool _, .text _ | .bool _, .struct _ | .text _, .bool _ | .text _, .struct _
  | .struct _, .bool _ | .struct _, .text _ => ⟨false, by simp⟩

def sameFields : (as bs : List (String × Datum)) → { r : Bool // r = true ↔ as = bs }
  | [], [] => ⟨true, by simp⟩
  | [], _ :: _ => ⟨false, by simp⟩
  | _ :: _, [] => ⟨false, by simp⟩
  | (n, a) :: as, (m, b) :: bs =>
    ⟨n == m && (same a b).1 && (sameFields as bs).1, by
      simp [(same a b).2, (sameFields as bs).2]⟩

end

instance : DecidableEq Datum := fun a b => decidable_of_iff ((same a b).1 = true) (same a b).2

def bool? : Datum → Option Bool
  | .bool b => some b
  | _ => none

def text? : Datum → Option String
  | .text t => some t
  | _ => none

def get? : Datum → String → Option Datum
  | .struct fields, f => fields.lookup f
  | _, _ => none

def replace (fields : List (String × Datum)) (f : String) (d : Datum) : List (String × Datum) :=
  fields.map fun p => if p.1 = f then (p.1, d) else p

def set? : Datum → List String → Datum → Option Datum
  | _, [], d => some d
  | .struct fields, f :: path, d => do
    let inner ← fields.lookup f
    return .struct (replace fields f (← inner.set? path d))
  | _, _ :: _, _ => none

mutual

def leaves (path : List String) : Datum → List (List String × Datum)
  | .bool b => [(path, .bool b)]
  | .text s => [(path, .text s)]
  | .struct fields => leavesOf path fields

def leavesOf (path : List String) : List (String × Datum) → List (List String × Datum)
  | [] => []
  | (f, d) :: rest => leaves (path ++ [f]) d ++ leavesOf path rest

end

mutual

def HasType : Datum → Ty → Prop
  | .bool _, .bool => True
  | .text _, .string => True
  | .struct fields, .struct _ tys => HaveTypes fields tys
  | _, _ => False

def HaveTypes : List (String × Datum) → List (String × Ty) → Prop
  | [], [] => True
  | (f, d) :: fields, (g, ty) :: tys => f = g ∧ HasType d ty ∧ HaveTypes fields tys
  | _, _ => False

end

theorem haveTypes_iff :
    HaveTypes fields tys ↔ List.Forall₂ (fun p q => p.1 = q.1 ∧ p.2.HasType q.2) fields tys := by
  induction fields generalizing tys with
  | nil => cases tys <;> simp [HaveTypes]
  | cons p rest ih => cases tys <;> simp [HaveTypes, ih, and_assoc]

end Datum

namespace Ty

mutual

/-- The type without the names of structs. -/
def bare : Ty → Ty
  | .bool => .bool
  | .string => .string
  | .struct _ fields => .struct none (bareFields fields)

def bareFields : List (String × Ty) → List (String × Ty)
  | [] => []
  | (f, ty) :: rest => (f, bare ty) :: bareFields rest

end

mutual

/-- No struct inside a type repeats a field name. -/
def Distinct : Ty → Prop
  | .bool => True
  | .string => True
  | .struct _ fields => (fields.map Prod.fst).Nodup ∧ DistinctFields fields

def DistinctFields : List (String × Ty) → Prop
  | [] => True
  | (_, ty) :: rest => Distinct ty ∧ DistinctFields rest

end

/-- The type at a field path. -/
def at? : Ty → List String → Option Ty
  | ty, [] => some ty
  | .struct _ fields, f :: path => (fields.lookup f).bind fun ty => ty.at? path
  | _, _ :: _ => none

theorem bareFields_eq_map (fields : List (String × Ty)) :
    bareFields fields = fields.map fun p => (p.1, p.2.bare) := by
  induction fields with
  | nil => rfl
  | cons p rest ih => rw [bareFields, ih, List.map_cons]

theorem names_bareFields (fields : List (String × Ty)) :
    (bareFields fields).map Prod.fst = fields.map Prod.fst := by
  simp [bareFields_eq_map]

theorem distinctFields_iff {fields : List (String × Ty)} :
    DistinctFields fields ↔ ∀ p ∈ fields, p.2.Distinct := by
  induction fields with
  | nil => simp [DistinctFields]
  | cons p rest ih => simp [DistinctFields, ih]

theorem Distinct.field {fields : List (String × Ty)} {ty : Ty}
    (h : (Ty.struct name fields).Distinct) (hf : fields.lookup f = some ty) : ty.Distinct :=
  distinctFields_iff.1 h.2 _ (Assoc.mem_of_lookup hf)

end Ty

end ControlReach
