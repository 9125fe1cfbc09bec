import ControlReach.Text.Code

/-!
# Sorting

Answers list names in code point order; equal entries keep the order they came in.
-/

namespace ControlReach.Order

variable {α : Type}

/-- Put `a` in front of the first entry that does not come before it. -/
def insert (le : α → α → Bool) (a : α) : List α → List α
  | [] => [a]
  | b :: rest => if le a b then a :: b :: rest else b :: insert le a rest

def sort (le : α → α → Bool) : List α → List α
  | [] => []
  | a :: rest => insert le a (sort le rest)

variable (le : α → α → Bool)

theorem insert_perm (a : α) (l : List α) : (insert le a l).Perm (a :: l) := by
  induction l with
  | nil => exact List.Perm.refl _
  | cons b rest ih =>
    unfold insert
    split
    · exact List.Perm.refl _
    · exact (List.Perm.cons b ih).trans (List.Perm.swap a b rest)

theorem sort_perm (l : List α) : (sort le l).Perm l := by
  induction l with
  | nil => exact List.Perm.refl _
  | cons a rest ih => exact (insert_perm le a _).trans (List.Perm.cons a ih)

@[simp] theorem mem_sort (a : α) (l : List α) : a ∈ sort le l ↔ a ∈ l :=
  (sort_perm le l).mem_iff

@[simp] theorem length_sort (l : List α) : (sort le l).length = l.length :=
  (sort_perm le l).length_eq

def codesLe : List Nat → List Nat → Bool
  | [], _ => true
  | _ :: _, [] => false
  | a :: as, b :: bs => a < b || (a == b && codesLe as bs)

def textLe (a b : String) : Bool := codesLe (Text.codes a.toList) (Text.codes b.toList)

def sortTexts (l : List String) : List String := sort textLe l

def sortNats (l : List Nat) : List Nat := sort (fun a b => decide (a ≤ b)) l

def sortInts (l : List Int) : List Int := sort (fun a b => decide (a ≤ b)) l

end ControlReach.Order
