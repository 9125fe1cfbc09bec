import ControlReach.Order
import Mathlib.Data.List.Sort

/-!
# Sorted lists

Sorting puts the entries of a list in order. The code point order on texts is a linear preorder, so
names are listed in it.
-/

namespace ControlReach.Order

open List

variable {α : Type}

theorem sort_eq_insertionSort (le : α → α → Bool) (l : List α) :
    sort le l = l.insertionSort (fun a b => le a b = true) := by
  have hinsert : ∀ a l, insert le a l = List.orderedInsert (fun a b => le a b = true) a l := by
    intro a l
    induction l with
    | nil => rfl
    | cons b rest ih => rw [insert, orderedInsert_cons, ih]
  induction l with
  | nil => rfl
  | cons a rest ih => rw [sort, insertionSort_cons, ih, hinsert]

theorem pairwise_sort (total : ∀ a b, le a b = true ∨ le b a = true)
    (trans : ∀ a b c, le a b = true → le b c = true → le a c = true) (l : List α) :
    (sort le l).Pairwise (fun a b => le a b = true) := by
  have htotal : Std.Total (fun a b => le a b = true) := ⟨total⟩
  have htrans : IsTrans α (fun a b => le a b = true) := ⟨trans⟩
  rw [sort_eq_insertionSort]
  exact pairwise_insertionSort _ l

/-! ### The code point order -/

theorem codesLe_total (a b : List Nat) : codesLe a b = true ∨ codesLe b a = true := by
  induction a generalizing b with
  | nil => exact .inl rfl
  | cons x a ih =>
    cases b with
    | nil => exact .inr rfl
    | cons y b =>
      simp only [codesLe, Bool.or_eq_true, decide_eq_true_eq, Bool.and_eq_true, beq_iff_eq]
      obtain hlt | rfl | hlt := Nat.lt_trichotomy x y
      · exact .inl (.inl hlt)
      · exact (ih b).imp (fun h => .inr ⟨rfl, h⟩) (fun h => .inr ⟨rfl, h⟩)
      · exact .inr (.inl hlt)

theorem codesLe_trans (hab : codesLe a b = true) (hbc : codesLe b c = true) :
    codesLe a c = true := by
  induction a generalizing b c with
  | nil => rfl
  | cons x a ih =>
    cases b with
    | nil => cases hab
    | cons y b =>
      cases c with
      | nil => cases hbc
      | cons z c =>
        simp only [codesLe, Bool.or_eq_true, decide_eq_true_eq, Bool.and_eq_true, beq_iff_eq]
          at hab hbc ⊢
        obtain hxy | ⟨rfl, hab⟩ := hab
        · obtain hyz | ⟨rfl, -⟩ := hbc
          · exact .inl (Nat.lt_trans hxy hyz)
          · exact .inl hxy
        · exact hbc.imp_right fun h => ⟨h.1, ih hab h.2⟩

theorem pairwise_sort_textLe (name : α → String) (l : List α) :
    (sort (fun a b => textLe (name a) (name b)) l).Pairwise
      (fun a b => textLe (name a) (name b) = true) := by
  apply pairwise_sort
  · intro a b
    exact codesLe_total _ _
  · intro a b c hab hbc
    exact codesLe_trans hab hbc

/-! ### Related lists -/

variable {l : List α}

section Forall₂

variable {R : α → β → Prop} {le : α → α → Bool} {le' : β → β → Bool}
  (hle : ∀ a b a' b', R a a' → R b b' → le a b = le' a' b')

include hle

theorem forall₂_insert (ha : R a a') (h : Forall₂ R l l') :
    Forall₂ R (insert le a l) (insert le' a' l') := by
  induction h with
  | nil => exact .cons ha .nil
  | cons hb hrest ih =>
    unfold insert
    rw [hle _ _ _ _ ha hb]
    split
    · exact .cons ha (.cons hb hrest)
    · exact .cons hb ih

theorem forall₂_sort (h : Forall₂ R l l') : Forall₂ R (sort le l) (sort le' l') := by
  induction h with
  | nil => exact .nil
  | cons ha _ ih => exact forall₂_insert hle ha ih

end Forall₂

theorem sort_congr {le le' : α → α → Bool} (h : ∀ a ∈ l, ∀ b ∈ l, le a b = le' a b) :
    sort le l = sort le' l := by
  have hall : Forall₂ (fun a b => a = b ∧ a ∈ l) l l := forall₂_same.2 fun a ha => ⟨rfl, ha⟩
  have hsort : Forall₂ (fun a b => a = b ∧ a ∈ l) (sort le l) (sort le' l) := by
    refine forall₂_sort ?_ hall
    rintro a b _ _ ⟨rfl, ha⟩ ⟨rfl, hb⟩
    exact h a ha b hb
  exact forall₂_eq_eq_eq ▸ hsort.imp fun _ _ => And.left

/-! ### Numbers -/

theorem map_sort_eq_of_perm {β : Type} (f : α → β) (key : β → Nat) {m : List β}
    (hperm : (l.map f).Perm m) (hm : (m.map key).Pairwise (· < ·)) :
    (sort (fun a b => decide (key (f a) ≤ key (f b))) l).map f = m := by
  have hsorted : (sort (fun a b => decide (key (f a) ≤ key (f b))) l).Pairwise
      (fun a b => key (f a) ≤ key (f b)) := by
    refine (pairwise_sort ?_ ?_ l).imp of_decide_eq_true
    · intro a b
      simpa using Nat.le_total (key (f a)) (key (f b))
    · intro a b c hab hbc
      exact decide_eq_true (Nat.le_trans (of_decide_eq_true hab) (of_decide_eq_true hbc))
  have hall := ((sort_perm (fun a b => decide (key (f a) ≤ key (f b))) l).map f).trans hperm
  have hinj : ∀ a ∈ m, ∀ b ∈ m, key a = key b → a = b := fun a ha b hb =>
    inj_on_of_nodup_map (hm.imp fun h => Nat.ne_of_lt h) ha hb
  refine Perm.eq_of_pairwise (fun a b ha hb hab hba => ?_) (pairwise_map.2 hsorted)
    ((pairwise_map.1 hm).imp fun h => Nat.le_of_lt h) hall
  exact hinj a (hall.mem_iff.1 ha) b hb (Nat.le_antisymm hab hba)

end ControlReach.Order
