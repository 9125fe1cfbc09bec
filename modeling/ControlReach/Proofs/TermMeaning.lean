import ControlReach.Formula.Build
import ControlReach.Formula.Eval

/-!
# What the simplifying constructors mean

The constructors of terms fold constants, open nested connectives and drop repeated arguments. None
of that changes what a term means, nor whether it is well-sorted.
-/

namespace ControlReach.Term

open List

/-! ### The arguments of a connective -/

variable {a : Term} {as : List Term} {unit : Bool}

def wrap : Bool → List Term → Term
  | true => .and
  | false => .or

def parts (unit : Bool) (a : Term) : List Term :=
  match unit, a with
  | true, .and as => as
  | false, .or as => as
  | _, a => [a]

def connect (unit : Bool) (args : List Term) : Term :=
  match gather unit [] (args.flatMap (parts unit)) with
  | none => .bool (!unit)
  | some [] => .bool unit
  | some [a] => a
  | some as => wrap unit as

theorem mkAnd_eq_connect (as : List Term) : mkAnd as = connect true as := by
  have hopen : openAnd as = as.flatMap (parts true) := by
    induction as with
    | nil => rfl
    | cons a rest ih =>
      rw [flatMap_cons, ← ih]
      cases a <;> rfl
  rw [mkAnd, connect, hopen]
  rfl

theorem mkOr_eq_connect (as : List Term) : mkOr as = connect false as := by
  have hopen : openOr as = as.flatMap (parts false) := by
    induction as with
    | nil => rfl
    | cons a rest ih =>
      rw [flatMap_cons, ← ih]
      cases a <;> rfl
  rw [mkOr, connect, hopen]
  rfl

theorem parts_wrap (unit : Bool) (as : List Term) : parts unit (wrap unit as) = as := by
  cases unit <;> rfl

theorem parts_of_ne (h : ∀ as, a ≠ wrap unit as) : parts unit a = [a] := by
  unfold parts
  split
  · exact absurd rfl (h _)
  · exact absurd rfl (h _)
  · rfl

theorem gather_eq_none_iff : gather unit kept as = none ↔ .bool (!unit) ∈ as := by
  fun_induction gather unit kept as with
  | case1 | case2 => simp
  | case3 kept a rest hne _ ih | case4 kept a rest hne _ ih => rw [ih, List.mem_cons]; grind

theorem mem_gather_iff (h : gather unit kept as = some l) (a : Term) :
    a ∈ l ↔ a ∈ kept ∨ (a ∈ as ∧ a ≠ .bool unit) := by
  fun_induction gather unit kept as with
  | case1 kept => cases h; simp
  | case2 => cases h
  | case3 kept b rest _ hb ih | case4 kept b rest _ hb ih => rw [ih h]; grind

section Connect

variable {Q : Term → Prop} (hwrap : ∀ as, Q (wrap unit as) ↔ ∀ a ∈ as, Q a)

include hwrap

theorem forall_parts : (∀ b ∈ parts unit a, Q b) ↔ Q a := by
  by_cases h : ∃ as, a = wrap unit as
  · obtain ⟨as, rfl⟩ := h
    rw [parts_wrap, hwrap]
  · rw [parts_of_ne fun as e => h ⟨as, e⟩, forall_mem_singleton]

theorem forall_flatMap_parts : (∀ b ∈ as.flatMap (parts unit), Q b) ↔ ∀ a ∈ as, Q a := by
  rw [forall_mem_flatMap]
  simp only [forall_parts hwrap]

theorem connect_iff_of_gather (hunit : Q (.bool unit))
    (h : gather unit [] (as.flatMap (parts unit)) = some l) :
    Q (connect unit as) ↔ ∀ a ∈ l, Q a := by
  rw [connect, h]
  match l with
  | [] => simpa using hunit
  | [a] => simp
  | a :: b :: l => exact hwrap _

/-- What a connective has if and only if its arguments have it, a combination has so too. -/
theorem connect_iff (hunit : Q (.bool unit)) (hother : ¬ Q (.bool (!unit))) :
    Q (connect unit as) ↔ ∀ a ∈ as, Q a := by
  rw [← forall_flatMap_parts hwrap]
  cases h : gather unit [] (as.flatMap (parts unit)) with
  | none =>
    rw [connect, h]
    exact iff_of_false hother fun hall => hother (hall _ (gather_eq_none_iff.1 h))
  | some l =>
    rw [connect_iff_of_gather hwrap hunit h]
    have hmem := mem_gather_iff h
    grind

theorem connect_of_forall (hbool : ∀ b, Q (.bool b)) (h : ∀ a ∈ as, Q a) : Q (connect unit as) := by
  cases hg : gather unit [] (as.flatMap (parts unit)) with
  | none =>
    rw [connect, hg]
    exact hbool _
  | some l =>
    refine (connect_iff_of_gather hwrap (hbool _) hg).2 fun a ha => ?_
    refine (forall_flatMap_parts hwrap).2 h a ?_
    simpa using ((mem_gather_iff hg a).1 ha).imp_right And.left

end Connect

/-! ### Truth values -/

section Truth

variable [DecidableEq δ] {denote : String → δ} {v : Valuation δ}

attribute [local simp] holds allHold anyHolds countHolding

variable {as : List Term}

theorem allHold_iff : allHold denote v as = true ↔ ∀ a ∈ as, holds denote v a = true := by
  induction as with
  | nil => simp
  | cons a as ih => simp [ih]

theorem anyHolds_iff : anyHolds denote v as = true ↔ ∃ a ∈ as, holds denote v a = true := by
  induction as with
  | nil => simp
  | cons a as ih => simp [ih]

theorem countHolding_eq (as : List Term) :
    countHolding denote v as = as.countP (holds denote v) := by
  induction as with
  | nil => rfl
  | cons a as ih => rw [countHolding, ih, List.countP_cons, Nat.add_comm]

@[simp] theorem holds_flag (name : String) : holds denote v (flag name) = v.flag name := by
  simp [flag]

@[simp] theorem holds_mkNot (a : Term) : holds denote v (mkNot a) = !holds denote v a := by
  fun_cases mkNot a with
  | case1 b | case2 a | case3 => simp

theorem holds_wrap (as : List Term) :
    holds denote v (wrap unit as) = unit ↔ ∀ a ∈ as, holds denote v a = unit := by
  cases unit with
  | true => exact allHold_iff
  | false => simp [wrap, ← Bool.not_eq_true, anyHolds_iff]

theorem holds_mkAnd : holds denote v (mkAnd as) = true ↔ ∀ a ∈ as, holds denote v a = true := by
  rw [mkAnd_eq_connect]
  exact connect_iff (Q := (holds denote v · = true)) holds_wrap rfl (by simp)

theorem holds_mkOr : holds denote v (mkOr as) = true ↔ ∃ a ∈ as, holds denote v a = true := by
  have hfalse : holds denote v (mkOr as) = false ↔ ∀ a ∈ as, holds denote v a = false := by
    rw [mkOr_eq_connect]
    exact connect_iff (Q := (holds denote v · = false)) holds_wrap rfl (by simp)
  rw [← Bool.not_eq_false, hfalse]
  simp

theorem holds_mkAnd_pair (a b : Term) :
    holds denote v (mkAnd [a, b]) = (holds denote v a && holds denote v b) := by
  rw [Bool.eq_iff_iff, holds_mkAnd]
  simp

theorem holds_mkOr_pair (a b : Term) :
    holds denote v (mkOr [a, b]) = (holds denote v a || holds denote v b) := by
  rw [Bool.eq_iff_iff, holds_mkOr]
  simp

theorem holds_mkOne (as : List Term) :
    holds denote v (mkOne as) = (as.countP (holds denote v) == 1) := by
  fun_cases mkOne as with
  | case1 => rfl
  | case2 a => cases h : holds denote v a <;> simp [h]
  | case3 => rw [holds, countHolding_eq]

theorem holds_mkEq (hd : ∀ s t, a = .text s → b = .text t → denote s = denote t → s = t)
    (hs : a.sort = b.sort) : holds denote v (mkEq a b) = holds denote v (.eq a b) := by
  fun_cases mkEq a b with
  | case1 => cases ha : a.sort <;> simp [ha]
  | case2 => cases a <;> cases b <;> grind [isConstant, sort, string, holds]
  | case3 => simp [sort]
  | case4 =>
    rename_i c hc _ _
    rw [Bool.not_eq_true] at hc
    simp [sort, hc]
  | case5 => simp [sort]
  | case6 =>
    rename_i c hc _ _ _
    rw [Bool.not_eq_true] at hc
    simp [sort, hc]
  | case7 => rfl

end Truth

/-! ### Sorts -/

/-- A well-sorted Boolean term. -/
def Formula (a : Term) : Prop := a.sort = .bool ∧ a.WellSorted

variable {as : List Term} {a : Term}

theorem wellSortedAll_iff : WellSortedAll as ↔ ∀ a ∈ as, Formula a := by
  induction as with
  | nil => simp [WellSortedAll]
  | cons a as ih => simp [WellSortedAll, ih, Formula, and_assoc]

theorem formula_bool (b : Bool) : Formula (.bool b) := ⟨rfl, trivial⟩

theorem formula_flag (name : String) : Formula (flag name) := ⟨rfl, trivial⟩

theorem formula_wrap (as : List Term) : Formula (wrap unit as) ↔ ∀ a ∈ as, Formula a := by
  rw [← wellSortedAll_iff]
  cases unit <;> exact ⟨fun h => h.2, fun h => ⟨rfl, h⟩⟩

theorem Formula.mkNot (h : Formula a) : Formula (mkNot a) := by
  fun_cases Term.mkNot a with
  | case1 b => exact formula_bool _
  | case2 a => exact h.2
  | case3 => exact ⟨rfl, h⟩

theorem Formula.mkAnd (h : ∀ a ∈ as, Formula a) : Formula (mkAnd as) :=
  mkAnd_eq_connect as ▸ connect_of_forall formula_wrap formula_bool h

theorem Formula.mkOr (h : ∀ a ∈ as, Formula a) : Formula (mkOr as) :=
  mkOr_eq_connect as ▸ connect_of_forall formula_wrap formula_bool h

theorem Formula.mkEq {b : Term} (hs : a.sort = b.sort) (ha : a.WellSorted) (hb : b.WellSorted) :
    Formula (mkEq a b) := by
  fun_cases Term.mkEq a b with
  | case1 | case2 => exact formula_bool _
  | case3 => exact ⟨hs.symm, hb⟩
  | case4 => exact Formula.mkNot ⟨hs.symm, hb⟩
  | case5 => exact ⟨hs, ha⟩
  | case6 => exact Formula.mkNot ⟨hs, ha⟩
  | case7 => exact ⟨rfl, hs, ha, hb⟩

section Holding

variable [DecidableEq δ] {denote : String → δ} {v : Valuation δ}

theorem sort_of_holds (h : holds denote v a = true) : a.sort = .bool := by
  cases a with
  | text => simp [holds] at h
  | symbol s =>
    obtain ⟨name, sort⟩ := s
    cases sort with
    | bool => rfl
    | string => simp [holds] at h
  | bool | not | and | or | eq | one => rfl

theorem wellSorted_of_mkAnd (hw : (mkAnd as).WellSorted) (h : holds denote v (mkAnd as) = true) :
    ∀ a ∈ as, a.WellSorted := by
  have hwrap : ∀ as, (holds denote v (wrap true as) = true ∧ (wrap true as).WellSorted) ↔
      ∀ a ∈ as, holds denote v a = true ∧ a.WellSorted := by
    intro as
    rw [wrap, holds, allHold_iff, WellSorted, wellSortedAll_iff]
    refine ⟨fun h a ha => ⟨h.1 a ha, (h.2 a ha).2⟩, fun h => ⟨fun a ha => (h a ha).1, fun a ha => ?_⟩⟩
    exact ⟨sort_of_holds (h a ha).1, (h a ha).2⟩
  rw [mkAnd_eq_connect] at hw h
  have hall := (connect_iff (Q := fun a => holds denote v a = true ∧ a.WellSorted) hwrap
    ⟨rfl, trivial⟩ (by simp [holds])).1 ⟨h, hw⟩
  exact fun a ha => (hall a ha).2

theorem sort_of_mkEq (hw : (mkEq (.symbol s) t).WellSorted)
    (h : holds denote v (mkEq (.symbol s) t) = true) : s.sort = t.sort := by
  by_cases hst : Term.symbol s = t
  · rw [← hst]
    rfl
  · unfold mkEq at hw h
    rw [if_neg hst] at hw h
    cases t with
    | bool b =>
      cases b with
      | true => exact sort_of_holds h
      | false => exact hw.1
    | text | symbol | not | and | or | eq | one => exact hw.1

end Holding

end ControlReach.Term
