import ControlReach.Formula.Term

/-!
# The meaning of terms

A valuation gives every unknown a truth value or a string. What a string constant denotes is a
parameter: its own text, or the value a solver reads from it.
-/

namespace ControlReach

/-- Values for all unknowns; unknowns of one name and different sorts are independent. -/
structure Valuation (δ : Type) where
  flag : String → Bool
  text : String → δ

namespace Term

variable {δ : Type} [DecidableEq δ]

def string (denote : String → δ) (v : Valuation δ) : Term → Option δ
  | .text s => some (denote s)
  | .symbol ⟨name, .string⟩ => some (v.text name)
  | _ => none

mutual

def holds (denote : String → δ) (v : Valuation δ) : Term → Bool
  | .bool b => b
  | .text _ => false
  | .symbol ⟨name, .bool⟩ => v.flag name
  | .symbol ⟨_, .string⟩ => false
  | .not a => !holds denote v a
  | .and as => allHold denote v as
  | .or as => anyHolds denote v as
  | .eq a b =>
    match a.sort, b.sort with
    | .string, .string => string denote v a == string denote v b
    | _, _ => holds denote v a == holds denote v b
  | .one as => countHolding denote v as == 1

def allHold (denote : String → δ) (v : Valuation δ) : List Term → Bool
  | [] => true
  | a :: as => holds denote v a && allHold denote v as

def anyHolds (denote : String → δ) (v : Valuation δ) : List Term → Bool
  | [] => false
  | a :: as => holds denote v a || anyHolds denote v as

def countHolding (denote : String → δ) (v : Valuation δ) : List Term → Nat
  | [] => 0
  | a :: as => (if holds denote v a then 1 else 0) + countHolding denote v as

end

mutual

/-- The arguments of Boolean operators are Boolean, and the sides of equalities have one sort. -/
def WellSorted : Term → Prop
  | .bool _ => True
  | .text _ => True
  | .symbol _ => True
  | .not a => a.sort = .bool ∧ WellSorted a
  | .and as => WellSortedAll as
  | .or as => WellSortedAll as
  | .eq a b => a.sort = b.sort ∧ WellSorted a ∧ WellSorted b
  | .one as => WellSortedAll as

def WellSortedAll : List Term → Prop
  | [] => True
  | a :: as => a.sort = .bool ∧ WellSorted a ∧ WellSortedAll as

end

mutual

def decideWellSorted : (a : Term) → Decidable a.WellSorted
  | .bool _ | .text _ | .symbol _ => .isTrue trivial
  | .not a => @instDecidableAnd _ _ _ (decideWellSorted a)
  | .and as | .or as | .one as => decideWellSortedAll as
  | .eq a b =>
    @instDecidableAnd _ _ _ (@instDecidableAnd _ _ (decideWellSorted a) (decideWellSorted b))

/-- Whether all terms of a list are Boolean and well-sorted is decided one by one. -/
def decideWellSortedAll : (as : List Term) → Decidable (WellSortedAll as)
  | [] => .isTrue trivial
  | a :: as =>
    @instDecidableAnd _ _ _ (@instDecidableAnd _ _ (decideWellSorted a) (decideWellSortedAll as))

end

instance (a : Term) : Decidable a.WellSorted := decideWellSorted a

end Term

end ControlReach
