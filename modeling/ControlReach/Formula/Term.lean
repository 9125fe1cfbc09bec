import ControlReach.Order
import ControlReach.Text.Quoted

/-!
# Terms

Formulas over Boolean and string unknowns. Conjunction, disjunction and the "exactly one"
constraint take any number of arguments.
-/

namespace ControlReach

/-- The sort of a term. -/
inductive Sorts where
  | bool
  | string
  deriving DecidableEq, Repr

def Sorts.text : Sorts → String
  | .bool => "Bool"
  | .string => "String"

/-- An unknown. Two unknowns of one name and different sorts are different. -/
structure Symbol where
  name : String
  sort : Sorts
  deriving DecidableEq, Repr

/-- A formula, or a string inside one. -/
inductive Term where
  | bool (value : Bool)
  | text (value : String)
  | symbol (s : Symbol)
  | not (arg : Term)
  | and (args : List Term)
  | or (args : List Term)
  | eq (left right : Term)
  | one (args : List Term)
  deriving Inhabited

namespace Term

/-! ### Equality -/

mutual

/-- Comparison of terms, with what it means. Two parts that are one object are not looked into. -/
def same : (a b : Term) → { r : Bool // r = true ↔ a = b }
  | .bool a, b =>
    match b with
    | .bool b => ⟨a == b, by simp⟩
    | .text _ | .symbol _ | .not _ | .and _ | .or _ | .eq _ _ | .one _ => ⟨false, by simp⟩
  | .text a, b =>
    match b with
    | .text b => ⟨a == b, by simp⟩
    | .bool _ | .symbol _ | .not _ | .and _ | .or _ | .eq _ _ | .one _ => ⟨false, by simp⟩
  | .symbol a, b =>
    match b with
    | .symbol b => ⟨a == b, by simp⟩
    | .bool _ | .text _ | .not _ | .and _ | .or _ | .eq _ _ | .one _ => ⟨false, by simp⟩
  | .not a, b =>
    match b with
    | .not b => ⟨withPtrEq a b (fun _ => (same a b).1) (same a b).2.2, by
      simp [withPtrEq, (same a b).2]⟩
    | .bool _ | .text _ | .symbol _ | .and _ | .or _ | .eq _ _ | .one _ => ⟨false, by simp⟩
  | .and as, b =>
    match b with
    | .and bs => ⟨(sameList as bs).1, by simp [(sameList as bs).2]⟩
    | .bool _ | .text _ | .symbol _ | .not _ | .or _ | .eq _ _ | .one _ => ⟨false, by simp⟩
  | .or as, b =>
    match b with
    | .or bs => ⟨(sameList as bs).1, by simp [(sameList as bs).2]⟩
    | .bool _ | .text _ | .symbol _ | .not _ | .and _ | .eq _ _ | .one _ => ⟨false, by simp⟩
  | .eq a a', b =>
    match b with
    | .eq b b' => ⟨withPtrEq a b (fun _ => (same a b).1) (same a b).2.2 &&
        withPtrEq a' b' (fun _ => (same a' b').1) (same a' b').2.2, by
      simp [withPtrEq, (same a b).2, (same a' b').2]⟩
    | .bool _ | .text _ | .symbol _ | .not _ | .and _ | .or _ | .one _ => ⟨false, by simp⟩
  | .one as, b =>
    match b with
    | .one bs => ⟨(sameList as bs).1, by simp [(sameList as bs).2]⟩
    | .bool _ | .text _ | .symbol _ | .not _ | .and _ | .or _ | .eq _ _ => ⟨false, by simp⟩

def sameList : (as bs : List Term) → { r : Bool // r = true ↔ as = bs }
  | [], [] => ⟨true, by simp⟩
  | [], _ :: _ => ⟨false, by simp⟩
  | _ :: _, [] => ⟨false, by simp⟩
  | a :: as, b :: bs =>
    ⟨withPtrEq a b (fun _ => (same a b).1) (same a b).2.2 && (sameList as bs).1, by
      simp [withPtrEq, (same a b).2, (sameList as bs).2]⟩

end

instance : DecidableEq Term := fun a b =>
  decidable_of_iff (withPtrEq a b (fun _ => (same a b).1) (same a b).2.2 = true) (same a b).2

/-! ### Inspection -/

/-- The true formula. -/
abbrev tt : Term := .bool true

/-- The false formula. -/
abbrev ff : Term := .bool false

def flag (name : String) : Term := .symbol ⟨name, .bool⟩

/-- A term is a string only if it is a text or a string unknown. -/
def sort : Term → Sorts
  | .text _ => .string
  | .symbol s => s.sort
  | _ => .bool

mutual

/-- The number of nodes, a shared part counted at each of its places. -/
def size : Term → Nat
  | .bool _ => 1
  | .text _ => 1
  | .symbol _ => 1
  | .not a => 1 + size a
  | .and as => 1 + sizeList as
  | .or as => 1 + sizeList as
  | .eq a b => 1 + size a + size b
  | .one as => 1 + sizeList as

def sizeList : List Term → Nat
  | [] => 0
  | a :: as => size a + sizeList as

end

mutual

/-- The unknowns of a term, at each of their places from left to right. -/
def symbols : Term → List Symbol
  | .bool _ => []
  | .text _ => []
  | .symbol s => [s]
  | .not a => symbols a
  | .and as => symbolsList as
  | .or as => symbolsList as
  | .eq a b => symbols a ++ symbols b
  | .one as => symbolsList as

def symbolsList : List Term → List Symbol
  | [] => []
  | a :: as => symbols a ++ symbolsList as

end

mutual

def render : Term → String
  | .bool b => if b then "true" else "false"
  | .text s => "\"" ++ s ++ "\""
  | .symbol s => s.name
  | .not a => "!" ++ render a
  | .and as => "(" ++ Text.join " && " (renderList as) ++ ")"
  | .or as => "(" ++ Text.join " || " (renderList as) ++ ")"
  | .eq a b => "(" ++ render a ++ " == " ++ render b ++ ")"
  | .one as => "exactly_one(" ++ Text.commaList (renderList as) ++ ")"

def renderList : List Term → List String
  | [] => []
  | a :: as => render a :: renderList as

end

end Term

def Symbol.le (a b : Symbol) : Bool :=
  if a.name = b.name then a.sort == .bool || b.sort == .string else Order.textLe a.name b.name

def Symbol.sorted (l : List Symbol) : List Symbol := Order.sort le l.eraseDups

end ControlReach
