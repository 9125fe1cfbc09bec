import ControlReach.Formula.Term

/-!
# Simplifying constructors

Each constructor folds constants and drops what cannot matter, one level deep.
-/

namespace ControlReach.Term

def mkNot : Term → Term
  | .bool b => .bool (!b)
  | .not a => a
  | a => .not a

/-- Open the arguments that are conjunctions themselves. -/
def openAnd : List Term → List Term
  | [] => []
  | .and as :: rest => as ++ openAnd rest
  | a :: rest => a :: openAnd rest

/-- Open the arguments that are disjunctions themselves. -/
def openOr : List Term → List Term
  | [] => []
  | .or as :: rest => as ++ openOr rest
  | a :: rest => a :: openOr rest

/-- The arguments of a connective with neutral value `unit`, each once; none at the opposite value.
-/
def gather (unit : Bool) (kept : List Term) : List Term → Option (List Term)
  | [] => some kept
  | a :: rest =>
    if a = .bool (!unit) then none
    else if a = .bool unit ∨ a ∈ kept then gather unit kept rest
    else gather unit (kept ++ [a]) rest

def mkAnd (args : List Term) : Term :=
  match gather true [] (openAnd args) with
  | none => ff
  | some [] => tt
  | some [a] => a
  | some as => .and as

def mkOr (args : List Term) : Term :=
  match gather false [] (openOr args) with
  | none => tt
  | some [] => ff
  | some [a] => a
  | some as => .or as

def isConstant : Term → Bool
  | .bool _ => true
  | .text _ => true
  | _ => false

def mkEq (left right : Term) : Term :=
  if left = right then tt
  else if left.isConstant && right.isConstant then ff
  else
    match left, right with
    | .bool b, a => if b then a else mkNot a
    | a, .bool b => if b then a else mkNot a
    | a, b => .eq a b

def mkOne : List Term → Term
  | [] => ff
  | [a] => a
  | as => .one as

end ControlReach.Term
