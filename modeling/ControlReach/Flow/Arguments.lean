import ControlReach.Assoc
import ControlReach.Typing.Diagnostic

/-!
# Arguments and parameters

Arguments are matched to parameters by position or by name, never both. A call has to give every
parameter; a table leaves out the data that its entries supply.
-/

namespace ControlReach

/-- The parameters that may stay without an argument. -/
inductive Unbound where
  | none
  | data
  | all
  deriving DecidableEq, Repr

def Unbound.allows : Unbound → Parameter → Bool
  | .none, _ => false
  | .data, p => p.direction == .data
  | .all, _ => true

/-- The arguments by the names of their parameters. -/
abbrev Bound := List (String × Argument)

def bindNamed (params : List Parameter) (callee : String) (loc : Option Location) (bound : Bound) :
    List (String × Argument) → Checked Bound
  | [] => .ok bound
  | (x, arg) :: rest =>
    if x ∉ params.map Parameter.name then
      reject (.noParameter callee x) (Location.orElse arg.loc loc)
    else if (bound.lookup x).isSome then
      reject (.argumentTwice x callee) (Location.orElse arg.loc loc)
    else bindNamed params callee loc (bound ++ [(x, arg)]) rest

def missing? (bound : Bound) (unbound : Unbound) (params : List Parameter) : Option Parameter :=
  params.find? fun p => (bound.lookup p.name).isNone && !unbound.allows p

def bindArguments (params : List Parameter) (args : List Argument) (callee : String)
    (loc : Option Location) (unbound : Unbound) : Checked (List (Parameter × Option Argument)) := do
  let positional := args.filter fun a => a.name.isNone
  let named := args.filterMap fun a => a.name.map fun x => (x, a)
  if !positional.isEmpty && !named.isEmpty then reject (.mixedArguments callee) loc
  else if params.length < positional.length then
    reject (.tooManyArguments callee params.length positional.length) loc
  else
    let byPosition := (params.zip positional).foldl
      (fun bound (p, a) => Assoc.set p.name a bound) ([] : Bound)
    let bound ← bindNamed params callee loc byPosition named
    match missing? bound unbound params with
    | some p => reject (.missingArgument p.name callee) loc
    | none => return params.map fun p => (p, bound.lookup p.name)

end ControlReach
