import ControlReach.Typing.Scope

/-!
# Typing

Types are found from the parts upwards; only a struct literal takes its type from the context.
-/

namespace ControlReach.Scope

variable (s : Scope)

/-- Why a type name is invalid: by itself, or by the struct it stands for. -/
def invalid? (x : String) (ty : Option Ty) : Option Diagnostic :=
  (s.invalid.lookup x).or
    (match ty with
      | some (.struct (some name) _) => s.invalid.lookup name
      | _ => none)

def resolveType : TypeRef → Checked Ty
  | .bool _ => .ok .bool
  | .string _ => .ok .string
  | .named x loc => do
    match ← s.resolve x loc with
    | .type ty =>
      match s.invalid? x ty with
      | some why => reject (.invalidType x why.cause) loc
      | none =>
        match ty with
        | some ty => return ty
        | none => reject (.unelaboratedType x) loc
    | b => reject (.notType x b.kind) loc
  | .other typeName => reject (.unknownTypeRef typeName) none

def typeOfName (x : String) (loc : Option Location) : Checked Ty := do
  match ← s.resolve x loc with
  | .variable v => return v.ty
  | .constant (some (ty, _)) => return ty
  | b => reject (.notValue x b.kind) loc

def fieldType (ty : Ty) (f : String) (loc : Option Location) : Checked Ty :=
  if ty.isStruct then
    match ty.field? f with
    | some t => .ok t
    | none => reject (.noField ty f) loc
  else reject (.fieldOfScalar f ty) loc

def wantBool (operator : String) (loc : Option Location) : Ty → Checked Unit
  | .bool => .ok ()
  | ty => reject (.operandNotBool operator ty) loc

/-- The two sides of an equality have to agree. -/
def wantSame (negated : Bool) (left right : Ty) (loc : Option Location) : Checked Ty :=
  if left.agrees right then .ok .bool
  else reject (.operandsDiffer (Expr.equalityOperator negated) left right) loc

mutual

def typeOf (s : Scope) (expected : Option Ty) : Expr → Checked Ty
  | .bool _ _ => .ok .bool
  | .text _ _ => .ok .string
  | .var x loc => s.typeOfName x loc
  | .paren inner _ => typeOf s expected inner
  | .field target f loc => do fieldType (← typeOf s none target) f loc
  | .struct fields loc =>
    let names := fields.map Prod.fst
    if names.Nodup then
      match expected with
      | some (.struct name wanted) =>
        if names = wanted.map Prod.fst then do
          checkFields s (.struct name wanted) loc fields wanted
          return .struct name wanted
        else reject (.literalFields names (.struct name wanted)) loc
      | some ty => reject (.literalForScalar ty) loc
      | none => do return .struct none (← typeFields s fields)
    else reject .literalRepeatsField loc
  | .not operand _ => do
    wantBool "!" operand.loc (← typeOf s none operand)
    return .bool
  | .and left right _ => do
    wantBool "&&" left.loc (← typeOf s none left)
    wantBool "&&" right.loc (← typeOf s none right)
    return .bool
  | .or left right _ => do
    wantBool "||" left.loc (← typeOf s none left)
    wantBool "||" right.loc (← typeOf s none right)
    return .bool
  | .equal negated left right loc =>
    if left.isStruct && !right.isStruct then do
      let ty ← typeOf s none right
      wantSame negated ty (← typeOf s (some ty) left) loc
    else do
      let ty ← typeOf s none left
      wantSame negated ty (← typeOf s (some ty) right) loc
  | .call callee args loc => reject (.callAsValue (Expr.call callee args loc).describe) loc
  | .other typeName _ => reject (.unknownExpression typeName) none

def typeFields (s : Scope) : List (String × Expr) → Checked (List (String × Ty))
  | [] => .ok []
  | (f, value) :: rest => do
    let ty ← typeOf s none value
    return (f, ty) :: (← typeFields s rest)

/-- The fields of a struct literal have the types of the fields of `struct`, in order. -/
def checkFields (s : Scope) (struct : Ty) (loc : Option Location) :
    List (String × Expr) → List (String × Ty) → Checked Unit
  | (f, value) :: rest, (_, want) :: wanted => do
    let ty ← typeOf s (some want) value
    if want.agrees ty then checkFields s struct loc rest wanted
    else reject (.literalField f struct want ty) (Location.orElse value.loc loc)
  | _, _ => .ok ()

end

/-- A value has the type of the place it goes to. -/
def checkAssignable (target : Ty) (value : Expr) (loc : Option Location) :
    Checked Unit := do
  let ty ← s.typeOf (some target) value
  if target.agrees ty then return () else reject (.notAssignable ty target) loc

def lowerName (x : String) (loc : Option Location) : Checked Rvalue := do
  match ← s.resolve x loc with
  | .variable v => return .read v
  | .constant (some (_, value)) => return value
  | b => reject (.notValue x b.kind) loc

mutual

/-- The expression over variables that a well-typed expression stands for. -/
def lower (s : Scope) : Expr → Checked Rvalue
  | .bool value _ => .ok (.bool value)
  | .text value _ => .ok (.text value)
  | .var x loc => s.lowerName x loc
  | .paren inner _ => lower s inner
  | .field target f _ => do return .field (← lower s target) f
  | .struct fields _ => do return .struct (← lowerFields s fields)
  | .not operand _ => do return .not (← lower s operand)
  | .and left right _ => do return .and (← lower s left) (← lower s right)
  | .or left right _ => do return .or (← lower s left) (← lower s right)
  | .equal negated left right _ => do
    let left' ← lower s left
    let right' ← lower s right
    if left.isStruct && !right.isStruct then return .equal negated right' left'
    else return .equal negated left' right'
  | .call callee args loc => reject (.callAsValue (Expr.call callee args loc).describe) loc
  | .other typeName _ => reject (.unknownExpression typeName) none

def lowerFields (s : Scope) : List (String × Expr) → Checked (List (String × Rvalue))
  | [] => .ok []
  | (f, value) :: rest => do
    let value ← lower s value
    return (f, value) :: (← lowerFields s rest)

end

def lowerAs (target : Ty) (value : Expr) (loc : Option Location) : Checked Rvalue := do
  s.checkAssignable target value loc
  s.lower value

end ControlReach.Scope
