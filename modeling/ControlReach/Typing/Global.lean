import ControlReach.Assoc
import ControlReach.Search
import ControlReach.Typing.Check

/-!
# Top-level declarations

The first declaration of a name owns it. All names are collected first; then type aliases are
resolved, then struct fields, and structs that contain themselves are rejected with all that depends
on them. Constants see the constants before them.
-/

namespace ControlReach

namespace Declaration

def declares? : Declaration → Option (String × BindingKind)
  | .struct d => some (d.name, .type)
  | .typedef d => some (d.name, .type)
  | .control d => some (d.name, .control)
  | .constant d => some (d.name, .constant)
  | .inst d => some (d.name, .inst)
  | .other _ _ => none

def loc : Declaration → Option Location
  | .struct d => d.loc
  | .typedef d => d.loc
  | .control d => d.loc
  | .constant d => d.loc
  | .inst d => d.loc
  | .other _ loc => loc

def otherName : Declaration → String
  | .other typeName _ => typeName
  | _ => ""

/-- Each declaration with the reason for which it owns no name; `seen` are the names already owned.
-/
def ownership (seen : List (String × BindingKind)) :
    List Declaration → List (Declaration × Option Diagnostic)
  | [] => []
  | d :: rest =>
    match d.declares? with
    | none => (d, some (.of (.unknownTopLevel d.otherName) d.loc)) :: ownership seen rest
    | some (x, kind) =>
      match seen.lookup x with
      | some previous => (d, some (.of (.declaredTwice x previous) d.loc)) :: ownership seen rest
      | none => (d, none) :: ownership ((x, kind) :: seen) rest

end Declaration

def Program.ownership (p : Program) : List (Declaration × Option Diagnostic) :=
  Declaration.ownership [] p.declarations

def Program.owned (p : Program) : List Declaration :=
  p.ownership.filterMap fun (d, why) => if why.isNone then some d else none

/-- A type, with structs by name. -/
inductive TypeName where
  | bool
  | string
  | struct (name : String)
  deriving DecidableEq, Repr

def TypeName.struct? : TypeName → Option String
  | .struct name => some name
  | _ => none

def TypeName.toTy (structs : List (String × Ty)) : TypeName → Ty
  | .bool => .bool
  | .string => .string
  | .struct name => (structs.lookup name).getD (.struct (some name) [])

/-- The type names of a program while they are elaborated. -/
structure TypeTable where
  owned : List (String × Declaration)
  /-- What the aliases elaborated so far stand for. -/
  aliases : List (String × TypeName)
  /-- The fields of the structs, in declaration order. -/
  structs : List (String × List (String × TypeName))
  /-- The type names whose elaboration failed. -/
  invalid : List (String × Diagnostic)
  errors : List Diagnostic

namespace TypeTable

variable (t : TypeTable) (x : String)

def fault? : Option Diagnostic := t.invalid.lookup x

def isInvalid : Bool := (t.fault? x).isSome

def invalidate (why : Diagnostic) : TypeTable :=
  { t with invalid := Assoc.set x why t.invalid }

def record (d : Diagnostic) : TypeTable := { t with errors := t.errors ++ [d] }

def meaning? : Option TypeName :=
  match t.owned.lookup x with
  | some (.struct _) => some (.struct x)
  | some (.typedef _) => t.aliases.lookup x
  | _ => none

def invalid? : Option Diagnostic :=
  (t.fault? x).or (((t.meaning? x).bind TypeName.struct?).bind t.fault?)

def resolve : TypeRef → Checked TypeName
  | .bool _ => .ok .bool
  | .string _ => .ok .string
  | .named x loc =>
    match (t.owned.lookup x).bind Declaration.declares? with
    | none => reject (.undeclared x) loc
    | some (_, .type) =>
      match t.invalid? x, t.meaning? x with
      | some why, _ => reject (.invalidType x why.cause) loc
      | none, some meaning => .ok meaning
      | none, none => reject (.unelaboratedType x) loc
    | some (_, kind) => reject (.notType x kind) loc
  | .other typeName => reject (.unknownTypeRef typeName) none

/-! ### Aliases -/

def alias? : TypeRef → Option TypedefDecl
  | .named x _ =>
    match t.owned.lookup x with
    | some (.typedef d) => some d
    | _ => none
  | _ => none

def settleAlias (d : TypedefDecl) (t : TypeTable) : TypeTable :=
  match (t.alias? d.type).bind fun target => t.fault? target.name with
  | some why => t.invalidate d.name why
  | none =>
    match t.resolve d.type with
    | .ok meaning => { t with aliases := Assoc.set d.name meaning t.aliases }
    | .error why => (t.invalidate d.name why).record why

/-- Elaborate an alias after those it refers to; `stack` holds the aliases that wait for it. -/
def elaborateAlias : Nat → List String → TypedefDecl → TypeTable → TypeTable
  | 0, _, _, t => t
  | fuel + 1, stack, d, t =>
    if (t.aliases.lookup d.name).isSome || t.isInvalid d.name then t
    else if d.name ∈ stack then
      let why := Diagnostic.of (.typedefCycle d.name) d.loc
      (t.invalidate d.name why).record why
    else
      match t.alias? d.type with
      | some target => settleAlias d (elaborateAlias fuel (stack ++ [d.name]) target t)
      | none => settleAlias d t

/-! ### Structs -/

variable (struct : String)

def fields : List (String × TypeName) :=
  (t.structs.lookup struct).getD []

/-- A field of a struct cannot be elaborated; the first such field makes the struct invalid. -/
def failField (why : Diagnostic) (t : TypeTable) : TypeTable :=
  { t with invalid := Assoc.setNew struct why t.invalid }.record why

def elaborateField (t : TypeTable) (f : StructField) : TypeTable :=
  if ((t.fields struct).lookup f.name).isSome then
    t.failField struct (.of (.structRepeatsField struct f.name) f.loc)
  else
    match t.resolve f.type with
    | .ok meaning =>
      { t with structs := Assoc.set struct (t.fields struct ++ [(f.name, meaning)]) t.structs }
    | .error why => t.failField struct why

def elaborateStruct (d : StructDecl) (t : TypeTable) : TypeTable :=
  d.fields.foldl (elaborateField d.name) { t with structs := Assoc.set d.name [] t.structs }

def contained : List String :=
  (t.fields struct).filterMap fun f => f.2.struct?

/-- The structs found to contain themselves, in the order of discovery. -/
def recursiveStructs : List String :=
  let names := t.structs.map Prod.fst
  ((Search.explore t.contained names.length names).loops.flatMap Search.Loop.path).eraseDups

def rejectRecursive (place : String → Option Location) (t : TypeTable) (x : String) : TypeTable :=
  let why := Diagnostic.of (.recursiveStruct x) (place x)
  { t.invalidate x why with structs := Assoc.set x [] t.structs }.record why

/-- A struct is as invalid as the first of its fields that is. -/
def spreadTo : TypeTable :=
  if t.isInvalid x then t
  else
    match (t.contained x).findSome? t.fault? with
    | some why => t.invalidate x why
    | none => t

/-- Go through all structs so many times, spreading invalidity. -/
def spread : Nat → TypeTable → TypeTable
  | 0, t => t
  | n + 1, t => spread n ((t.structs.map Prod.fst).foldl spreadTo t)

/-! ### Types in full -/

def unfolded (t : TypeTable) : Nat → List (String × Ty)
  | 0 => t.structs.map fun s => (s.1, .struct (some s.1) [])
  | n + 1 =>
    let inner := t.unfolded n
    t.structs.map fun s => (s.1, .struct (some s.1) (s.2.map fun f => (f.1, f.2.toTy inner)))

/-- The types of all structs. A struct never contains itself, so the number of structs bounds the
depth. -/
def structTypes : List (String × Ty) := t.unfolded t.structs.length

end TypeTable

/-- Where the struct of a name is declared last. -/
def Program.structPlace (p : Program) (x : String) : Option Location :=
  let places := p.declarations.filterMap fun
    | .struct d => if d.name = x then some d.loc else none
    | _ => none
  (places.getLast?).bind id

def Program.typeTable (p : Program) : TypeTable :=
  let named := p.owned.filterMap fun d => d.declares?.map fun n => (n.1, d)
  let typedefs := p.owned.filterMap fun | .typedef d => some d | _ => none
  let structs := p.owned.filterMap fun | .struct d => some d | _ => none
  let t : TypeTable := ⟨named, [], structs.map fun d => (d.name, []), [], []⟩
  let t := typedefs.foldl (fun t d => TypeTable.elaborateAlias (typedefs.length + 1) [] d t) t
  let t := structs.foldl (fun t d => TypeTable.elaborateStruct d t) t
  let t := t.recursiveStructs.foldl (TypeTable.rejectRecursive p.structPlace) t
  t.spread structs.length

/-- The global scope with the rejections met while building it. -/
structure GlobalScope where
  scope : Scope
  errors : List Diagnostic

namespace GlobalScope

/-- The binding of a declaration that owns its name, before constants and instances are known. -/
def bindingOf (t : TypeTable) (structs : List (String × Ty)) :
    Declaration → Option (String × Binding)
  | .struct d => some (d.name, .type (structs.lookup d.name))
  | .typedef d => some (d.name, .type ((t.aliases.lookup d.name).map (TypeName.toTy structs)))
  | .control d => some (d.name, .control d)
  | .constant d => some (d.name, .constant none)
  | .inst d => some (d.name, .inst none)
  | .other _ _ => none

variable (g : GlobalScope)

def record (d : Diagnostic) : GlobalScope := { g with errors := g.errors ++ [d] }

def update (g : GlobalScope) (x : String) (b : Binding) : GlobalScope :=
  { g with scope := { g.scope with inner := g.scope.inner.update x b } }

def constantValue (s : Scope) (d : ConstantDecl) : Checked (Ty × Rvalue) := do
  let ty ← s.resolveType d.type
  return (ty, ← s.lowerAs ty d.value d.loc)

def addConstant (d : ConstantDecl) : GlobalScope :=
  match constantValue g.scope d with
  | .ok known => g.update d.name (.constant (some known))
  | .error why => g.record why

/-- Give an instance its control. The last instance of a name decides. -/
def addInstance (d : Instantiation) : GlobalScope :=
  match g.scope.inner.lookup d.name, g.scope.inner.lookup d.typeName with
  | some (.inst _), some (.control control) => g.update d.name (.inst (some control))
  | _, none => g.record (.of (.undeclared d.typeName) d.loc)
  | _, _ => g

def add : Declaration × Option Diagnostic → GlobalScope
  | (.constant d, none) => g.addConstant d
  | (.inst d, _) => g.addInstance d
  | _ => g

end GlobalScope

def Program.globals (p : Program) : GlobalScope :=
  let t := p.typeTable
  let symbols := p.owned.filterMap (GlobalScope.bindingOf t t.structTypes)
  let start : GlobalScope :=
    ⟨⟨⟨.global, "", symbols, true⟩, [], t.invalid⟩, p.ownership.filterMap Prod.snd ++ t.errors⟩
  p.ownership.foldl GlobalScope.add start

def Program.ownedControls (p : Program) : List ControlDecl :=
  p.owned.filterMap Declaration.control?

end ControlReach
