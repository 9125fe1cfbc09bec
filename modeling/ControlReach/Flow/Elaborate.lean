import ControlReach.Flow.Arguments
import ControlReach.Flow.Builder

/-!
# Statements as flow graphs

Statements extend the graph at its current block. Calls of actions and applications of controls are
inlined: arguments are copied to formals of the body's own, and the formals of output parameters are
copied back after it. The application of a table is a choice between the bodies of its actions and
a miss.

What to do with a call is defined by recursion on the depth to which bodies are inlined. No body is
inlined inside itself, so the number of callables bounds that depth.
-/

namespace ControlReach

open Location

/-- The variable at the root of a place, with its location and the field path from it. -/
def Expr.access? : Expr → Option (String × Option Location × List String)
  | .var x loc => some (x, loc, [])
  | .paren inner _ => inner.access?
  | .field target f _ => target.access?.map fun (x, loc, path) => (x, loc, path ++ [f])
  | _ => none

/-- The variable, the field path and the type of an assignable expression. -/
def Scope.place (s : Scope) (e : Expr) : Checked (Variable × List String × Ty) :=
  match e.access? with
  | none => reject (.notLocation e.describe) e.loc
  | some (x, xloc, path) => do
    match ← s.resolve x xloc with
    | .constant _ => reject (.assignConstant x) e.loc
    | .variable v =>
      if v.readOnly then reject (.assignReadOnly x) e.loc
      else return (v, path, ← s.typeOf none e)
    | b => reject (.notVariable x b.kind) e.loc

def Scope.assertion? (s : Scope) : Expr → Option AssertionKind
  | .var x _ =>
    if (s.lookup x).isSome then none
    else if x = "bug" then some .bug
    else if x = "assert" then some .assert
    else if x = "assume" then some .assume
    else none
  | _ => none

def assertionCondition (kind : AssertionKind) (args : List Argument) (callLoc : Option Location) :
    Checked (Option Expr) :=
  match kind, args with
  | .bug, [] => .ok none
  | .bug, _ => reject .bugArguments callLoc
  | _, [.given e name loc] =>
    match name with
    | none => .ok (some e)
    | some x =>
      if x = "condition" then .ok (some e)
      else reject (.assertionParameter kind x) (orElse loc callLoc)
  | _, _ => reject (.assertionArguments kind) callLoc

def targetDescription : Option Expr → String
  | none => "bug() reached"
  | some condition => "assert(" ++ condition.describe ++ ") fails"

namespace Elaborate

open Builder

/-! ### Declarations -/

/-- Declare a variable. Its initial value sees what the name stood for before. -/
def declareVariable (ctx : Context) (s : Scope) (d : VariableDecl) : Builder Scope := do
  let ty ← check (s.resolveType d.type)
  let value ← match d.initial with
    | some e => (check (s.lowerAs ty e d.loc)).map some
    | none => pure none
  let v ← newVariable d.name ty .ordinary .data false (ctx.display d.name)
  let s ← check (s.declare d.name (.variable v) d.loc)
  match value with
  | some value => emit (.assign v [] value d.loc)
  | none => havoc v d.loc
  return s

variable (s : Scope)

def declareConstant (d : ConstantDecl) : Builder Scope := do
  let ty ← check (s.resolveType d.type)
  let value ← check (s.lowerAs ty d.value d.loc)
  check (s.declare d.name (.constant (some (ty, value))) d.loc)

def resolveAction (ref : ActionRef) : Checked (ActionDecl × String × Scope) := do
  match ← s.resolveWith ref.name ref.loc with
  | (.action d q, home) => return (d, q, home)
  | (b, _) => reject (.notAction ref.name b.kind) ref.loc

/-- The actions listed by a table exist, and none is listed twice. -/
def checkActions (s : Scope) (table : String) (seen : List String) :
    List ActionRef → Checked Unit
  | [] => .ok ()
  | ref :: rest =>
    if ref.name ∈ seen then reject (.tableRepeatsAction table ref.name) ref.loc
    else do
      let _ ← resolveAction s ref
      checkActions s table (ref.name :: seen) rest

/-- The keys of a table are typed, and its actions exist. -/
def checkTable (d : TableDecl) : Checked Unit := do
  d.keys.forM fun key => do
    let _ ← s.typeOf none key.expr
  checkActions s d.name [] d.actions
  match d.defaultAction with
  | some ref => do
    let _ ← resolveAction s ref
  | none => return ()

def declareInstance (d : Instantiation) : Checked Scope := do
  match ← s.resolve d.typeName d.loc with
  | .control control =>
    if d.args.isEmpty then s.declare d.name (.inst (some control)) d.loc
    else reject (.constructorArguments d.typeName) d.loc
  | b => reject (.instanceOf b.kind d.typeName) d.loc

/-- Declare a local of a control. A table stays declared even if its check fails. -/
def declareLocal (ctx : Context) (s : Scope) : Local → Builder Scope
  | .variable d => declareVariable ctx s d
  | .constant d => declareConstant s d
  | .action d => check (s.declare d.name (.action d (s.qualified d.name)) d.loc)
  | .table d => do
    let s ← check (s.declare d.name (.table d (s.qualified d.name)) d.loc)
    recorded () (check (checkTable s d))
    return s
  | .inst d => check (declareInstance s d)
  | .other typeName loc => fail (.unknownLocal typeName) loc

def declareLocals (ctx : Context) : Scope → List Local → Builder Scope
  | s, [] => do
    keepActions s
    return s
  | s, l :: rest => do declareLocals ctx (← recorded s (declareLocal ctx s l)) rest

/-! ### Statements -/

/-- What to do with a call: scope, callee, arguments, and two locations. -/
abbrev CallHandler :=
  Context → Scope → Expr → List Argument → Option Location → Option Location → Builder Unit

def assign (s : Scope) (target value : Expr) (loc : Option Location) : Builder Unit := do
  let (v, path, ty) ← check (s.place target)
  let value ← check (s.lowerAs ty value loc)
  emit (.assign v path value loc)

def branchCondition (condition : Expr) (loc : Option Location) : Checked Rvalue := do
  match ← s.typeOf none condition with
  | .bool => s.lower condition
  | ty => reject (.conditionNotBool ty) loc

mutual

/-- Elaborate a statement; the scope afterwards may have one name more. -/
def statement (handle : CallHandler) (ctx : Context) (s : Scope) : Stmt → Builder Scope
  | .block body => do
    block handle ctx s body
    return s
  | .branch condition thenBlock elseBlock loc => do
    let condition ← check (branchCondition s condition loc)
    let start ← current
    let thenEntry ← newBlock "then"
    connect start thenEntry .condTrue (some condition)
    setCurrent thenEntry
    block handle ctx s thenBlock
    let thenExit ← current
    let join ← newBlock "join"
    match elseBlock with
    | some elseBlock => do
      let elseEntry ← newBlock "else"
      connect start elseEntry .condFalse (some (.not condition))
      setCurrent elseEntry
      block handle ctx s elseBlock
      connect (← current) join .fallthrough none
    | none => connect start join .condFalse (some (.not condition))
    connect thenExit join .fallthrough none
    setCurrent join
    return s
  | .assign target value loc => do
    assign s target value loc
    return s
  | .call callee args callLoc loc => do
    handle ctx s callee args callLoc loc
    return s
  | .variable d => declareVariable ctx s d
  | .constant d => declareConstant s d
  | .other typeName loc => fail (.unknownStatement typeName) loc

/-- Elaborate statements one after another; a failure skips its statement. -/
def statements (handle : CallHandler) (ctx : Context) (s : Scope) : List Stmt → Builder Unit
  | [] => return ()
  | stmt :: rest => do
    let s ← recorded s (statement handle ctx s stmt)
    statements handle ctx s rest

def block (handle : CallHandler) (ctx : Context) (s : Scope) : Block → Builder Unit
  | .mk body _ => statements handle ctx (s.enter .block "") body

end

/-! ### Calls -/

/-- A formal of an inlined body: its variable, the copy into it, and where it is copied back to. -/
structure Formal where
  param : Parameter
  v : Variable
  copyIn : Option Op
  copyOut : Option (Variable × List String)

def bindFormal (ctx : Context) (home caller : Scope) (loc : Option Location) :
    Parameter × Option Argument → Builder Formal
  | (p, arg) => do
    let ty ← check (home.resolveType p.type)
    let v ← newVariable p.name ty .parameter p.direction p.direction.readOnly (ctx.display p.name)
    match arg with
    | some (.given e _ argLoc) =>
      let argLoc := orElse argLoc loc
      if p.direction.readOnly then
        let value ← check (caller.lowerAs ty e argLoc)
        return ⟨p, v, some (.assign v [] value argLoc), none⟩
      else
        let (target, path, targetTy) ← check (caller.place e)
        if !ty.agrees targetTy then
          fail (.argumentType p.direction p.name targetTy ty) argLoc
        else if p.direction = .inout then
          let value ← check (caller.lower e)
          return ⟨p, v, some (.assign v [] value argLoc), some (target, path)⟩
        else return ⟨p, v, none, some (target, path)⟩
    | _ => return ⟨p, v, none, none⟩

def declareFormals (loc : Option Location) : Scope → List Formal → Builder Scope
  | callee, [] => return callee
  | callee, f :: rest => do
    match f.copyIn with
    | some op => emit op
    | none => havoc f.v (orElse f.param.loc loc)
    let callee ← check (callee.declare f.param.name (.variable f.v) f.param.loc)
    declareFormals loc callee rest

def copyBack (formals : List Formal) (loc : Option Location) : Builder Unit :=
  formals.forM fun f =>
    match f.copyOut with
    | some (target, path) => emit (.assign target path (.read f.v) loc)
    | none => return ()

variable (handle : CallHandler)

def inlineAction (ctx : Context) (action : PendingAction)
    (args : List Argument) (caller : Scope) (loc : Option Location) (unbound : Unbound) :
    Builder Unit := do
  let d := action.decl
  let bound ← check (bindArguments d.params args d.name loc unbound)
  let ctx ← enterBody ctx action.qualified loc
  let formals ← bound.mapM (bindFormal ctx action.home caller loc)
  let callee ← declareFormals loc (action.home.enter .action d.name) formals
  block handle ctx callee d.body
  copyBack formals loc

def checkDirections (control : ControlDecl) (loc : Option Location) : Checked Unit :=
  match control.params.find? fun p => p.direction == .data with
  | some p => reject (.directionless p.name control.name) (orElse p.loc loc)
  | none => .ok ()

def inlineControl (ctx : Context) (control : ControlDecl)
    (args : List Argument) (caller : Scope) (loc : Option Location) : Builder Unit := do
  check (checkDirections control loc)
  let bound ← check (bindArguments control.params args control.name loc .none)
  let ctx ← enterBody ctx control.name loc
  let home := caller.root
  let formals ← bound.mapM (bindFormal ctx home caller loc)
  let callee ← declareFormals loc (home.enter .control control.name) formals
  let callee ← declareLocals ctx callee control.locals
  block handle ctx callee control.body
  copyBack formals loc

def tableChoice (ctx : Context) (table : TableDecl) (home : Scope)
    (site : TableSite) (start join : Nat) (loc : Option Location)
    (choice : ActionRef × ActionDecl × String × Scope) : Builder Unit := do
  let (ref, d, q, actionHome) := choice
  addLabel site.id ref.name
  let entry ← newBlock (table.name ++ "." ++ ref.name)
  connect start entry .tableAction (some (site.guard ref.name))
  setCurrent entry
  recorded () (inlineAction handle ctx ⟨d, q, actionHome⟩ ref.args home
    (orElse ref.loc loc) .data)
  connect (← current) join .fallthrough none

def runDefault (ctx : Context) (table : TableDecl) (home : Scope)
    (loc : Option Location) : Builder Unit :=
  match table.defaultAction with
  | some ref => do
    let (d, q, actionHome) ← check (resolveAction home ref)
    recorded () (inlineAction handle ctx ⟨d, q, actionHome⟩ ref.args home
      (orElse ref.loc loc) .data)
  | none => return ()

/-- The choice of a table when no entry matches. -/
def tableMiss (handle : CallHandler) (ctx : Context) (table : TableDecl) (home : Scope)
    (site : TableSite) (start join : Nat) (loc : Option Location) : Builder Unit := do
  addLabel site.id TableSite.miss
  let entry ← newBlock (table.name ++ "." ++ TableSite.miss)
  connect start entry .tableMiss (some (site.guard TableSite.miss))
  setCurrent entry
  runDefault handle ctx table home loc
  connect (← current) join .fallthrough none

def applyTable (ctx : Context) (table : TableDecl) (qualified : String)
    (home : Scope) (args : List Argument) (loc : Option Location) : Builder Unit :=
  if !args.isEmpty then fail (.tableArguments table.name) loc
  else do
    let choices ← check (table.actions.mapM fun ref => return (ref, ← resolveAction home ref))
    let id ← newSite qualified loc
    let site : TableSite := ⟨id, qualified, [], loc⟩
    let start ← current
    let join ← newBlock (table.name ++ "-join")
    choices.forM (tableChoice handle ctx table home site start join loc)
    tableMiss handle ctx table home site start join loc
    setCurrent join

def assertionGuard (kind : AssertionKind) (condition : Expr) (loc : Option Location) :
    Checked Rvalue := do
  match ← s.typeOf none condition with
  | .bool => s.lower condition
  | ty => reject (.assertionNotBool kind ty) loc

def newTarget (ctx : Context) (s : Scope) (kind : AssertionKind) (condition : Option Expr)
    (loc : Option Location) : Builder Nat := do
  let id ← newBlock kind.text
  let st : Build ← get
  let target : Target :=
    ⟨ctx.control, st.targets.length, kind, id, targetDescription condition, loc, s.visible⟩
  set { st with targets := st.targets ++ [target] }
  modifyBlock id fun b => { b with target := some target }
  return id

/-- Elaborate an assertion. An execution that fails it ends at the error location. -/
def assertion (ctx : Context) (s : Scope) (kind : AssertionKind) (args : List Argument)
    (callLoc loc : Option Location) : Builder Unit := do
  match ← check (assertionCondition kind args callLoc) with
  | none =>
    let error ← newTarget ctx s kind none loc
    connect (← current) error .assertFail none
    setCurrent (← newBlock "after-bug")
  | some condition =>
    let guard ← check (assertionGuard s kind condition loc)
    if kind = .assume then emit (.assume guard loc)
    else
      let error ← newTarget ctx s kind (some condition) loc
      connect (← current) error .assertFail (some (.not guard))
      let next ← newBlock "assert-ok"
      connect (← current) next .condTrue (some guard)
      setCurrent next

def callName (ctx : Context) (s : Scope) (x : String)
    (xloc : Option Location) (args : List Argument) (loc : Option Location) : Builder Unit := do
  match ← check (s.resolveWith x (orElse xloc loc)) with
  | (.action d q, home) => inlineAction handle ctx ⟨d, q, home⟩ args s loc .none
  | (.table d q, home) => applyTable handle ctx d q home args loc
  | (b, _) => fail (.notCallable x b.kind) loc

def callMethod (ctx : Context) (s : Scope) (x f : String)
    (xloc : Option Location) (args : List Argument) (loc : Option Location) : Builder Unit := do
  let (b, home) ← check (s.resolveWith x (orElse xloc loc))
  if f ≠ "apply" then fail (.method f b.kind x) loc
  else
    match b with
    | .table d q => applyTable handle ctx d q home args loc
    | .inst (some control) => inlineControl handle ctx control args s loc
    | b => fail (.applyOn b.kind x) loc

/-- What to do with a call, when bodies are inlined to the given depth. -/
def call : Nat → CallHandler
  | 0 => fun ctx _ _ _ callLoc loc => fail (.recursion ctx.stack) (orElse loc callLoc)
  | depth + 1 => fun ctx s callee args callLoc loc =>
    let loc := orElse loc callLoc
    match s.assertion? callee with
    | some kind => assertion ctx s kind args callLoc loc
    | none =>
      match callee with
      | .var x xloc => callName (call depth) ctx s x xloc args loc
      | .field (.var x xloc) f _ => callMethod (call depth) ctx s x f xloc args loc
      | e => fail (.callOf e.describe) loc

end Elaborate

end ControlReach
