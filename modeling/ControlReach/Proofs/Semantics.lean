import ControlReach.Proofs.Environment

/-!
# Executions of controls

A direct semantics of statements. Names stand for locations; a call runs the body of an action in
the environment that declares it, with arguments copied to locations of its own, and copies output
parameters back from left to right. Inputs, missing initial values and arguments, and choices of
tables are arbitrary.

An execution finishes, or it stops at a statement `bug()` or `assert(e)`. Where it stops is a call
path: the statements, branches and choices that lead there.
-/

namespace ControlReach

/-- The values at the locations given out so far. -/
abbrev Heap := List Datum

def Heap.assign (h : Heap) (n : Nat) (path : List String) (d : Datum) : Option Heap := do
  let old ← h[n]?
  return h.set n (← old.set? path d)

/-- Variables are locations; a constant has a value in each heap. -/
abbrev Environment := Env Nat (Heap → Option Datum)

/-! ### Expressions -/

namespace Expr

mutual

def eval (env : Environment) (h : Heap) : Expr → Option Datum
  | .bool b _ => some (.bool b)
  | .text s _ => some (.text s)
  | .var x _ =>
    match env.lookup x with
    | some (.var n) => h[n]?
    | some (.const value) => value h
    | _ => none
  | .paren inner _ => eval env h inner
  | .field target f _ => do (← eval env h target).get? f
  | .struct fields _ => do return .struct (← evalFields env h fields)
  | .not operand _ => do return .bool (!(← (← eval env h operand).bool?))
  | .and left right _ => do
    let a ← (← eval env h left).bool?
    let b ← (← eval env h right).bool?
    return .bool (a && b)
  | .or left right _ => do
    let a ← (← eval env h left).bool?
    let b ← (← eval env h right).bool?
    return .bool (a || b)
  | .equal negated left right _ => do
    let a ← eval env h left
    let b ← eval env h right
    return .bool (decide (a = b) != negated)
  | .call _ _ _ | .other _ _ => none

def evalFields (env : Environment) (h : Heap) :
    List (String × Expr) → Option (List (String × Datum))
  | [] => some []
  | (f, e) :: rest => do
    let d ← eval env h e
    return (f, d) :: (← evalFields env h rest)

end

def place (env : Environment) (e : Expr) : Option (Nat × List String) :=
  match e.access? with
  | none => none
  | some (x, _, path) =>
    match env.lookup x with
    | some (.var n) => some (n, path)
    | _ => none

end Expr

/-- When a constant gets the value of its expression. -/
inductive BindingTime where
  | declaration
  | use

/-- What a constant is, declared with an expression. -/
def BindingTime.bind (env : Environment) (h : Heap) (e : Expr) :
    BindingTime → Heap → Option Datum
  | .declaration => fun _ => e.eval env h
  | .use => fun h' => e.eval env h'

/-! ### Declarations and parameters -/

/-- Executing a declaration. -/
inductive Declares (time : BindingTime) (env : Environment) (h : Heap) :
    Local → Environment → Heap → Prop
  | initial {d e v} : d.initial = some e → e.eval env h = some v →
      Declares time env h (.variable d) (env.declare d.name (.var h.length)) (h ++ [v])
  | arbitrary {d ty v} : d.initial = none → env.resolveType d.type = some ty → v.HasType ty →
      Declares time env h (.variable d) (env.declare d.name (.var h.length)) (h ++ [v])
  | constant {d} :
      Declares time env h (.constant d) (env.declare d.name (.const (time.bind env h d.value))) h
  | action {d} : Declares time env h (.action d) (env.declare d.name (.action d)) h
  | table {d} : Declares time env h (.table d) (env.declare d.name (.table d)) h
  | inst {d control} : env.lookup d.typeName = some (.control control) →
      Declares time env h (.inst d) (env.declare d.name (.inst (some control))) h

/-- Executing declarations in order. -/
inductive DeclaresAll (time : BindingTime) :
    Environment → Heap → List Local → Environment → Heap → Prop
  | nil {env h} : DeclaresAll time env h [] env h
  | cons {env h x env₁ h₁ l env₂ h₂} : Declares time env h x env₁ h₁ →
      DeclaresAll time env₁ h₁ l env₂ h₂ → DeclaresAll time env h (x :: l) env₂ h₂

def pairInOrder : List Parameter → List Argument → List (Parameter × Option Argument)
  | [], _ => []
  | p :: params, [] => (p, none) :: pairInOrder params []
  | p :: params, a :: args => (p, some a) :: pairInOrder params args

def pairArguments (params : List Parameter) (args : List Argument) :
    List (Parameter × Option Argument) :=
  if args.all fun a => a.name.isNone then pairInOrder params args
  else params.map fun p => (p, args.find? fun a => a.name == some p.name)

/-- The location of a parameter, and the place to which its value is copied back. -/
structure Slot where
  name : String
  loc : Nat
  back : Option (Nat × List String)

/-- The body gets a location of its own, with the value of the argument or an arbitrary one. -/
inductive Passes (home caller : Environment) (h : Heap) :
    Parameter × Option Argument → Slot → Heap → Prop
  | input {p e name loc v} : p.direction.readOnly = true → e.eval caller h = some v →
      Passes home caller h (p, some (.given e name loc)) ⟨p.name, h.length, none⟩ (h ++ [v])
  | inout {p e name loc place v} : p.direction = .inout → e.place caller = some place →
      e.eval caller h = some v →
      Passes home caller h (p, some (.given e name loc)) ⟨p.name, h.length, some place⟩ (h ++ [v])
  | output {p e name loc place ty v} : p.direction = .output → e.place caller = some place →
      home.resolveType p.type = some ty → v.HasType ty →
      Passes home caller h (p, some (.given e name loc)) ⟨p.name, h.length, some place⟩ (h ++ [v])
  | arbitrary {p arg ty v} : (∀ e name loc, arg ≠ some (.given e name loc)) →
      home.resolveType p.type = some ty → v.HasType ty →
      Passes home caller h (p, arg) ⟨p.name, h.length, none⟩ (h ++ [v])

/-- Passing arguments from left to right. -/
inductive PassesAll (home caller : Environment) :
    Heap → List (Parameter × Option Argument) → List Slot → Heap → Prop
  | nil {h} : PassesAll home caller h [] [] h
  | cons {h x slot h₁ l slots h₂} : Passes home caller h x slot h₁ →
      PassesAll home caller h₁ l slots h₂ → PassesAll home caller h (x :: l) (slot :: slots) h₂

def slotFrame (slots : List Slot) : List (String × Meaning Nat (Heap → Option Datum)) :=
  slots.map fun slot => (slot.name, .var slot.loc)

/-- Copy the values of output parameters back, from left to right. -/
def storeBack : List Slot → Heap → Option Heap
  | [], h => some h
  | slot :: slots, h =>
    match slot.back with
    | none => storeBack slots h
    | some (n, path) => do
      let v ← h[slot.loc]?
      storeBack slots (← h.assign n path v)

/-! ### Statements and calls -/

/-- A statement of a block, a branch, a choice of a table, or a declaration of a control. -/
inductive PathStep where
  | stmt (i : Nat)
  | yes
  | no
  | choice (i : Nat)
  | miss
  | decl (i : Nat)
  deriving DecidableEq, Repr

/-- The way to a statement through blocks, branches and the bodies that are called. -/
abbrev CallPath := List PathStep

/-- How an execution ends. -/
inductive Exit where
  | done (env : Environment) (h : Heap)
  | stopped (path : CallPath)

/-- Back to the environment outside. -/
def Exit.leave (env : Environment) : Exit → Exit
  | .done _ h => .done env h
  | .stopped path => .stopped path

def Exit.under (step : PathStep) : Exit → Exit
  | .done env h => .done env h
  | .stopped path => .stopped (step :: path)

/-- What is executed. -/
inductive Code where
  /-- The statements of a block from the given position on. -/
  | statements (i : Nat) (l : List Stmt)
  | statement (x : Stmt)
  | action (d : ActionDecl) (home : Environment) (args : List Argument)
  | control (d : ControlDecl) (root : Environment) (args : List Argument)
  /-- One of the choices of a table from the given position on. -/
  | choices (d : TableDecl) (i : Nat) (refs : List ActionRef)

/-- Executing statements and calls. -/
inductive Runs (time : BindingTime) : Environment → Heap → Code → Exit → Prop
  | nil {env h i} : Runs time env h (.statements i []) (.done env h)
  | next {env h x env₁ h₁ i l out} : Runs time env h (.statement x) (.done env₁ h₁) →
      Runs time env₁ h₁ (.statements (i + 1) l) out → Runs time env h (.statements i (x :: l)) out
  | stop {env h x path i l} : Runs time env h (.statement x) (.stopped path) →
      Runs time env h (.statements i (x :: l)) (.stopped (.stmt i :: path))
  | block {env h body out} : Runs time ([] :: env) h (.statements 0 body.statements) out →
      Runs time env h (.statement (.block body)) (out.leave env)
  | yes {env h e yes no loc out} : e.eval env h = some (.bool true) →
      Runs time ([] :: env) h (.statements 0 yes.statements) out →
      Runs time env h (.statement (.branch e yes no loc)) ((out.leave env).under .yes)
  | no {env h e yes no loc out} : e.eval env h = some (.bool false) →
      Runs time ([] :: env) h (.statements 0 no.statements) out →
      Runs time env h (.statement (.branch e yes (some no) loc)) ((out.leave env).under .no)
  | skip {env h e yes loc} : e.eval env h = some (.bool false) →
      Runs time env h (.statement (.branch e yes none loc)) (.done env h)
  | assign {env h target value loc n path v h'} : target.place env = some (n, path) →
      value.eval env h = some v → h.assign n path v = some h' →
      Runs time env h (.statement (.assign target value loc)) (.done env h')
  | declare {env h d env' h'} : Declares time env h (.variable d) env' h' →
      Runs time env h (.statement (.variable d)) (.done env' h')
  | constant {env h d env' h'} : Declares time env h (.constant d) env' h' →
      Runs time env h (.statement (.constant d)) (.done env' h')
  | bug {env h callee args callLoc loc} : env.callee? callee = some (.assertion .bug) →
      Runs time env h (.statement (.call callee args callLoc loc)) (.stopped [])
  | holds {env h callee e name argLoc callLoc loc} :
      env.callee? callee = some (.assertion .assert) → e.eval env h = some (.bool true) →
      Runs time env h (.statement (.call callee [.given e name argLoc] callLoc loc)) (.done env h)
  | fails {env h callee e name argLoc callLoc loc} :
      env.callee? callee = some (.assertion .assert) → e.eval env h = some (.bool false) →
      Runs time env h (.statement (.call callee [.given e name argLoc] callLoc loc)) (.stopped [])
  | assume {env h callee e name argLoc callLoc loc} :
      env.callee? callee = some (.assertion .assume) → e.eval env h = some (.bool true) →
      Runs time env h (.statement (.call callee [.given e name argLoc] callLoc loc)) (.done env h)
  | callAction {env h callee d home args callLoc loc out} :
      env.callee? callee = some (.action d home) → Runs time env h (.action d home args) out →
      Runs time env h (.statement (.call callee args callLoc loc)) out
  | callControl {env h callee d root args callLoc loc out} :
      env.callee? callee = some (.control d root) → Runs time env h (.control d root args) out →
      Runs time env h (.statement (.call callee args callLoc loc)) out
  | callTable {env h callee d home args callLoc loc out} :
      env.callee? callee = some (.table d home) → Runs time home h (.choices d 0 d.actions) out →
      Runs time env h (.statement (.call callee args callLoc loc)) (out.leave env)
  | action {env h d home args slots h₁ env₂ h₂ h₃} :
      PassesAll home env h (pairArguments d.params args) slots h₁ →
      Runs time ([] :: slotFrame slots :: home) h₁ (.statements 0 d.body.statements)
        (.done env₂ h₂) → storeBack slots h₂ = some h₃ →
      Runs time env h (.action d home args) (.done env h₃)
  | actionStops {env h d home args slots h₁ path} :
      PassesAll home env h (pairArguments d.params args) slots h₁ →
      Runs time ([] :: slotFrame slots :: home) h₁ (.statements 0 d.body.statements)
        (.stopped path) → Runs time env h (.action d home args) (.stopped path)
  | control {env h d root args slots h₁ env₂ h₂ env₃ h₃ h₄} :
      PassesAll root env h (pairArguments d.params args) slots h₁ →
      DeclaresAll time (slotFrame slots :: root) h₁ d.locals env₂ h₂ →
      Runs time ([] :: env₂) h₂ (.statements 0 d.body.statements) (.done env₃ h₃) →
      storeBack slots h₃ = some h₄ → Runs time env h (.control d root args) (.done env h₄)
  | controlStops {env h d root args slots h₁ env₂ h₂ path} :
      PassesAll root env h (pairArguments d.params args) slots h₁ →
      DeclaresAll time (slotFrame slots :: root) h₁ d.locals env₂ h₂ →
      Runs time ([] :: env₂) h₂ (.statements 0 d.body.statements) (.stopped path) →
      Runs time env h (.control d root args) (.stopped path)
  | pick {env h d i ref a home refs out} : env.find? ref.name = some (.action a, home) →
      Runs time env h (.action a home ref.args) out →
      Runs time env h (.choices d i (ref :: refs)) (out.under (.choice i))
  | other {env h d i ref refs out} : Runs time env h (.choices d (i + 1) refs) out →
      Runs time env h (.choices d i (ref :: refs)) out
  | miss {env h d i} : d.defaultAction = none → Runs time env h (.choices d i []) (.done env h)
  | default {env h d i ref a home out} : d.defaultAction = some ref →
      env.find? ref.name = some (.action a, home) → Runs time env h (.action a home ref.args) out →
      Runs time env h (.choices d i []) (out.under .miss)

/-! ### Whole controls -/

/-- What a top-level declaration declares, before constants and instances are known. -/
def Declaration.meaning (t : TypeTable) :
    Declaration → Option (String × Meaning Nat (Heap → Option Datum))
  | .struct d => some (d.name, .type (t.structTypes.lookup d.name))
  | .typedef d => some (d.name, .type ((t.aliases.lookup d.name).map (TypeName.toTy t.structTypes)))
  | .control d => some (d.name, .control d)
  | .constant d => some (d.name, .const fun _ => none)
  | .inst d => some (d.name, .inst none)
  | .other _ _ => none

def updateName {α β : Type} (x : String) (m : Meaning α β) (f : List (String × Meaning α β)) :
    List (String × Meaning α β) :=
  f.map fun p => if p.1 = x then (x, m) else p

/-- Constants see the constants before them, and instances get their controls. -/
def addMeaning (f : List (String × Meaning Nat (Heap → Option Datum))) :
    Declaration × Option Diagnostic → List (String × Meaning Nat (Heap → Option Datum))
  | (.constant d, none) => updateName d.name (.const fun _ => d.value.eval [f] []) f
  | (.inst d, _) =>
    match f.lookup d.name, f.lookup d.typeName with
    | some (.inst _), some (.control control) => updateName d.name (.inst (some control)) f
    | _, _ => f
  | _ => f

def Program.environment (p : Program) : Environment :=
  [p.ownership.foldl addMeaning (p.owned.filterMap (Declaration.meaning p.typeTable))]

/-- Some execution of a control, from arbitrary inputs, stops at a call path. -/
def Program.Stops (p : Program) (time : BindingTime) (d : ControlDecl) (path : CallPath) : Prop :=
  ∃ slots h env h', PassesAll p.environment p.environment [] (d.params.map fun x => (x, none)) slots h ∧
    DeclaresAll time (slotFrame slots :: p.environment) h d.locals env h' ∧
    Runs time ([] :: env) h' (.statements 0 d.body.statements) (.stopped path)

/-! ### Statements that executions may come to -/

/-- A statement with its call path, and the names that it sees. -/
structure Visit where
  path : CallPath
  env : Environment
  stmt : Stmt

def Visit.under (step : PathStep) (v : Visit) : Visit := { v with path := step :: v.path }

def Local.after (env : Environment) : Local → Environment
  | .variable d => env.declare d.name (.var 0)
  | .constant d => env.declare d.name (.const fun _ => none)
  | .action d => env.declare d.name (.action d)
  | .table d => env.declare d.name (.table d)
  | .inst d =>
    match env.lookup d.typeName with
    | some (.control control) => env.declare d.name (.inst (some control))
    | _ => env
  | .other _ _ => env

def Stmt.after (env : Environment) : Stmt → Environment
  | .variable d => Local.after env (.variable d)
  | .constant d => Local.after env (.constant d)
  | _ => env

mutual

/-- The statements inside a statement, those of the bodies that are called included. -/
def Stmt.visits (called : Callee Nat (Heap → Option Datum) → List Visit) (env : Environment) :
    Stmt → List Visit
  | .block body => Block.visits called env body
  | .branch _ yes none _ => (Block.visits called env yes).map (Visit.under .yes)
  | .branch _ yes (some no) _ =>
    (Block.visits called env yes).map (Visit.under .yes) ++
      (Block.visits called env no).map (Visit.under .no)
  | .call callee args callLoc loc =>
    match env.callee? callee with
    | some (.assertion _) => [⟨[], env, .call callee args callLoc loc⟩]
    | some c => called c
    | none => []
  | x => [⟨[], env, x⟩]

/-- The statements inside the statements of a block from the given position on. -/
def Stmt.visitsAll (called : Callee Nat (Heap → Option Datum) → List Visit) (env : Environment)
    (i : Nat) : List Stmt → List Visit
  | [] => []
  | x :: l => (Stmt.visits called env x).map (Visit.under (.stmt i)) ++
      Stmt.visitsAll called (x.after env) (i + 1) l

def Block.visits (called : Callee Nat (Heap → Option Datum) → List Visit) (env : Environment) :
    Block → List Visit
  | .mk body _ => Stmt.visitsAll called ([] :: env) 0 body

end

/-- The names of parameters; what they stand for is open. -/
def paramFrame (params : List Parameter) : List (String × Meaning Nat (Heap → Option Datum)) :=
  params.map fun p => (p.name, .var 0)

/-- The constants among the declarations of a control from the given position on. -/
def Local.visitsAll (env : Environment) (i : Nat) : List Local → List Visit
  | [] => []
  | .constant d :: l =>
    ⟨[.decl i], env, .constant d⟩ :: Local.visitsAll (Local.after env (.constant d)) (i + 1) l
  | x :: l => Local.visitsAll (x.after env) (i + 1) l

/-- The statements inside the actions of a table from the given position on. -/
def visitsChoices (called : Callee Nat (Heap → Option Datum) → List Visit) (d : TableDecl)
    (home : Environment) (i : Nat) : List ActionRef → List Visit
  | [] =>
    match d.defaultAction with
    | none => []
    | some ref => (visitsAction ref).map (Visit.under .miss)
  | ref :: refs => (visitsAction ref).map (Visit.under (.choice i)) ++
      visitsChoices called d home (i + 1) refs
where
  /-- The statements inside the action of a choice. -/
  visitsAction (ref : ActionRef) : List Visit :=
    match home.find? ref.name with
    | some (.action a, home) => Block.visits called (paramFrame a.params :: home) a.body
    | _ => []

/-- The statements inside what is called, with bodies followed to the given depth. -/
def Callee.visits : Nat → Callee Nat (Heap → Option Datum) → List Visit
  | 0, _ => []
  | _ + 1, .assertion _ => []
  | n + 1, .action d home => Block.visits (Callee.visits n) (paramFrame d.params :: home) d.body
  | n + 1, .table d home => visitsChoices (Callee.visits n) d home 0 d.actions
  | n + 1, .control d root =>
    Local.visitsAll (paramFrame d.params :: root) 0 d.locals ++
      Block.visits (Callee.visits n) (d.locals.foldl Local.after (paramFrame d.params :: root)) d.body

/-- The statements that executions of a control may come to, in order. -/
def Program.visits (p : Program) (d : ControlDecl) : List Visit :=
  Callee.visits (inlineBound p.globals.scope + 1) (.control d p.environment)

/-- The kind of the assertion that a statement makes. -/
def Visit.kind? (v : Visit) : Option AssertionKind :=
  match v.stmt with
  | .call callee _ _ _ => v.env.assertion? callee
  | _ => none

def Visit.loc (v : Visit) : Option Location :=
  match v.stmt with
  | .call _ _ callLoc loc => Location.orElse loc callLoc
  | _ => none

/-- Executions may stop at the statement. -/
def Visit.raises (v : Visit) : Bool := v.kind? = some .bug || v.kind? = some .assert

/-- The statements at which executions of a control may stop, in order. -/
def Program.occurrences (p : Program) (d : ControlDecl) : List Visit :=
  (p.visits d).filter Visit.raises

/-! ### Constants that depend on constants only -/

mutual

/-- All names in an expression stand for constants. -/
def Expr.isFixed {α β : Type} (env : Env α β) : Expr → Bool
  | .bool _ _ | .text _ _ => true
  | .var x _ =>
    match env.lookup x with
    | some (.const _) => true
    | _ => false
  | .paren inner _ => isFixed env inner
  | .field target _ _ => isFixed env target
  | .struct fields _ => areFixed env fields
  | .not operand _ => isFixed env operand
  | .and left right _ | .or left right _ | .equal _ left right _ =>
    isFixed env left && isFixed env right
  | .call _ _ _ | .other _ _ => false

def Expr.areFixed {α β : Type} (env : Env α β) : List (String × Expr) → Bool
  | [] => true
  | (_, e) :: rest => isFixed env e && areFixed env rest

end

/-- A statement that is no declaration of a constant, or one that uses constants only. -/
def Visit.isFixed (v : Visit) : Bool :=
  match v.stmt with
  | .constant d => d.value.isFixed v.env
  | _ => true

/-- The constant declarations among statements use constants only. -/
abbrev FixedConstants (l : List Visit) : Prop := ∀ v ∈ l, v.isFixed = true

end ControlReach
