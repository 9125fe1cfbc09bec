import ControlReach.Proofs.Datum
import ControlReach.Proofs.Elaboration
import ControlReach.Proofs.ScopeContents

/-!
# Environments

An environment says what names stand for, frame by frame. What it keeps for variables and constants
is left open: executions keep locations and values, scopes variables and expressions.
-/

namespace ControlReach

open List

/-- What a name stands for. -/
inductive Meaning (α β : Type) where
  | var (a : α)
  | const (b : β)
  | type (ty : Option Ty)
  | control (decl : ControlDecl)
  | action (decl : ActionDecl)
  | table (decl : TableDecl)
  | inst (control : Option ControlDecl)

/-- The names of each frame, the innermost frame first. -/
abbrev Env (α β : Type) := List (List (String × Meaning α β))

/-- What a call calls: an assertion, or a body with the environment it is read in. -/
inductive Callee (α β : Type) where
  | assertion (kind : AssertionKind)
  | action (decl : ActionDecl) (home : Env α β)
  | table (decl : TableDecl) (home : Env α β)
  | control (decl : ControlDecl) (root : Env α β)

namespace Env

variable {α β : Type}

def find? : Env α β → String → Option (Meaning α β × Env α β)
  | [], _ => none
  | f :: rest, x =>
    match f.lookup x with
    | some m => some (m, f :: rest)
    | none => find? rest x

variable (env : Env α β)

def lookup (x : String) : Option (Meaning α β) := (env.find? x).map Prod.fst

def root : Env α β → Env α β
  | [] => []
  | [f] => [f]
  | _ :: rest => root rest

def declare (x : String) (m : Meaning α β) : Env α β → Env α β
  | [] => []
  | f :: rest => (f ++ [(x, m)]) :: rest

def resolveType : TypeRef → Option Ty
  | .bool _ => some .bool
  | .string _ => some .string
  | .named x _ =>
    match env.lookup x with
    | some (.type ty) => ty
    | _ => none
  | .other _ => none

def assertion? : Expr → Option AssertionKind
  | .var x _ =>
    if (env.lookup x).isSome then none
    else if x = "bug" then some .bug
    else if x = "assert" then some .assert
    else if x = "assume" then some .assume
    else none
  | _ => none

/-- Actions are called by their names, controls by `apply`, and tables by either. -/
def callee? (e : Expr) : Option (Callee α β) :=
  match env.assertion? e with
  | some kind => some (.assertion kind)
  | none =>
    match e.applied? with
    | none => none
    | some (x, apply) =>
      match env.find? x, apply with
      | some (.action d, home), false => some (.action d home)
      | some (.table d, home), _ => some (.table d home)
      | some (.inst (some d), _), true => some (.control d env.root)
      | _, _ => none

end Env

/-! ### Environments with the same names -/

section Rel

variable {α β α' β' : Type} {R : α → α' → Prop} {Q : β → β' → Prop}

/-- Two meanings of one kind. -/
inductive Meaning.Rel (R : α → α' → Prop) (Q : β → β' → Prop) :
    Meaning α β → Meaning α' β' → Prop
  | var {a a'} : R a a' → Meaning.Rel R Q (.var a) (.var a')
  | const {b b'} : Q b b' → Meaning.Rel R Q (.const b) (.const b')
  | type {ty} : Meaning.Rel R Q (.type ty) (.type ty)
  | control {d} : Meaning.Rel R Q (.control d) (.control d)
  | action {d} : Meaning.Rel R Q (.action d) (.action d)
  | table {d} : Meaning.Rel R Q (.table d) (.table d)
  | inst {c} : Meaning.Rel R Q (.inst c) (.inst c)

def Env.Rel (R : α → α' → Prop) (Q : β → β' → Prop) : Env α β → Env α' β' → Prop :=
  Forall₂ (Forall₂ fun p q => p.1 = q.1 ∧ Meaning.Rel R Q p.2 q.2)

/-- Two callees of one kind. -/
inductive Callee.Rel (R : α → α' → Prop) (Q : β → β' → Prop) : Callee α β → Callee α' β' → Prop
  | assertion {kind} : Callee.Rel R Q (.assertion kind) (.assertion kind)
  | action {d home home'} : Env.Rel R Q home home' →
      Callee.Rel R Q (.action d home) (.action d home')
  | table {d home home'} : Env.Rel R Q home home' → Callee.Rel R Q (.table d home) (.table d home')
  | control {d root root'} : Env.Rel R Q root root' →
      Callee.Rel R Q (.control d root) (.control d root')

theorem Meaning.Rel.imp {R' : α → α' → Prop} {Q' : β → β' → Prop} (hR : ∀ a a', R a a' → R' a a')
    (hQ : ∀ b b', Q b b' → Q' b b') {m : Meaning α β} (h : m.Rel R Q m') : m.Rel R' Q' m' := by
  cases h with
  | var h => exact .var (hR _ _ h)
  | const h => exact .const (hQ _ _ h)
  | type | control | action | table | inst => constructor

namespace Env.Rel

variable {env : Env α β} {env' : Env α' β'}

theorem imp {R' : α → α' → Prop} {Q' : β → β' → Prop} (hR : ∀ a a', R a a' → R' a a')
    (hQ : ∀ b b', Q b b' → Q' b b') (h : Env.Rel R Q env env') : Env.Rel R' Q' env env' :=
  Forall₂.imp (fun _ _ hf => Forall₂.imp (fun _ _ hp => ⟨hp.1, hp.2.imp hR hQ⟩) hf) h

variable (h : Env.Rel R Q env env')

include h

theorem find? (x : String) :
    Option.Rel (fun p q => Meaning.Rel R Q p.1 q.1 ∧ Env.Rel R Q p.2 q.2) (env.find? x)
      (env'.find? x) := by
  induction h with
  | nil => exact .none
  | @cons f f' rest rest' hf hrest ih =>
    rw [Env.find?, Env.find?]
    rcases rel_cases (Assoc.rel_lookup hf x) with ⟨h, h'⟩ | ⟨m, m', h, h', hm⟩ <;> rw [h, h']
    · exact ih
    · exact .some ⟨hm, .cons hf hrest⟩

theorem lookup (x : String) : Option.Rel (Meaning.Rel R Q) (env.lookup x) (env'.lookup x) := by
  rw [Env.lookup, Env.lookup]
  rcases rel_cases (h.find? x) with ⟨h, h'⟩ | ⟨p, q, h, h', hm, -⟩ <;> rw [h, h']
  · exact .none
  · exact .some hm

theorem root : Env.Rel R Q env.root env'.root := by
  induction h with
  | nil => exact .nil
  | @cons f f' rest rest' hf hrest ih =>
    cases hrest with
    | nil => exact .cons hf .nil
    | cons hg hrest => exact ih

theorem enter : Env.Rel R Q ([] :: env) ([] :: env') := .cons .nil h

theorem declare {m : Meaning α β} (hm : m.Rel R Q m') (x : String) :
    Env.Rel R Q (env.declare x m) (env'.declare x m') := by
  cases h with
  | nil => exact .nil
  | cons hf hrest => exact .cons (rel_append hf (.cons ⟨rfl, hm⟩ .nil)) hrest

theorem resolveType (t : TypeRef) : env.resolveType t = env'.resolveType t := by
  cases t with
  | bool | string | other => rfl
  | named x loc =>
    rw [Env.resolveType, Env.resolveType]
    rcases rel_cases (h.lookup x) with ⟨h, h'⟩ | ⟨m, m', h, h', hm⟩
    · rw [h, h']
    · rw [h, h']
      cases hm <;> rfl

theorem assertion? (e : Expr) : env.assertion? e = env'.assertion? e := by
  cases e with
  | var x loc =>
    rw [Env.assertion?, Env.assertion?]
    rcases rel_cases (h.lookup x) with ⟨h, h'⟩ | ⟨m, m', h, h', -⟩ <;> rw [h, h'] <;> rfl
  | _ => rfl

theorem callee? (e : Expr) : Option.Rel (Callee.Rel R Q) (env.callee? e) (env'.callee? e) := by
  rw [Env.callee?, Env.callee?, h.assertion? e]
  split
  · exact .some .assertion
  · split
    · exact .none
    · rename_i x apply _
      rcases rel_cases (h.find? x) with ⟨hx, hx'⟩ | ⟨⟨m, home⟩, ⟨m', home'⟩, hx, hx', hm, hhome⟩
      · rw [hx, hx']
        exact .none
      · rw [hx, hx']
        cases hm with
        | var | const | type | control => exact .none
        | action =>
          cases apply with
          | false => exact .some (.action hhome)
          | true => exact .none
        | table => exact .some (.table hhome)
        | @inst c =>
          cases c with
          | none => cases apply <;> exact .none
          | some d =>
            cases apply with
            | false => exact .none
            | true => exact .some (.control h.root)

end Env.Rel

end Rel

/-! ### The environment of a scope -/

def Binding.meaning : Binding → Meaning Variable (Option (Ty × Rvalue))
  | .variable v => .var v
  | .type ty => .type ty
  | .constant known => .const known
  | .control d => .control d
  | .action d _ => .action d
  | .table d _ => .table d
  | .inst c => .inst c

def Frame.names (f : Frame) : List (String × Meaning Variable (Option (Ty × Rvalue))) :=
  f.symbols.map fun p => (p.1, p.2.meaning)

namespace Scope

variable {s : Scope}

def env (s : Scope) : Env Variable (Option (Ty × Rvalue)) := s.frames.map Frame.names

theorem lookup_names (f : Frame) (x : String) :
    f.names.lookup x = (f.lookup x).map Binding.meaning :=
  Assoc.lookup_map (fun p : String × Binding => p.2.meaning) x f.symbols

theorem find?_names (x : String) (invalid : List (String × Diagnostic)) :
    ∀ inner outer, Env.find? ((inner :: outer).map Frame.names) x =
        (findFrom x inner outer).map fun (b, f, rest) => (b.meaning, (⟨f, rest, invalid⟩ : Scope).env)
  | inner, [] => by
    rw [findFrom, map_cons, Env.find?, lookup_names]
    cases inner.lookup x <;> rfl
  | inner, f :: rest => by
    rw [findFrom, map_cons, Env.find?, lookup_names, find?_names x invalid f rest]
    cases inner.lookup x <;> rfl

theorem find?_env (s : Scope) (x : String) :
    s.env.find? x = (s.find? x).map fun p => (p.1.meaning, p.2.env) := by
  rw [find?, Option.map_map]
  exact find?_names x s.invalid s.inner s.outer

theorem lookup_env (s : Scope) (x : String) :
    s.env.lookup x = (s.lookup x).map Binding.meaning := by
  rw [Env.lookup, find?_env, lookup, Option.map_map, Option.map_map]
  rfl

theorem env_root (s : Scope) : s.root.env = s.env.root := by
  have hroot : ∀ (inner : Frame) (outer : List Frame),
      [(rootFrame inner outer).names] = Env.root ((inner :: outer).map Frame.names) := by
    intro inner outer
    induction outer generalizing inner with
    | nil => rfl
    | cons f rest ih => exact ih f
  exact hroot s.inner s.outer

theorem env_enter (s : Scope) (kind : FrameKind) (name : String) :
    (s.enter kind name).env = [] :: s.env := rfl

theorem env_declare (h : s.declare x b loc = .ok s') : s'.env = s.env.declare x b.meaning := by
  obtain ⟨-, rfl⟩ := declare_eq_ok h
  simp [env, frames, Frame.names, Env.declare]

theorem assertion?_env (s : Scope) (e : Expr) : s.env.assertion? e = s.assertion? e := by
  cases e with
  | var x loc => rw [Env.assertion?, Scope.assertion?, lookup_env, Option.isSome_map]
  | _ => rfl

theorem resolve_env (h : s.resolve x loc = .ok m) : s.env.lookup x = some m.meaning := by
  rw [lookup_env, resolve_eq_ok.1 h]
  rfl

theorem resolveType_env {t : TypeRef} (h : s.resolveType t = .ok ty) :
    s.env.resolveType t = some ty := by
  cases t with
  | bool | string => cases h; rfl
  | other => cases h
  | named x loc =>
    rw [Env.resolveType, lookup_env, (resolveType_named.1 h).1]
    rfl

end Scope

end ControlReach
