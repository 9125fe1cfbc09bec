import ControlReach.Proofs.ScopeContents
import ControlReach.Proofs.SymbolName

/-!
# The identifiers of a program
-/

namespace ControlReach

open List

/-! ### All identifiers -/

mutual

def Expr.names : Expr → List String
  | .bool _ _ | .text _ _ | .other _ _ => []
  | .var x _ => [x]
  | .paren e _ | .not e _ => Expr.names e
  | .field e f _ => f :: Expr.names e
  | .struct fields _ => Expr.fieldNames fields
  | .and a b _ | .or a b _ | .equal _ a b _ => Expr.names a ++ Expr.names b
  | .call callee args _ => Expr.names callee ++ Expr.argumentNames args

def Expr.fieldNames : List (String × Expr) → List String
  | [] => []
  | (f, e) :: rest => f :: (Expr.names e ++ Expr.fieldNames rest)

def Expr.argumentNames : List Argument → List String
  | [] => []
  | .given e x _ :: rest => x.toList ++ Expr.names e ++ Expr.argumentNames rest
  | .any x _ :: rest => x.toList ++ Expr.argumentNames rest

end

def TypeRef.names : TypeRef → List String
  | .named x _ => [x]
  | _ => []

def VariableDecl.names (d : VariableDecl) : List String :=
  d.name :: (d.type.names ++ (d.initial.map Expr.names).getD [])

def ConstantDecl.names (d : ConstantDecl) : List String := d.name :: (d.type.names ++ d.value.names)

mutual

def Stmt.names : Stmt → List String
  | .block (.mk body _) => Stmt.namesOf body
  | .branch e (.mk yes _) none _ => e.names ++ Stmt.namesOf yes
  | .branch e (.mk yes _) (some (.mk no _)) _ => e.names ++ (Stmt.namesOf yes ++ Stmt.namesOf no)
  | .assign target value _ => target.names ++ value.names
  | .call callee args _ _ => callee.names ++ Expr.argumentNames args
  | .variable d => d.names
  | .constant d => d.names
  | .other _ _ => []

def Stmt.namesOf : List Stmt → List String
  | [] => []
  | x :: rest => Stmt.names x ++ Stmt.namesOf rest

end

def Parameter.names (p : Parameter) : List String := p.name :: p.type.names

def ActionDecl.names (d : ActionDecl) : List String :=
  d.name :: (d.params.flatMap Parameter.names ++ Stmt.namesOf d.body.statements)

def ActionRef.names (r : ActionRef) : List String := r.name :: Expr.argumentNames r.args

def TableDecl.names (d : TableDecl) : List String :=
  d.name :: (d.keys.flatMap (·.expr.names) ++ (d.actions.flatMap ActionRef.names ++
    (d.defaultAction.map ActionRef.names).getD []))

def Instantiation.names (d : Instantiation) : List String :=
  d.typeName :: d.name :: Expr.argumentNames d.args

def Local.names : Local → List String
  | .variable d => d.names
  | .constant d => d.names
  | .inst d => d.names
  | .action d => d.names
  | .table d => d.names
  | .other _ _ => []

def ControlDecl.names (d : ControlDecl) : List String :=
  d.name :: (d.params.flatMap Parameter.names ++ (d.locals.flatMap Local.names ++
    Stmt.namesOf d.body.statements))

def Declaration.names : Declaration → List String
  | .struct d => d.name :: d.fields.flatMap fun f => f.name :: f.type.names
  | .typedef d => d.name :: d.type.names
  | .control d => d.names
  | .constant d => d.names
  | .inst d => d.names
  | .other _ _ => []

def Program.names (p : Program) : List String := p.declarations.flatMap Declaration.names

variable [Letters]

/-- The names are made of letters, digits and underscores and do not start with a digit. -/
def Identifiers (l : List String) : Prop := ∀ x ∈ l, IsIdentifier x

instance (l : List String) : Decidable (Identifiers l) := by
  unfold Identifiers
  infer_instance

@[simp] theorem identifiers_nil : Identifiers [] := by simp [Identifiers]

@[simp] theorem identifiers_cons :
    Identifiers (x :: l) ↔ IsIdentifier x ∧ Identifiers l := forall_mem_cons

@[simp] theorem identifiers_append :
    Identifiers (l ++ l') ↔ Identifiers l ∧ Identifiers l' := forall_mem_append

theorem identifiers_flatMap {α : Type} {f : α → List String} {l : List α} :
    Identifiers (l.flatMap f) ↔ ∀ a ∈ l, Identifiers (f a) := forall_mem_flatMap

/-! ### Types and right-hand sides -/

mutual

def Ty.Named : Ty → Prop
  | .bool => True
  | .string => True
  | .struct _ fields => Ty.NamedFields fields

def Ty.NamedFields : List (String × Ty) → Prop
  | [] => True
  | (f, ty) :: rest => IsIdentifier f ∧ Ty.Named ty ∧ Ty.NamedFields rest

end

mutual

/-- A right-hand side without guards, whose field names are identifiers. -/
def Rvalue.Plain : Rvalue → Prop
  | .bool _ | .text _ | .read _ => True
  | .field base _ => Rvalue.Plain base
  | .struct fields => Rvalue.PlainFields fields
  | .not e => Rvalue.Plain e
  | .and a b | .or a b | .equal _ a b => Rvalue.Plain a ∧ Rvalue.Plain b
  | .guard _ _ _ => False

def Rvalue.PlainFields : List (String × Rvalue) → Prop
  | [] => True
  | (f, e) :: rest => IsIdentifier f ∧ Rvalue.Plain e ∧ Rvalue.PlainFields rest

end

/-- A variable whose reported name and field names are made of identifiers. -/
structure Variable.Named (v : Variable) : Prop where
  display : IsDotted v.display
  ty : v.ty.Named

def Op.Named (P : Variable → Prop) : Op → Prop
  | .assign v _ e _ => P v ∧ e.Plain
  | .havoc v _ _ => P v
  | .assume e _ => e.Plain

/-! ### Scopes -/

def Binding.Named : Binding → Prop
  | .variable v => v.Named
  | .type ty => ∀ t, ty = some t → t.Named
  | .constant value => ∀ ty e, value = some (ty, e) → e.Plain
  | .control d => Identifiers d.names
  | .action d q => Identifiers d.names ∧ IsDotted q
  | .table d q => Identifiers d.names ∧ IsDotted q ∧ (d.actions.map ActionRef.name).Nodup
  | .inst decl => ∀ d, decl = some d → Identifiers d.names

/-- A scope whose names are identifiers and stand for such things, as are the names of its frames. -/
structure Scope.Named (s : Scope) : Prop where
  frame : ∀ f ∈ s.frames, IsIdentifier f.name
  each : s.Each fun x b => IsIdentifier x ∧ b.Named

namespace Scope.Named

variable {s : Scope} {b : Binding}

section

variable (h : s.Named)

include h

theorem find? (hx : s.find? x = some (b, home)) : b.Named ∧ home.Named := by
  obtain ⟨⟨-, hb⟩, hhome⟩ := h.each.find? hx
  obtain ⟨before, f, after, hframes, -, -, rfl⟩ := exists_of_find? hx
  exact ⟨hb, fun g hg => h.frame g (hframes ▸ mem_append_right _ hg), hhome⟩

theorem resolve (hx : s.resolve x loc = .ok b) : b.Named :=
  (h.each.resolve hx).2

theorem enter (kind : FrameKind) (hname : IsIdentifier name) : (s.enter kind name).Named :=
  ⟨forall_mem_cons.2 ⟨hname, h.frame⟩, h.each.enter kind name⟩

theorem declare (hx : IsIdentifier x) (hb : b.Named)
    (hs : s.declare x b loc = .ok s') : s'.Named := by
  refine ⟨?_, h.each.declare ⟨hx, hb⟩ hs⟩
  obtain ⟨-, rfl⟩ := declare_eq_ok hs
  exact forall_mem_cons.2 (forall_mem_cons.1 h.frame)

theorem root : s.root.Named :=
  ⟨forall_mem_singleton.2 (h.frame _ (rootFrame_mem _ _)), h.each.root⟩

theorem qualified (hx : IsIdentifier x) : IsDotted (s.qualified x) := by
  refine isDotted_join fun name hname => ?_
  rcases mem_append.1 hname with hname | hname
  · obtain ⟨f, hf, rfl⟩ := mem_map.1 (mem_reverse.1 hname)
    exact (h.frame f (mem_of_mem_filter hf)).dotted
  · obtain rfl := mem_singleton.1 hname
    exact hx.dotted

theorem resolveType {t : TypeRef} (ht : s.resolveType t = .ok ty) : ty.Named := by
  cases t with
  | bool | string => cases ht; trivial
  | named x loc =>
    obtain ⟨hx, -⟩ := resolveType_named.1 ht
    exact (h.each.lookup hx).2 _ rfl
  | other => cases ht

theorem lowerName (hr : s.lowerName x loc = .ok r) : r.Plain := by
  obtain ⟨b, hb, hr⟩ := bind_eq_ok.1 hr
  have hnamed := h.resolve hb
  split at hr
  · cases hr
    trivial
  · cases hr
    exact hnamed _ _ rfl
  · cases hr

end

mutual

theorem lower (h : s.Named) : ∀ e r, Identifiers e.names →
    s.lower e = .ok r → r.Plain
  | .bool _ _, r, _, hr | .text _ _, r, _, hr => by cases hr; trivial
  | .var x loc, r, _, hr => h.lowerName hr
  | .paren e _, r, he, hr => lower h e r he hr
  | .field e f _, r, he, hr => by
    obtain ⟨base, hbase, hr⟩ := bind_eq_ok.1 hr
    cases hr
    exact lower h e base (identifiers_cons.1 he).2 hbase
  | .struct fields _, r, he, hr => by
    obtain ⟨rs, hrs, hr⟩ := bind_eq_ok.1 hr
    cases hr
    exact lowerFields h fields rs he hrs
  | .not e _, r, he, hr => by
    obtain ⟨a, ha, hr⟩ := bind_eq_ok.1 hr
    cases hr
    exact lower h e a he ha
  | .and e e' _, r, he, hr | .or e e' _, r, he, hr => by
    obtain ⟨a, b, ha, hb, rfl⟩ := bind₂_eq_ok.1 hr
    exact ⟨lower h e a (identifiers_append.1 he).1 ha, lower h e' b (identifiers_append.1 he).2 hb⟩
  | .equal negated e e' _, r, he, hr => by
    obtain ⟨a, ha, hr⟩ := bind_eq_ok.1 hr
    obtain ⟨b, hb, hr⟩ := bind_eq_ok.1 hr
    have ha := lower h e a (identifiers_append.1 he).1 ha
    have hb := lower h e' b (identifiers_append.1 he).2 hb
    split at hr
    · cases hr
      exact ⟨hb, ha⟩
    · cases hr
      exact ⟨ha, hb⟩
  | .call _ _ _, r, _, hr | .other _ _, r, _, hr => by cases hr

theorem lowerFields (h : s.Named) : ∀ fields rs, Identifiers (Expr.fieldNames fields) →
    s.lowerFields fields = .ok rs → Rvalue.PlainFields rs
  | [], rs, _, hr => by cases hr; trivial
  | (f, e) :: rest, rs, he, hr => by
    obtain ⟨hf, he⟩ := identifiers_cons.1 he
    obtain ⟨a, as, ha, has, rfl⟩ := bind₂_eq_ok.1 hr
    exact ⟨hf, lower h e a (identifiers_append.1 he).1 ha,
      lowerFields h rest as (identifiers_append.1 he).2 has⟩

end

theorem lowerAs (h : s.Named) {e : Expr} (he : Identifiers e.names)
    (hr : s.lowerAs ty e loc = .ok r) : r.Plain := by
  obtain ⟨_, -, hr⟩ := bind_eq_ok.1 hr
  exact h.lower e r he hr

end Scope.Named

end ControlReach
