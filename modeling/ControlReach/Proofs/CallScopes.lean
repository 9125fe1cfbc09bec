import ControlReach.Proofs.CallEdges
import ControlReach.Proofs.Ownership

/-!
# Names of callables

Actions, tables and instances are declared in the frame of their control, and frames inside hold
variables and constants only. So a local name that is called stands for the local of the control.
-/

namespace ControlReach

open List

/-! ### The global frame -/

def Program.instanceNames (p : Program) : List String :=
  p.declarations.filterMap fun | .inst d => some d.name | _ => none

def Binding.IsGlobal (p : Program) (x : String) : Binding → Prop
  | .control d => d ∈ p.controls ∧ d.name = x
  | .inst (some d) => d ∈ p.controls ∧ x ∈ p.instanceNames
  | .inst none | .type _ | .constant _ => True
  | .variable _ | .action _ _ | .table _ _ => False

/-- A global scope of one frame, in which top-level names stand for top-level things. -/
structure GlobalScope.Top (p : Program) (g : GlobalScope) : Prop where
  outer : g.scope.outer = []
  kind : g.scope.inner.kind = .global
  symbols : g.scope.Each fun x b => b.IsGlobal p x

namespace GlobalScope.Top

variable {g : GlobalScope}

theorem add (h : g.Top p) {q : Declaration × Option Diagnostic} (hq : q.1 ∈ p.declarations) :
    (g.add q).Top p := by
  obtain heq | ⟨d, known, -, -, heq⟩ | ⟨d, c, hd, hc, heq⟩ := g.add_cases q
  · exact ⟨heq ▸ h.outer, heq ▸ h.kind, heq ▸ h.symbols⟩
  · exact ⟨heq ▸ h.outer, heq ▸ h.kind, heq ▸ h.symbols.update trivial⟩
  · refine ⟨heq ▸ h.outer, heq ▸ h.kind, heq ▸ h.symbols.update ⟨?_, ?_⟩⟩
    · exact (h.symbols _ mem_cons_self _ (Assoc.mem_of_lookup hc)).1
    · exact mem_filterMap.2 ⟨_, hq, by rw [hd]⟩

end GlobalScope.Top

variable {p : Program} {c : ControlDecl} {x : String} {b : Binding} {loc : Option Location}

theorem Program.mem_controls : d ∈ p.controls ↔ .control d ∈ p.declarations := by
  rw [controls, mem_filterMap]
  constructor
  · rintro ⟨d', hd', heq⟩
    rwa [← Declaration.control?_eq_some.1 heq]
  · exact fun hd => ⟨_, hd, rfl⟩

theorem Program.top_globals (p : Program) : p.globals.Top p := by
  refine List.foldlRecOn (motive := GlobalScope.Top p) _ _ ⟨rfl, rfl, ?_⟩ fun g hg q hq =>
    hg.add (Declaration.mem_of_mem_ownership hq)
  refine forall_mem_singleton.2 fun q hq => ?_
  obtain ⟨d, hd, hbinding⟩ := mem_filterMap.1 hq
  have hmem := Declaration.mem_of_mem_ownership (Program.mem_owned.1 hd)
  cases d with
  | control d =>
    cases hbinding
    exact ⟨Program.mem_controls.2 hmem, rfl⟩
  | struct | typedef | constant | inst =>
    cases hbinding
    trivial
  | other => cases hbinding

/-! ### The frame of a control -/

def Binding.IsData : Binding → Prop
  | .variable _ | .constant _ => True
  | _ => False

def ControlDecl.label (c : ControlDecl) (x : String) : String :=
  if c.name = "" then x else c.nodeName x

/-- What the name of a local stands for in the frame of its control. -/
def Local.Binds (p : Program) (c : ControlDecl) (l : Local) (x : String) (b : Binding) : Prop :=
  match l with
  | .variable d => x = d.name ∧ b.IsData
  | .constant d => x = d.name ∧ b.IsData
  | .action d => x = d.name ∧ b = .action d (c.label d.name)
  | .table d => x = d.name ∧ b = .table d (c.label d.name)
  | .inst d => x = d.name ∧ ∃ d' ∈ p.controls, d'.name = d.typeName ∧ b = .inst (some d')
  | .other _ _ => False

variable {l : Local}

theorem Local.Binds.name_unique (h : l.Binds p c x b) (h' : l.Binds p c y b') : x = y := by
  cases l with
  | other => exact h.elim
  | _ => exact h.1.trans h'.1.symm

theorem Local.Targets.name (h : l.Targets controls c x n) (y : String) (b : Binding)
    (hb : l.Binds p c y b) : y = x := by
  cases h <;> exact hb.1

/-- The frame of a control in which some of its locals have been declared. -/
structure Frame.Holds (p : Program) (c : ControlDecl) (locals : List Local) (f : Frame) : Prop where
  kind : f.kind = .control
  name : f.name = c.name
  nodup : (f.symbols.map Prod.fst).Nodup
  declared : ∀ l ∈ locals, ∃ q ∈ f.symbols, l.Binds p c q.1 q.2
  bound : ∀ q ∈ f.symbols, (q.2.IsData ∧ q.1 ∈ c.params.map Parameter.name) ∨
    ∃ l ∈ locals, l.Binds p c q.1 q.2

namespace Frame.Holds

variable {c : ControlDecl} {f : Frame} {b : Binding}

section

variable (h : f.Holds p c locals) (hx : x ∉ f.symbols.map Prod.fst)

include h hx

theorem declare (hsub : locals ⊆ locals')
    (hnew : (b.IsData ∧ x ∈ c.params.map Parameter.name) ∨ ∃ l ∈ locals', l.Binds p c x b)
    (hall : ∀ l ∈ locals', l ∈ locals ∨ l.Binds p c x b) :
    Frame.Holds p c locals' { f with symbols := f.symbols ++ [(x, b)] } where
  kind := h.kind
  name := h.name
  nodup := by
    rw [map_append, map_singleton, ← concat_eq_append]
    exact h.nodup.concat hx
  declared := by
    intro l hl
    obtain hl | hl := hall l hl
    · obtain ⟨q, hq, hbinds⟩ := h.declared l hl
      exact ⟨q, mem_append_left _ hq, hbinds⟩
    · exact ⟨(x, b), mem_append_right _ mem_cons_self, hl⟩
  bound := by
    intro q hq
    obtain hq | hq := mem_append.1 hq
    · exact (h.bound q hq).imp_right fun ⟨l, hl, hbinds⟩ => ⟨l, hsub hl, hbinds⟩
    · obtain rfl := mem_singleton.1 hq
      exact hnew

theorem declare_data (hb : b.IsData) (hparam : x ∈ c.params.map Parameter.name) :
    Frame.Holds p c locals { f with symbols := f.symbols ++ [(x, b)] } :=
  h.declare hx (List.Subset.refl _) (.inl ⟨hb, hparam⟩) fun _ => .inl

theorem declare_local (hl : l.Binds p c x b) :
    Frame.Holds p c (locals ++ [l]) { f with symbols := f.symbols ++ [(x, b)] } := by
  refine h.declare hx (subset_append_left _ _) (.inr ⟨l, by simp, hl⟩) fun l' hl' => ?_
  obtain hl' | hl' := mem_append.1 hl'
  · exact .inl hl'
  · rw [mem_singleton.1 hl']
    exact .inr hl

end

theorem binds (h : f.Holds p c locals) (hb : (x, b) ∈ f.symbols) (hl : l ∈ locals)
    (hx : ∀ y b', l.Binds p c y b' → y = x) : l.Binds p c x b := by
  obtain ⟨⟨y, b'⟩, hmem, hbinds⟩ := h.declared l hl
  obtain rfl := hx y b' hbinds
  rwa [show b = b' from congrArg Prod.snd (inj_on_of_nodup_map h.nodup hb hmem rfl)]

end Frame.Holds

/-! ### Scopes inside a control -/

/-- The scope of a control in which some of its locals have been declared. -/
structure Scope.Opens (p : Program) (c : ControlDecl) (locals : List Local) (s : Scope) : Prop where
  control : c ∈ p.controls
  holds : s.inner.Holds p c locals
  outer : s.outer = [p.globals.scope.inner]

/-- The scope of a control. -/
abbrev Scope.Home (p : Program) (c : ControlDecl) (s : Scope) : Prop := s.Opens p c c.locals

/-- A scope inside a control, whose inner frames hold variables and constants. -/
structure Scope.Within (p : Program) (c : ControlDecl) (s : Scope) : Prop where
  control : c ∈ p.controls
  frames : ∃ inside f, s.frames = inside ++ [f, p.globals.scope.inner] ∧
    (∀ f' ∈ inside, ∀ q ∈ f'.symbols, q.2.IsData) ∧ f.Holds p c c.locals

/-- A scope inside a control that has a frame of its own. -/
structure Scope.Inside (p : Program) (c : ControlDecl) (s : Scope) : Prop extends s.Within p c where
  inner : s.inner.kind ≠ .control

namespace Scope

variable {p : Program} {c : ControlDecl} {s : Scope}

theorem Opens.declare_data (h : s.Opens p c locals) (hs : s.declare x b loc = .ok s')
    (hb : b.IsData) (hparam : x ∈ c.params.map Parameter.name) : s'.Opens p c locals := by
  obtain ⟨hx, rfl⟩ := declare_eq_ok hs
  exact ⟨h.control, h.holds.declare_data hx hb hparam, h.outer⟩

theorem Opens.declare_local (h : s.Opens p c locals) (hs : s.declare x b loc = .ok s')
    (hl : l.Binds p c x b) : s'.Opens p c (locals ++ [l]) := by
  obtain ⟨hx, rfl⟩ := declare_eq_ok hs
  exact ⟨h.control, h.holds.declare_local hx hl, h.outer⟩

theorem Home.within (h : s.Home p c) : s.Within p c :=
  ⟨h.control, [], s.inner, congrArg (s.inner :: ·) h.outer, nofun, h.holds⟩

namespace Within

theorem enter (h : s.Within p c) (hkind : kind ≠ .control) : (s.enter kind name).Inside p c := by
  obtain ⟨hc, inside, f, hframes, hdata, hholds⟩ := h
  refine ⟨⟨hc, Frame.empty kind name :: inside, f, congrArg _ hframes, ?_, hholds⟩, hkind⟩
  exact forall_mem_cons.2 ⟨nofun, hdata⟩

theorem root (h : s.Within p c) : s.root.frames = [p.globals.scope.inner] := by
  have hroot : ∀ (inside : List Frame) (inner f g : Frame) (outer : List Frame),
      inner :: outer = inside ++ [f, g] → rootFrame inner outer = g := by
    intro inside
    induction inside with
    | nil =>
      intro inner f g outer h
      cases h
      rfl
    | cons f' inside ih =>
      intro inner f g outer h
      obtain ⟨rfl, rfl⟩ := cons_eq_cons.1 h
      cases inside with
      | nil => rfl
      | cons f'' inside => exact ih f'' f g _ rfl
  obtain ⟨-, inside, f, hframes, -⟩ := h
  exact congrArg (fun g => [g]) (hroot inside s.inner f _ s.outer hframes)

end Within

theorem Inside.declare (h : s.Inside p c) (hs : s.declare x b loc = .ok s') (hb : b.IsData) :
    s'.Inside p c := by
  obtain ⟨-, rfl⟩ := declare_eq_ok hs
  obtain ⟨⟨hc, inside, f, hframes, hdata, hholds⟩, hkind⟩ := h
  cases inside with
  | nil =>
    obtain ⟨hinner, -⟩ := cons_eq_cons.1 hframes
    exact absurd (hinner ▸ hholds.kind) hkind
  | cons g inside =>
    obtain ⟨rfl, houter⟩ := cons_eq_cons.1 hframes
    obtain ⟨hfirst, hdata⟩ := forall_mem_cons.1 hdata
    refine ⟨⟨hc, _ :: inside, f, congrArg (_ :: ·) houter,
      forall_mem_cons.2 ⟨?_, hdata⟩, hholds⟩, hkind⟩
    intro q hq
    obtain hq | hq := mem_append.1 hq
    · exact hfirst q hq
    · rw [mem_singleton.1 hq]
      exact hb

/-! ### Finding a name -/

/-- A name in the frame of a control or outside it is looked up in these two frames. -/
theorem Opens.find?_cases (h : s.Opens p c locals) (hx : s.find? x = some (b, home)) :
    (x, b) ∈ s.inner.symbols ∨ b.IsGlobal p x := by
  obtain ⟨before, f, after, hframes, hmem, -⟩ := exists_of_find? hx
  have hf : f ∈ s.frames := hframes ▸ mem_append_right _ mem_cons_self
  rw [frames, h.outer, mem_cons, mem_singleton] at hf
  obtain rfl | rfl := hf
  · exact .inl hmem
  · exact .inr (p.top_globals.symbols _ mem_cons_self _ hmem)

/-- A name inside a control is a variable or constant, or a local, or something of the top level. -/
theorem Within.find?_cases (h : s.Within p c) (hx : s.find? x = some (b, home)) :
    b.IsData ∨ home.Home p c ∧ (x, b) ∈ home.inner.symbols ∨
      b.IsGlobal p x ∧ ∀ l ∈ c.locals, ∀ b', ¬ l.Binds p c x b' := by
  obtain ⟨hc, inside, f, hframes, hdata, hholds⟩ := h
  obtain ⟨before, f', after, hsplit, hmem, hbefore, rfl⟩ := exists_of_find? hx
  rw [hframes, append_eq_append_iff] at hsplit
  -- The frame of the name is one of those inside, that of the control, or the last.
  obtain ⟨rest, hrest, hafter⟩ | ⟨rest, hrest, hafter⟩ := hsplit
  · match rest, hafter with
    | [], hafter =>
      cases hafter
      exact .inr (.inl ⟨⟨hc, hholds, rfl⟩, hmem⟩)
    | [g], hafter =>
      cases hafter
      refine .inr (.inr ⟨p.top_globals.symbols _ mem_cons_self _ hmem, fun l hl b' hbinds => ?_⟩)
      obtain ⟨⟨y, b''⟩, hy, hbinds'⟩ := hholds.declared l hl
      have hnot := hbefore f (hrest ▸ mem_append_right _ mem_cons_self)
      rw [hbinds.name_unique hbinds'] at hnot
      exact hnot (mem_map_of_mem hy)
    | _ :: _ :: rest, hafter =>
      have hlength := congrArg List.length hafter
      simp at hlength
  · cases rest with
    | nil =>
      cases hafter
      exact .inr (.inl ⟨⟨hc, hholds, rfl⟩, hmem⟩)
    | cons g rest =>
      cases hafter
      exact .inl (hdata _ (hrest ▸ mem_append_right _ mem_cons_self) _ hmem)

theorem Within.target (h : s.Within p c) (hx : s.find? x = some (b, home)) (hb : ¬ b.IsData)
    (hn : (c.callTargets (p.controls.map ControlDecl.name)).lookup x = some n) :
    home.Home p c ∧ ∃ l ∈ c.locals,
      l.Targets (p.controls.map ControlDecl.name) c x n ∧ l.Binds p c x b := by
  obtain ⟨l, hl, htarget⟩ := ControlDecl.exists_of_callTargets hn
  obtain hdata | ⟨hhome, hmem⟩ | ⟨-, hnone⟩ := h.find?_cases hx
  · exact absurd hdata hb
  · exact ⟨hhome, l, hl, htarget, hhome.holds.binds hmem hl htarget.name⟩
  · obtain ⟨-, inside, f, -, -, hholds⟩ := h
    obtain ⟨⟨y, b'⟩, -, hbinds⟩ := hholds.declared l hl
    rw [htarget.name y b' hbinds] at hbinds
    exact absurd hbinds (hnone l hl b')

theorem opens_enter (hd : d ∈ p.controls) (hs : s.frames = [p.globals.scope.inner]) :
    (s.enter .control d.name).Opens p d [] where
  control := hd
  holds := ⟨rfl, rfl, nodup_nil, nofun, nofun⟩
  outer := hs

theorem Within.lookup_isSome (h : s.Within p c)
    (hn : (c.callTargets (p.controls.map ControlDecl.name)).lookup x = some n) :
    (s.lookup x).isSome := by
  obtain ⟨l, hl, htarget⟩ := ControlDecl.exists_of_callTargets hn
  obtain ⟨-, inside, f, hframes, -, hholds⟩ := h
  obtain ⟨⟨y, b⟩, hmem, hbinds⟩ := hholds.declared l hl
  obtain rfl := htarget.name y b hbinds
  rw [lookup, Option.isSome_map, Option.isSome_iff_ne_none]
  intro hnone
  refine not_mem_of_find?_eq_none hnone f ?_ (mem_map_of_mem hmem)
  rw [hframes]
  exact mem_append_right _ mem_cons_self

/-! ### Scopes of an elaboration -/

theorem qualified_eq_label (houter : s.outer = [f]) (hf : f.kind = .global)
    (hkind : s.inner.kind = .control) (hname : s.inner.name = c.name) (x : String) :
    s.qualified x = c.label x := by
  rw [Scope.qualified, frames, houter, ControlDecl.label]
  simp only [filter_cons, filter_nil, hf, hkind, hname, FrameKind.isCallable]
  by_cases hempty : c.name = "" <;> simp [hempty, Text.join, ControlDecl.nodeName, hname]

theorem Opens.qualified (h : s.Opens p c locals) (x : String) : s.qualified x = c.label x :=
  qualified_eq_label h.outer p.top_globals.kind h.holds.kind h.holds.name x

end Scope

namespace Elaborate

variable {p : Program} {c : ControlDecl}

theorem DeclaresVariable.exists_declare (h : DeclaresVariable ctx s d n a s' m) :
    ∃ v, s.declare d.name (.variable v) d.loc = .ok s' := by
  cases h with
  | initial _ _ _ hs | arbitrary _ _ hs => exact ⟨_, hs⟩

theorem DeclaresVariable.inside (h : DeclaresVariable ctx s d n a s' m) (hs : s.Inside p c) :
    s'.Inside p c := by
  obtain ⟨v, hs'⟩ := h.exists_declare
  exact hs.declare hs' trivial

theorem DeclaresConstant.inside {d : ConstantDecl} (h : DeclaresConstant s d s')
    (hs : s.Inside p c) : s'.Inside p c := by
  obtain ⟨-, -, hs'⟩ := h
  exact hs.declare hs' trivial

theorem FillsFormals.inside (h : FillsFormals loc s formals i a s' j) (hs : s.Inside p c) :
    s'.Inside p c :=
  h.keeps (fun _ _ _ _ hdeclare hs => hs.declare hdeclare trivial) hs

theorem FillsFormals.opens (h : FillsFormals loc s formals i a s' j)
    (hparams : formals.map Formal.param ⊆ c.params) (hs : s.Opens p c locals) :
    s'.Opens p c locals :=
  h.keeps (fun _ hf _ _ hdeclare hs => hs.declare_data hdeclare trivial
    (mem_map_of_mem (hparams (mem_map_of_mem hf)))) hs

theorem BindsInputs.opens (h : BindsInputs s params n a s' m) (hparams : params ⊆ c.params)
    (hs : s.Opens p c locals) : s'.Opens p c locals := by
  induction h with
  | nil => exact hs
  | cons _ hdeclare _ ih =>
    obtain ⟨hfirst, hparams⟩ := cons_subset.1 hparams
    exact ih hparams (hs.declare_data hdeclare trivial (mem_map_of_mem hfirst))

theorem opens_of_fills {d : ControlDecl} {caller : Scope} (hd : d ∈ p.controls)
    (hcaller : caller.Within p c)
    (hbound : bindArguments d.params args callee loc .none = .ok bound)
    (hformals : BindsFormals ctx caller.root caller loc uid bound formals)
    (hfill : FillsFormals loc (caller.root.enter .control d.name) formals i a s j) :
    s.Opens p d [] := by
  refine hfill.opens ?_ (Scope.opens_enter hd hcaller.root)
  rw [hformals.params, bindArguments_params hbound]
  exact List.Subset.refl _

theorem opens_of_inputs {d : ControlDecl} (hd : d ∈ p.controls)
    (h : BindsInputs (p.globals.scope.enter .control d.name) d.params n a s m) : s.Opens p d [] :=
  h.opens (List.Subset.refl _) (Scope.opens_enter hd (congrArg (_ :: ·) p.top_globals.outer))

theorem opens_of_declareInstance {d : Instantiation} (h : declareInstance s d = .ok s')
    (hs : s.Opens p c locals) : s'.Opens p c (locals ++ [.inst d]) := by
  obtain ⟨d', hb, h⟩ := declareInstance_eq_ok h
  obtain ⟨⟨_, home⟩, hfind, rfl⟩ := map_eq_ok.1 hb
  obtain hmem | ⟨hd', hname⟩ := hs.find?_cases (Scope.find?_of_resolveWith hfind)
  · -- No name in the frame of a control stands for a control.
    obtain hdata | ⟨l, -, hl⟩ := hs.holds.bound _ hmem
    · exact hdata.1.elim
    · cases l <;> simp [Local.Binds, Binding.IsData] at hl
  · exact hs.declare_local h ⟨rfl, d', hd', hname, rfl⟩

theorem DeclaresName.opens (h : DeclaresName s l s') (hs : s.Opens p c locals) :
    s'.Opens p c (locals ++ [l]) := by
  cases h with
  | constant hd =>
    obtain ⟨-, -, hs'⟩ := hd
    exact hs.declare_local hs' ⟨rfl, trivial⟩
  | action hs' | table hs' _ => exact hs.declare_local hs' ⟨rfl, by rw [hs.qualified]⟩
  | inst hs' => exact opens_of_declareInstance hs' hs

theorem DeclaresLocals.opens {l : List Local} (h : DeclaresLocals ctx s l n a s' m)
    (hs : s.Opens p c locals) : s'.Opens p c (locals ++ l) := by
  induction h generalizing locals with
  | nil => rwa [append_nil]
  | declare hd _ ih =>
    obtain ⟨v, hs'⟩ := hd.exists_declare
    have hnext := ih (hs.declare_local hs' (l := .variable _) ⟨rfl, trivial⟩)
    rwa [append_assoc] at hnext
  | name hd _ ih =>
    have hnext := ih (hd.opens hs)
    rwa [append_assoc] at hnext

end Elaborate

/-! ### What is called -/

/-- An action of a control, with the scope of the control. -/
structure PendingAction.Of (p : Program) (c : ControlDecl) (a : PendingAction) : Prop where
  home : a.home.Home p c
  declared : .action a.decl ∈ c.locals
  qualified : a.qualified = c.label a.decl.name

namespace Scope

variable {s : Scope}

theorem Home.action (h : s.Home p c) (hx : (x, .action d q) ∈ s.inner.symbols) :
    PendingAction.Of p c ⟨d, q, s⟩ := by
  obtain hdata | ⟨l, hl, hbinds⟩ := h.holds.bound _ hx
  · exact hdata.1.elim
  · cases l <;> simp [Local.Binds, Binding.IsData] at hbinds
    obtain ⟨rfl, rfl, rfl⟩ := hbinds
    exact ⟨h, hl, rfl⟩

theorem Within.local_or_global (h : s.Within p c) (hx : s.find? x = some (b, home))
    (hb : ¬ b.IsData) :
    (home.Home p c ∧ (x, b) ∈ home.inner.symbols ∧ ∃ l ∈ c.locals, l.Binds p c x b) ∨
      b.IsGlobal p x ∧ ∀ l ∈ c.locals, ∀ b', ¬ l.Binds p c x b' := by
  obtain hdata | ⟨hhome, hmem⟩ | hglobal := h.find?_cases hx
  · exact absurd hdata hb
  · exact .inl ⟨hhome, hmem, (hhome.holds.bound _ hmem).resolve_left fun h => hb h.1⟩
  · exact .inr hglobal

theorem Within.action (h : s.Within p c) (hx : s.find? x = some (.action d q, home)) :
    PendingAction.Of p c ⟨d, q, home⟩ := by
  obtain ⟨hhome, hmem, -⟩ | ⟨hglobal, -⟩ := h.local_or_global hx id
  · exact hhome.action hmem
  · exact hglobal.elim

theorem Within.table (h : s.Within p c) {d : TableDecl}
    (hx : s.find? x = some (.table d q, home)) : home.Home p c ∧ .table d ∈ c.locals := by
  obtain ⟨hhome, -, l, hl, hbinds⟩ | ⟨hglobal, -⟩ := h.local_or_global hx id
  · cases l <;> simp [Local.Binds, Binding.IsData] at hbinds
    obtain ⟨rfl, rfl, rfl⟩ := hbinds
    exact ⟨hhome, hl⟩
  · exact hglobal.elim

theorem Within.instance (h : s.Within p c) {d : ControlDecl}
    (hx : s.find? x = some (.inst (some d), home)) : d ∈ p.controls := by
  obtain ⟨-, -, l, -, hbinds⟩ | ⟨hglobal, -⟩ := h.local_or_global hx id
  · cases l <;> simp [Local.Binds, Binding.IsData] at hbinds
    exact hbinds.2.1
  · exact hglobal.1

end Scope

end ControlReach
