import ControlReach.Proofs.GlobalNaming
import ControlReach.Proofs.Numbering

/-!
# The names in what is elaborated

If the identifiers of a program are well-formed, variables are reported under identifiers joined by
dots, no two have one number, and the guards of edges belong to labels of table sites.
-/

namespace ControlReach

open List

/-! ### Arguments -/

variable {home : Scope} {x : String} {args : List Argument} {d : TableDecl}

namespace Elaborate

theorem mem_of_mem_positional {pairs : List (Parameter × Argument)}
    (h : (x, a) ∈ pairs.foldl (fun bound p => Assoc.set p.1.name p.2 bound) ([] : Bound)) :
    a ∈ pairs.map Prod.snd := by
  have hall : ∀ q ∈ pairs.foldl (fun bound p => Assoc.set p.1.name p.2 bound) ([] : Bound),
      q.2 ∈ pairs.map Prod.snd := by
    refine foldlRecOn (motive := fun bound : Bound => ∀ q ∈ bound, q.2 ∈ pairs.map Prod.snd)
      pairs _ (by simp) fun bound hbound p hp q hq => ?_
    rcases Assoc.mem_of_mem_set hq with hq | rfl
    · exact hbound q hq
    · exact mem_map_of_mem hp
  exact hall _ h

theorem mem_of_mem_bindArguments (h : bindArguments params args callee loc unbound = .ok bound) :
    ∀ q ∈ bound, q.1 ∈ params ∧ ∀ a, q.2 = some a → a ∈ args := by
  obtain ⟨-, -, rfl⟩ := bindArguments_eq_ok h
  intro q hq
  obtain ⟨p, hp, rfl⟩ := mem_map.1 hq
  refine ⟨hp, fun a ha => ?_⟩
  rcases mem_append.1 (Assoc.mem_of_lookup ha) with h | h
  · obtain ⟨⟨p', a'⟩, hzip, rfl⟩ := mem_map.1 (mem_of_mem_positional h)
    exact mem_of_mem_filter (of_mem_zip hzip).2
  · obtain ⟨a', ha', heq⟩ := mem_filterMap.1 h
    obtain ⟨x, -, heq⟩ := Option.map_eq_some_iff.1 heq
    cases heq
    exact ha'

theorem nodup_of_checkActions (h : checkActions s table seen refs = .ok ()) :
    (refs.map ActionRef.name).Nodup ∧ ∀ r ∈ refs, r.name ∉ seen := by
  induction refs generalizing seen with
  | nil => simp
  | cons r rest ih =>
    rw [checkActions] at h
    split at h
    · cases h
    · rename_i hseen
      obtain ⟨_, -, h⟩ := bind_eq_ok.1 h
      obtain ⟨hnodup, hrest⟩ := ih h
      refine ⟨?_, forall_mem_cons.2 ⟨hseen, fun r' hr' hmem =>
        hrest r' hr' (mem_cons_of_mem _ hmem)⟩⟩
      rw [map_cons, nodup_cons]
      refine ⟨fun hmem => ?_, hnodup⟩
      obtain ⟨r', hr', heq⟩ := mem_map.1 hmem
      exact hrest r' hr' (heq ▸ mem_cons_self)

/-! ### Jobs -/

def Output.conditions : Output → List Rvalue
  | .plan a => a.conditions
  | .arms a => a.conditions

def Job.After (P : Scope → Prop) : Job → Prop
  | .statement _ _ _ s' => P s'
  | _ => True

end Elaborate

/-! ### Elaboration -/

variable [Letters]

def Context.Named (ctx : Context) : Prop := ∀ q ∈ ctx.stack, IsDotted q

/-- An application of a table has distinct labels, which are the names of actions. -/
structure TableSite.Named (s : TableSite) : Prop where
  table : IsDotted s.table
  nodup : s.labels.Nodup
  label : ∀ l ∈ s.labels, l = TableSite.miss ∨ IsIdentifier l

/-- An error location of a control, with the variables in scope at it. -/
structure Target.Named (control : String) (t : Target) : Prop where
  control : t.control = control
  nodup : (t.observed.map Prod.fst).Nodup
  observed : ∀ q ∈ t.observed, IsIdentifier q.1 ∧ q.2.Named

namespace Elaborate

/-- Operations, conditions, sites and error locations with well-formed names. -/
structure Named (control : String) (ops : List Op) (conditions : List Rvalue)
    (sites : List TableSite) (targets : List Target) : Prop where
  op : ∀ op ∈ ops, op.Named Variable.Named
  condition : ∀ e ∈ conditions, e.Plain
  site : ∀ s ∈ sites, s.Named
  target : ∀ t ∈ targets, t.Named control

namespace Named

variable {control : String}

theorem nil (control : String) : Named control [] [] [] [] :=
  ⟨by simp, by simp, by simp, by simp⟩

theorem append (h : Named control ops conditions sites targets)
    (h' : Named control ops' conditions' sites' targets') :
    Named control (ops ++ ops') (conditions ++ conditions') (sites ++ sites')
      (targets ++ targets') :=
  ⟨forall_mem_append.2 ⟨h.op, h'.op⟩, forall_mem_append.2 ⟨h.condition, h'.condition⟩,
    forall_mem_append.2 ⟨h.site, h'.site⟩, forall_mem_append.2 ⟨h.target, h'.target⟩⟩

theorem raised {ctx : Context} {s : Scope} (hs : s.Named) {index : Nat} {kind : AssertionKind}
    {condition : Option Expr} {loc : Option Location} (h : ∀ e ∈ conditions, e.Plain) :
    Named ctx.control [] conditions [] [errorLocation ctx s index kind condition loc] :=
  ⟨by simp, h, by simp, forall_mem_singleton.2 ⟨rfl, s.nodup_visible, fun _ hq => hs.each.visible hq⟩⟩

theorem single {op : Op} (h : op.Named Variable.Named) (control : String) :
    Named control [op] [] [] [] := ⟨by simpa using h, by simp, by simp, by simp⟩

end Named

/-- A plan with well-formed names. -/
abbrev PlanNamed (control : String) (a : Plan) : Prop :=
  Named control a.ops a.conditions a.sites a.targets

/-! ### Arguments -/

variable {loc : Option Location} {e : Expr} {c c' : Counters} {f : Formal} {depth : Nat}
  {formals : List Formal} {guard : Rvalue}

theorem identifiers_of_mem_arguments (h : Identifiers (Expr.argumentNames args)) {x : Option String}
    (he : .given e x loc ∈ args) : Identifiers e.names := by
  induction args with
  | nil => cases he
  | cons a rest ih =>
    rcases mem_cons.1 he with rfl | hrest
    · exact (identifiers_append.1 (identifiers_append.1 h).1).2
    · cases a <;> exact ih (identifiers_append.1 h).2 hrest

/-! ### Declarations -/

variable {ctx : Context} {s s' : Scope} {loc : Option Location}

theorem isDotted_display (hctx : ctx.Named) (hx : IsIdentifier x) :
    IsDotted (if ctx.display x = "" then x else ctx.display x) := by
  split
  · exact hx.dotted
  · rw [Context.display]
    split
    · rename_i q hq
      exact ((hctx q (mem_of_getLast? hq)).append isDotted_dot).append hx.dotted
    · exact hx.dotted

theorem named_inside (hctx : ctx.Named) (hq : IsDotted q) : (inside ctx q).Named :=
  forall_mem_append.2 ⟨hctx, by simpa using hq⟩

variable {a : Plan} {caller : Scope}

theorem DeclaresVariable.named {d : VariableDecl} (h : DeclaresVariable ctx s d c a s' c')
    (hctx : ctx.Named) (hs : s.Named) (hd : Identifiers d.names) (control : String) :
    s'.Named ∧ PlanNamed control a := by
  obtain ⟨hname, hd⟩ := identifiers_cons.1 hd
  have hdisplay := isDotted_display hctx hname
  cases h with
  | initial hty hinitial hvalue hdeclare =>
    have hv : (localVariable ctx c.uid d _).Named := ⟨hdisplay, hs.resolveType hty⟩
    rw [hinitial] at hd
    refine ⟨hs.declare (b := .variable _) hname hv hdeclare, .single ?_ control⟩
    exact ⟨hv, hs.lowerAs (identifiers_append.1 hd).2 hvalue⟩
  | arbitrary hty _ hdeclare =>
    have hv : (localVariable ctx c.uid d _).Named := ⟨hdisplay, hs.resolveType hty⟩
    exact ⟨hs.declare (b := .variable _) hname hv hdeclare, .single (by exact hv) control⟩

theorem DeclaresConstant.named {d : ConstantDecl} (h : DeclaresConstant s d s')
    (hs : s.Named) (hd : Identifiers d.names) : s'.Named := by
  cases h with
  | mk _ hvalue hdeclare =>
    refine hs.declare (identifiers_cons.1 hd).1 ?_ hdeclare
    rintro ty e ⟨⟩
    exact hs.lowerAs (identifiers_append.1 (identifiers_cons.1 hd).2).2 hvalue

theorem DeclaresName.named {x : Local} (h : DeclaresName s x s') (hs : s.Named)
    (hx : Identifiers x.names) : s'.Named := by
  cases h with
  | constant hd => exact hd.named hs hx
  | action hdeclare =>
    refine hs.declare (identifiers_cons.1 hx).1 ?_ hdeclare
    exact ⟨hx, hs.qualified (identifiers_cons.1 hx).1⟩
  | table hdeclare hcheck =>
    obtain ⟨_, -, hcheck⟩ := bind_eq_ok.1 hcheck
    obtain ⟨_, hactions, -⟩ := bind_eq_ok.1 hcheck
    refine hs.declare (identifiers_cons.1 hx).1 ?_ hdeclare
    exact ⟨hx, hs.qualified (identifiers_cons.1 hx).1, (nodup_of_checkActions hactions).1⟩
  | inst hdeclare =>
    obtain ⟨control, hb, h⟩ := declareInstance_eq_ok hdeclare
    refine hs.declare (hx _ (by simp [Local.names, Instantiation.names])) ?_ h
    rintro d ⟨⟩
    exact hs.resolve hb

theorem DeclaresLocals.named {l : List Local} (h : DeclaresLocals ctx s l c a s' c')
    (hctx : ctx.Named) (hs : s.Named) (hl : Identifiers (l.flatMap Local.names))
    (control : String) : s'.Named ∧ PlanNamed control a := by
  induction h with
  | nil => exact ⟨hs, .nil _⟩
  | declare hd _ ih =>
    obtain ⟨hx, hl⟩ := identifiers_append.1 hl
    obtain ⟨hs, ha⟩ := hd.named hctx hs hx control
    exact (ih hs hl).imp_right ha.append
  | name hx _ ih =>
    obtain ⟨hnames, hl⟩ := identifiers_append.1 hl
    exact ih (hx.named hs hnames) hl

/-! ### Parameters -/

/-- A formal whose variable is known, as are those of its copies. -/
structure Formal.Named (f : Formal) : Prop where
  name : IsIdentifier f.param.name
  v : f.v.Named
  copyIn : ∀ op, f.copyIn = some op → op.Named Variable.Named
  copyOut : ∀ v path, f.copyOut = some (v, path) → v.Named

theorem named_of_place (hs : s.Named) (h : s.place e = .ok (v, path, ty)) : v.Named := by
  obtain ⟨x, xloc, -, hx, -⟩ := Scope.place_eq_ok h
  exact hs.resolve hx

theorem BindsFormal.named {q : Parameter × Option Argument}
    (h : BindsFormal ctx home caller loc uid q f) (hctx : ctx.Named) (hhome : home.Named)
    (hcaller : caller.Named) (hp : IsIdentifier q.1.name)
    (harg : ∀ e x l, q.2 = some (.given e x l) → Identifiers e.names) : f.Named := by
  have hv : f.v.Named := by
    cases h with
    | input hty | inout hty | output hty | arbitrary hty =>
      exact ⟨isDotted_display hctx hp, hhome.resolveType hty⟩
  cases h with
  | input _ _ hvalue =>
    refine ⟨hp, hv, ?_, nofun⟩
    rintro _ ⟨⟩
    exact ⟨hv, hcaller.lowerAs (harg _ _ _ rfl) hvalue⟩
  | inout _ _ hplace _ hvalue =>
    refine ⟨hp, hv, ?_, ?_⟩
    · rintro _ ⟨⟩
      exact ⟨hv, hcaller.lower _ _ (harg _ _ _ rfl) hvalue⟩
    · rintro _ _ ⟨⟩
      exact named_of_place hcaller hplace
  | output _ _ hplace =>
    refine ⟨hp, hv, nofun, ?_⟩
    rintro _ _ ⟨⟩
    exact named_of_place hcaller hplace
  | arbitrary => exact ⟨hp, hv, nofun, nofun⟩

theorem BindsFormals.named (h : BindsFormals ctx home caller loc uid bound formals)
    (hctx : ctx.Named) (hhome : home.Named) (hcaller : caller.Named)
    (hbound : ∀ q ∈ bound, IsIdentifier q.1.name ∧
      ∀ e x l, q.2 = some (.given e x l) → Identifiers e.names) : ∀ f ∈ formals, f.Named := by
  induction h with
  | nil => simp
  | cons hf _ ih =>
    obtain ⟨hx, hrest⟩ := forall_mem_cons.1 hbound
    exact forall_mem_cons.2 ⟨hf.named hctx hhome hcaller hx.1 hx.2, ih hrest⟩

theorem FillsFormals.named (h : FillsFormals loc s formals n a s' n') (hs : s.Named)
    (hf : ∀ f ∈ formals, f.Named) (control : String) : s'.Named ∧ PlanNamed control a := by
  induction h with
  | nil => exact ⟨hs, .nil _⟩
  | copy hcopy hdeclare _ ih =>
    obtain ⟨hhere, hf⟩ := forall_mem_cons.1 hf
    have hop := Named.single (hhere.copyIn _ hcopy) control
    exact (ih (hs.declare (b := .variable _) hhere.name hhere.v hdeclare) hf).imp_right hop.append
  | arbitrary _ hdeclare _ ih =>
    obtain ⟨hhere, hf⟩ := forall_mem_cons.1 hf
    exact (ih (hs.declare (b := .variable _) hhere.name hhere.v hdeclare) hf).imp_right
      (Named.append (.single (by exact hhere.v) control))

theorem named_backPlan (hf : ∀ f ∈ formals, f.Named) (control : String) :
    PlanNamed control (backPlan loc formals) := by
  induction formals with
  | nil => exact .nil _
  | cons f formals ih =>
    obtain ⟨hhere, hf⟩ := forall_mem_cons.1 hf
    rw [backPlan]
    split
    · rename_i v path hout
      refine Named.append (.single ?_ control) (ih hf)
      exact ⟨hhere.copyOut v path hout, trivial⟩
    · exact ih hf

/-! ### Statements and calls -/

def Job.Named : Job → Prop
  | .statements ctx s l => ctx.Named ∧ s.Named ∧ Identifiers (Stmt.namesOf l)
  | .statement ctx s x _ => ctx.Named ∧ s.Named ∧ Identifiers x.names
  | .action ctx a args caller _ _ => ctx.Named ∧ a.home.Named ∧ caller.Named ∧
      IsDotted a.qualified ∧ Identifiers a.decl.names ∧ Identifiers (Expr.argumentNames args)
  | .control ctx d args caller _ => ctx.Named ∧ caller.Named ∧ Identifiers d.names ∧
      Identifiers (Expr.argumentNames args)
  | .arms ctx table home _ refs => ctx.Named ∧ home.Named ∧ Identifiers table.names ∧
      Identifiers (refs.flatMap ActionRef.names)

theorem named_assertionGuard (hs : s.Named) {kind : AssertionKind} {callLoc : Option Location}
    (hargs : Identifiers (Expr.argumentNames args))
    (he : assertionCondition kind args callLoc = .ok (some e))
    (hguard : assertionGuard s kind e loc = .ok guard) : guard.Plain := by
  obtain ⟨-, ⟨⟩⟩ | ⟨-, _, name, argLoc, ⟨⟩, rfl⟩ := assertionCondition_eq_ok he
  exact hs.lower e guard (identifiers_of_mem_arguments hargs mem_cons_self)
    (assertionGuard_eq_ok hguard).2

theorem named_branchCondition (hs : s.Named) (he : Identifiers e.names)
    (h : branchCondition s e loc = .ok guard) : guard.Plain :=
  hs.lower e guard he (branchCondition_eq_ok h).2

theorem ne_miss (h : IsIdentifier x) : x ≠ TableSite.miss := by
  rintro rfl
  have hsign : isWordChar '$' = false := rfl
  rw [h.1 '$' (by decide)] at hsign
  cases hsign

theorem identifiers_table (h : Identifiers d.names) :
    Identifiers (d.actions.flatMap ActionRef.names) ∧
      Identifiers ((d.defaultAction.map ActionRef.names).getD []) := by
  rw [TableDecl.names, identifiers_cons, identifiers_append, identifiers_append] at h
  exact h.2.2

theorem named_labels {a : Arms}
    (h : Elaborates depth (.arms ctx d home loc d.actions) c (.arms a) c') (hq : IsDotted q)
    (hnodup : (d.actions.map ActionRef.name).Nodup) (hd : Identifiers d.names) :
    TableSite.Named ⟨n, q, a.labels, siteLoc⟩ := by
  have hname : ∀ x ∈ d.actions.map ActionRef.name, IsIdentifier x := by
    intro x hx
    obtain ⟨ref, href, rfl⟩ := mem_map.1 hx
    exact (identifiers_cons.1 (identifiers_flatMap.1 (identifiers_table hd).1 ref href)).1
  refine ⟨hq, ?_, ?_⟩ <;> dsimp only <;> rw [h.labels]
  · rw [← concat_eq_append]
    exact hnodup.concat fun hmem => ne_miss (hname _ hmem) rfl
  · exact forall_mem_append.2 ⟨fun x hx => .inr (hname x hx), forall_mem_singleton.2 (.inl rfl)⟩

/-- Calling a body: its formals are made and filled in the scope of the body. -/
theorem named_fill {fill : Plan} {s₀ : Scope} {fresh : Nat}
    (hbound : bindArguments params args callee loc unbound = .ok bound)
    (hbind : BindsFormals ctx home caller loc c.uid bound formals)
    (hfill : FillsFormals loc s₀ formals c.fresh fill s' fresh) (hctx : ctx.Named)
    (hhome : home.Named) (hcaller : caller.Named) (hs₀ : s₀.Named)
    (hparams : Identifiers (params.flatMap Parameter.names))
    (hargs : Identifiers (Expr.argumentNames args)) (control : String) :
    (∀ f ∈ formals, f.Named) ∧ s'.Named ∧ PlanNamed control fill := by
  have hformals := hbind.named hctx hhome hcaller <| by
    intro q hq
    obtain ⟨hp, ha⟩ := mem_of_mem_bindArguments hbound q hq
    refine ⟨(identifiers_cons.1 (identifiers_flatMap.1 hparams _ hp)).1, fun e x l hgiven => ?_⟩
    exact identifiers_of_mem_arguments hargs (ha _ hgiven)
  exact ⟨hformals, hfill.named hs₀ hformals control⟩

/-- The names in what is elaborated are well-formed. -/
theorem Elaborates.named {job : Job} {out : Output} (h : Elaborates depth job c out c')
    (hjob : job.Named) : job.After Scope.Named ∧
      Named job.owner out.ops out.conditions out.sites out.targets := by
  induction h with
  | nil => exact ⟨trivial, .nil _⟩
  | cons _ _ ih₁ ih₂ =>
    obtain ⟨hctx, hs, hnames⟩ := hjob
    obtain ⟨hx, hl⟩ := identifiers_append.1 hnames
    obtain ⟨hs₁, ha⟩ := ih₁ ⟨hctx, hs, hx⟩
    exact ⟨trivial, ha.append (ih₂ ⟨hctx, hs₁, hl⟩).2⟩
  | @block _ _ _ body _ _ _ _ ih =>
    obtain ⟨hctx, hs, hnames⟩ := hjob
    obtain ⟨body, loc⟩ := body
    exact ⟨hs, (ih ⟨hctx, hs.enter .block isIdentifier_empty, hnames⟩).2⟩
  | @ifThen _ _ _ _ _ yes _ _ _ _ hguard _ ih =>
    obtain ⟨hctx, hs, hnames⟩ := hjob
    obtain ⟨yes, loc⟩ := yes
    obtain ⟨he, hyes⟩ := identifiers_append.1 hnames
    have ha := (ih ⟨hctx, hs.enter .block isIdentifier_empty, hyes⟩).2
    have hplain := named_branchCondition hs he hguard
    exact ⟨hs, ha.op, forall_mem_cons.2 ⟨hplain, ha.condition⟩, ha.site, ha.target⟩
  | @ifElse _ _ _ _ _ yes no _ _ _ _ _ _ hguard _ _ ih₁ ih₂ =>
    obtain ⟨hctx, hs, hnames⟩ := hjob
    obtain ⟨yes, yesLoc⟩ := yes
    obtain ⟨no, noLoc⟩ := no
    obtain ⟨he, hnames⟩ := identifiers_append.1 hnames
    obtain ⟨hyes, hno⟩ := identifiers_append.1 hnames
    have henter := hs.enter .block isIdentifier_empty
    have hab := (ih₁ ⟨hctx, henter, hyes⟩).2.append (ih₂ ⟨hctx, henter, hno⟩).2
    have hplain := named_branchCondition hs he hguard
    exact ⟨hs, hab.op, forall_mem_cons.2 ⟨hplain, hab.condition⟩, hab.site, hab.target⟩
  | assign hplace hvalue =>
    obtain ⟨-, hs, hnames⟩ := hjob
    refine ⟨hs, .single ?_ _⟩
    exact ⟨named_of_place hs hplace, hs.lowerAs (identifiers_append.1 hnames).2 hvalue⟩
  | declare hd =>
    obtain ⟨hctx, hs, hnames⟩ := hjob
    exact hd.named hctx hs hnames _
  | constant hd =>
    obtain ⟨-, hs, hnames⟩ := hjob
    exact ⟨hd.named hs hnames, .nil _⟩
  | bug => exact ⟨hjob.2.1, .raised hjob.2.1 (forall_mem_nil _)⟩
  | assert _ he hguard =>
    obtain ⟨-, hs, hnames⟩ := hjob
    have hplain := named_assertionGuard hs (identifiers_append.1 hnames).2 he hguard
    exact ⟨hs, .raised hs (forall_mem_singleton.2 hplain)⟩
  | assume _ he hguard =>
    obtain ⟨-, hs, hnames⟩ := hjob
    refine ⟨hs, .single ?_ _⟩
    exact named_assertionGuard hs (identifiers_append.1 hnames).2 he hguard
  | callAction _ _ hfind _ ih =>
    obtain ⟨hctx, hs, hnames⟩ := hjob
    obtain ⟨⟨hd, hq⟩, hhome⟩ := hs.find? hfind
    exact ⟨hs, (ih ⟨hctx, hhome, hs, hq, hd, (identifiers_append.1 hnames).2⟩).2⟩
  | callTable _ _ hfind harms ih =>
    obtain ⟨hctx, hs, hnames⟩ := hjob
    obtain ⟨⟨hd, hq, hnodup⟩, hhome⟩ := hs.find? hfind
    have ha := (ih ⟨hctx, hhome, hd, (identifiers_table hd).1⟩).2
    refine ⟨hs, ha.op, ha.condition, ?_, ha.target⟩
    exact forall_mem_cons.2 ⟨named_labels harms hq hnodup hd, ha.site⟩
  | callControl _ _ hfind _ ih =>
    obtain ⟨hctx, hs, hnames⟩ := hjob
    obtain ⟨hd, -⟩ := hs.find? hfind
    exact ⟨hs, (ih ⟨hctx, hs, hd _ rfl, (identifiers_append.1 hnames).2⟩).2⟩
  | action hbound _ hbind hfill _ ih =>
    obtain ⟨hctx, hhome, hcaller, hq, hd, hargs⟩ := hjob
    obtain ⟨hname, hd⟩ := identifiers_cons.1 hd
    obtain ⟨hparams, hbody⟩ := identifiers_append.1 hd
    have hinside := named_inside hctx hq
    obtain ⟨hformals, hcallee, hfill⟩ := named_fill hbound hbind hfill hinside hhome hcaller
      (hhome.enter .action hname) hparams hargs _
    have ha := (ih ⟨hinside, hcallee.enter .block isIdentifier_empty, hbody⟩).2
    exact ⟨trivial, hfill.append (ha.append (named_backPlan hformals _))⟩
  | control _ hbound _ hbind hfill hlocals _ ih =>
    obtain ⟨hctx, hcaller, hd, hargs⟩ := hjob
    obtain ⟨hname, hd⟩ := identifiers_cons.1 hd
    obtain ⟨hparams, hd⟩ := identifiers_append.1 hd
    obtain ⟨hlocalNames, hbody⟩ := identifiers_append.1 hd
    have hinside := named_inside hctx hname.dotted
    obtain ⟨hformals, hcallee, hfill⟩ := named_fill hbound hbind hfill hinside hcaller.root hcaller
      (hcaller.root.enter .control hname) hparams hargs _
    obtain ⟨hcallee₂, hl⟩ := hlocals.named hinside hcallee hlocalNames _
    have ha := (ih ⟨hinside, hcallee₂.enter .block isIdentifier_empty, hbody⟩).2
    exact ⟨trivial, hfill.append (hl.append (ha.append (named_backPlan hformals _)))⟩
  | arm hresolve _ _ ih₁ ih₂ =>
    obtain ⟨hctx, hhome, hd, hrefs⟩ := hjob
    obtain ⟨href, hrefs⟩ := identifiers_append.1 hrefs
    obtain ⟨⟨hdecl, hq⟩, hactionHome⟩ := hhome.find? (resolveAction_eq_ok hresolve)
    have ha := (ih₁ ⟨hctx, hactionHome, hhome, hq, hdecl, (identifiers_cons.1 href).2⟩).2
    exact ⟨trivial, ha.append (ih₂ ⟨hctx, hhome, hd, hrefs⟩).2⟩
  | miss => exact ⟨trivial, .nil _⟩
  | default hdefault hresolve _ ih =>
    obtain ⟨hctx, hhome, hd, -⟩ := hjob
    have href := (identifiers_table hd).2
    obtain ⟨⟨hdecl, hq⟩, hactionHome⟩ := hhome.find? (resolveAction_eq_ok hresolve)
    rw [hdefault] at href
    have ha := (ih ⟨hctx, hactionHome, hhome, hq, hdecl, (identifiers_cons.1 href).2⟩).2
    exact ⟨trivial, ha.append (.nil _)⟩

theorem BindsInputs.named (h : BindsInputs s l c a s' c') (hs : s.Named)
    (hl : Identifiers (l.flatMap Parameter.names)) (control : String) :
    s'.Named ∧ PlanNamed control a := by
  induction h with
  | nil => exact ⟨hs, .nil _⟩
  | @cons s p ty l c s₁ a s₂ c₂ hty hdeclare _ ih =>
    obtain ⟨hp, hl⟩ := identifiers_append.1 hl
    have hname := (identifiers_cons.1 hp).1
    have hv : (formalVariable "" c.uid p ty).Named := ⟨hname.dotted, hs.resolveType hty⟩
    exact (ih (hs.declare (b := .variable _) hname hv hdeclare) hl).imp_right
      (Named.append (.single (by exact hv) control))

theorem ElaboratesControl.named {globals : Scope} {d : ControlDecl}
    (h : ElaboratesControl depth ctx globals d a c) (hctx : ctx.Named) (hglobals : globals.Named)
    (hd : Identifiers d.names) : PlanNamed ctx.control a := by
  obtain ⟨hname, hd⟩ := identifiers_cons.1 hd
  obtain ⟨hparams, hd⟩ := identifiers_append.1 hd
  obtain ⟨hlocalNames, hbody⟩ := identifiers_append.1 hd
  cases h with
  | mk hinputs hlocals hstatements =>
    obtain ⟨hs₁, ha⟩ := hinputs.named (hglobals.enter .control hname) hparams ctx.control
    obtain ⟨hs₂, hl⟩ := hlocals.named hctx hs₁ hlocalNames ctx.control
    have hb := (hstatements.named ⟨hctx, hs₂.enter .block isIdentifier_empty, hbody⟩).2
    exact ha.append (hl.append hb)

end Elaborate

end ControlReach
