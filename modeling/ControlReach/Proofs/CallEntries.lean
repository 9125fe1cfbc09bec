import ControlReach.Proofs.CallCycles
import ControlReach.Proofs.CallScopes

/-!
# Calls are entered

When a body is elaborated without failures, so is the body of everything that it calls, while its
own name is among those being inlined. So no callable whose body is elaborated is recursive.
-/

namespace ControlReach

open List

/-! ### Nodes of the call graph -/

/-- Control names are declared once and have no dots. -/
structure Program.Distinct (p : Program) : Prop where
  unique : ∀ c ∈ p.controls, ∀ c' ∈ p.controls, c.name = c'.name → c = c'
  dotless : ∀ c ∈ p.controls, '.' ∉ c.name.toList

theorem ControlDecl.toList_nodeName (c : ControlDecl) (x : String) :
    (c.nodeName x).toList = c.name.toList ++ '.' :: x.toList := by
  simp [nodeName]

namespace Program.Distinct

variable {p : Program} {c : ControlDecl}

theorem nodeName_ne (hp : p.Distinct) (hc' : c' ∈ p.controls) : c.nodeName x ≠ c'.name := by
  intro heq
  refine hp.dotless c' hc' ?_
  rw [← heq, c.toList_nodeName]
  exact mem_append_right _ mem_cons_self

theorem nodeName_inj (hp : p.Distinct) (hc : c ∈ p.controls) (hc' : c' ∈ p.controls)
    (h : c.nodeName x = c'.nodeName x') : c = c' ∧ x = x' := by
  have hstop : ∀ d ∈ p.controls, ∀ ch ∈ d.name.toList, (ch != '.') = true := by
    intro d hd ch hch
    exact bne_iff_ne.2 fun heq => hp.dotless d hd (heq ▸ hch)
  have hlist := congrArg String.toList h
  rw [c.toList_nodeName, c'.toList_nodeName] at hlist
  -- The name of the control ends at the first dot.
  have hname := congrArg (List.takeWhile (· != '.')) hlist
  rw [(span_of_sign (hstop c hc) (by simp) _).1, (span_of_sign (hstop c' hc') (by simp) _).1] at hname
  obtain rfl := hp.unique c hc c' hc' (String.toList_injective hname)
  obtain ⟨-, hx⟩ := cons_eq_cons.1 (append_cancel_left hlist)
  exact ⟨rfl, String.toList_injective hx⟩

end Program.Distinct

def Binding.callable? : Binding → Option Local
  | .action d _ => some (.action d)
  | .table d _ => some (.table d)
  | _ => none

theorem Scope.Home.callable_unique {s : Scope} (h : s.Home p c) (hl : l ∈ c.locals)
    (hl' : l' ∈ c.locals) (hx : l.callable? = some x) (hx' : l'.callable? = some x) : l = l' := by
  have hbinds : ∀ l : Local, l.callable? = some x → ∀ y b, l.Binds p c y b →
      y = x ∧ b.callable? = some l := by
    intro l hx y b hb
    cases l <;> cases hx <;> obtain ⟨rfl, rfl⟩ := hb <;> exact ⟨rfl, rfl⟩
  obtain ⟨⟨y, b⟩, hmem, hb⟩ := h.holds.declared l hl
  obtain ⟨rfl, heq⟩ := hbinds l hx y b hb
  have hb' := h.holds.binds hmem hl' fun z b' hz => (hbinds l' hx' z b' hz).1
  exact Option.some.inj (heq.symm.trans (hbinds l' hx' _ b hb').2)

def Local.calls : Local → List String
  | .action d => d.body.calls.map Prod.fst
  | .table d => (d.actions ++ d.defaultAction.toList).map ActionRef.name
  | _ => []

namespace Program.Distinct

variable {p : Program}

theorem calls_of_edge (hp : p.Distinct) {s : Scope} (hs : s.Home p c) (hl : l ∈ c.locals)
    (hx : l.callable? = some x) (h : (c.nodeName x, f) ∈ p.callGraph.edges) :
    ∃ y ∈ l.calls, (c.callTargets (p.controls.map ControlDecl.name)).lookup y = some f := by
  obtain ⟨c', hc', h⟩ := p.mem_edges_callGraph.1 h
  generalize hnode : c.nodeName x = node at h
  cases h with
  | @action d _ _ _ hd hcall hy | @table d _ _ hd hcall hy =>
    obtain ⟨rfl, rfl⟩ := hp.nodeName_inj hs.control hc' hnode
    obtain rfl := hs.callable_unique hl hd hx rfl
    exact ⟨_, mem_map_of_mem hcall, hy⟩
  | body => exact absurd hnode (hp.nodeName_ne hc')

theorem calls_of_control_edge (hp : p.Distinct) (hc : c ∈ p.controls)
    (h : (c.name, f) ∈ p.callGraph.edges) : ∃ y ∈ c.body.calls.map Prod.fst,
      (c.callTargets (p.controls.map ControlDecl.name)).lookup y = some f := by
  obtain ⟨c', hc', h⟩ := p.mem_edges_callGraph.1 h
  generalize hnode : c.name = node at h
  cases h with
  | action | table => exact absurd hnode.symm (hp.nodeName_ne hc)
  | body hcall hy =>
    obtain rfl := hp.unique c hc c' hc' hnode
    exact ⟨_, mem_map_of_mem hcall, hy⟩

end Program.Distinct

def Binding.node? (c : ControlDecl) : Binding → Option String
  | .action d _ => some (c.nodeName d.name)
  | .table d _ => some (c.nodeName d.name)
  | .inst (some d) => some d.name
  | _ => none

theorem Binding.not_isData {b : Binding} (hn : b.node? c = some n) : ¬ b.IsData := by
  cases b with
  | «variable» | constant => cases hn
  | _ => exact id

theorem Local.Targets.node {l : Local} (h : l.Targets controls c x n) (hb : l.Binds p c x b) :
    b.node? c = some n := by
  cases h with
  | action | table =>
    obtain ⟨-, rfl⟩ := hb
    rfl
  | inst =>
    obtain ⟨-, d', -, hname, rfl⟩ := hb
    exact congrArg some hname

theorem Context.recursion?_eq_none_iff {ctx : Context} :
    ctx.recursion? q = none ↔ q ∉ ctx.recursive ∧ q ∉ ctx.stack := by
  unfold recursion?
  by_cases hr : q ∈ ctx.recursive
  · simp only [hr, if_true, not_true_eq_false, false_and, iff_false]
    split <;> exact nofun
  · by_cases hs : q ∈ ctx.stack <;> simp [hr, hs]

namespace Elaborate

/-! ### What is entered -/

/-- A node of the call graph is elaborated while the given bodies are being inlined. -/
inductive Enters (p : Program) (stack : List String) : String → Prop
  | action {depth ctx c a args caller loc unbound n out m} : a.Of p c → stack ⊆ ctx.stack →
      Elaborates depth (.action ctx a args caller loc unbound) n out m →
      Enters p stack (c.nodeName a.decl.name)
  | table {depth ctx c d home loc n out m} : home.Home p c → .table d ∈ c.locals →
      stack ⊆ ctx.stack → Elaborates depth (.arms ctx d home loc d.actions) n out m →
      Enters p stack (c.nodeName d.name)
  | control {depth ctx d args caller c loc n out m} : d ∈ p.controls → caller.Within p c →
      stack ⊆ ctx.stack → Elaborates depth (.control ctx d args caller loc) n out m →
      Enters p stack d.name

theorem Enters.mono (h : Enters p stack f) (hsub : stack' ⊆ stack) : Enters p stack' f := by
  cases h with
  | action ha hstack hjob => exact .action ha (List.Subset.trans hsub hstack) hjob
  | table hhome hd hstack hjob => exact .table hhome hd (List.Subset.trans hsub hstack) hjob
  | control hd hcaller hstack hjob => exact .control hd hcaller (List.Subset.trans hsub hstack) hjob

def EntersAll (p : Program) (c : ControlDecl) (stack : List String) (names : List String) : Prop :=
  ∀ x ∈ names, ∀ f, (c.callTargets (p.controls.map ControlDecl.name)).lookup x = some f →
    Enters p stack f

section

variable {p : Program} {c : ControlDecl}

theorem EntersAll.append (h : EntersAll p c stack l) (h' : EntersAll p c stack l') :
    EntersAll p c stack (l ++ l') :=
  forall_mem_append.2 ⟨h, h'⟩

theorem EntersAll.nil : EntersAll p c stack [] := nofun

def Job.CallsEnter (p : Program) (c : ControlDecl) : Job → Prop
  | .statements ctx s l =>
    s.Inside p c → EntersAll p c ctx.stack ((Stmt.callsOf l).map Prod.fst)
  | .statement ctx s x s' =>
    s.Inside p c → s'.Inside p c ∧ EntersAll p c ctx.stack (x.calls.map Prod.fst)
  | .arms ctx table home _ refs =>
    home.Home p c →
      EntersAll p c ctx.stack ((refs ++ table.defaultAction.toList).map ActionRef.name)
  | .action .. | .control .. => True

variable {callee : Expr} {s : Scope}

theorem calleeName?_of_applied? (h : callee.applied? = some (x, apply)) :
    callee.calleeName? = some x := by
  unfold Expr.applied? at h
  split at h
  · cases h
    rfl
  · split at h
    · rename_i hf
      cases h
      rw [hf]
      rfl
    · cases h
  · cases h

theorem Block.calls_eq (b : Block) : b.calls = Stmt.callsOf b.statements := by
  cases b
  rfl

theorem calls_call (callee : Expr) (args : List Argument) (callLoc loc : Option Location) :
    (Stmt.call callee args callLoc loc).calls.map Prod.fst = callee.calleeName?.toList := by
  rw [Stmt.calls]
  cases callee.calleeName? <;> rfl

section

variable (hs : s.Within p c)

include hs

theorem entersAll_singleton (hx : s.find? x = some (b, home)) (hb : ¬ b.IsData)
    (h : ∀ f, b.node? c = some f → Enters p stack f) : EntersAll p c stack [x] := by
  intro y hy f hf
  rw [mem_singleton.1 hy] at hf
  obtain ⟨-, l, -, htarget, hbinds⟩ := hs.target hx hb hf
  exact h f (htarget.node hbinds)

theorem enters_action (hx : s.find? x = some (.action d q, home))
    (h : Elaborates depth (.action ctx ⟨d, q, home⟩ args caller loc unbound) n out m) :
    EntersAll p c ctx.stack [x] := by
  refine entersAll_singleton hs hx id ?_
  rintro _ ⟨⟩
  exact .action (hs.action hx) (List.Subset.refl _) h

theorem entersAll_assertion (h : s.assertion? callee = some kind) :
    EntersAll p c stack callee.calleeName?.toList := by
  intro x hx f hf
  cases callee with
  | var y =>
    obtain rfl : x = y := mem_singleton.1 hx
    exfalso
    rw [Scope.assertion?] at h
    split at h
    · cases h
    · rename_i hnone
      exact hnone (hs.lookup_isSome hf)
  | _ => cases h

end

theorem Elaborates.callsEnter (h : Elaborates depth job n out m) : job.CallsEnter p c := by
  induction h with
  | nil => exact fun _ => EntersAll.nil
  | cons _ _ ih₁ ih₂ =>
    intro hs
    obtain ⟨hs', hfirst⟩ := ih₁ hs
    rw [Stmt.callsOf, map_append]
    exact hfirst.append (ih₂ hs')
  | @block _ _ _ body _ _ _ _ ih =>
    intro hs
    obtain ⟨l, _⟩ := body
    exact ⟨hs, ih (hs.enter (by decide))⟩
  | @ifThen _ _ _ _ _ yes _ _ _ _ _ _ ih =>
    intro hs
    obtain ⟨l, _⟩ := yes
    refine ⟨hs, ?_⟩
    rw [Stmt.calls, map_append]
    exact (ih (hs.enter (by decide))).append EntersAll.nil
  | @ifElse _ _ _ _ _ yes no _ _ _ _ _ _ _ _ _ ih₁ ih₂ =>
    intro hs
    obtain ⟨l, _⟩ := yes
    obtain ⟨l', _⟩ := no
    refine ⟨hs, ?_⟩
    rw [Stmt.calls, map_append]
    exact (ih₁ (hs.enter (by decide))).append (ih₂ (hs.enter (by decide)))
  | assign => exact fun hs => ⟨hs, EntersAll.nil⟩
  | declare hd | constant hd => exact fun hs => ⟨hd.inside hs, EntersAll.nil⟩
  | bug hkind | assert hkind | assume hkind =>
    refine fun hs => ⟨hs, ?_⟩
    rw [calls_call]
    exact entersAll_assertion hs.toWithin hkind
  | callAction _ happlied hfind hjob =>
    refine fun hs => ⟨hs, ?_⟩
    rw [calls_call, calleeName?_of_applied? happlied]
    exact enters_action hs.toWithin hfind hjob
  | callTable _ happlied hfind hjob =>
    refine fun hs => ⟨hs, ?_⟩
    rw [calls_call, calleeName?_of_applied? happlied]
    refine entersAll_singleton hs.toWithin hfind id ?_
    rintro _ ⟨⟩
    exact .table (hs.table hfind).1 (hs.table hfind).2 (List.Subset.refl _) hjob
  | callControl _ happlied hfind hjob =>
    refine fun hs => ⟨hs, ?_⟩
    rw [calls_call, calleeName?_of_applied? happlied]
    refine entersAll_singleton hs.toWithin hfind id ?_
    rintro _ ⟨⟩
    exact .control (hs.instance hfind) hs.toWithin (List.Subset.refl _) hjob
  | action | control => trivial
  | arm href haction _ _ ih =>
    intro hhome
    exact (enters_action hhome.within (resolveAction_eq_ok href) haction).append (ih hhome)
  | miss hnone =>
    intro _
    rw [hnone]
    exact EntersAll.nil
  | default hsome href haction =>
    intro hhome
    rw [hsome]
    exact enters_action hhome.within (resolveAction_eq_ok href) haction

end

/-! ### Calls of a node -/

section

variable {p : Program}

theorem Elaborates.enters_of_action
    (h : Elaborates depth (.action ctx a args caller loc unbound) n out m) (hp : p.Distinct)
    (ha : a.Of p c) (hf : (c.nodeName a.decl.name, f) ∈ p.callGraph.edges) :
    Enters p (ctx.stack ++ [a.qualified]) f := by
  obtain ⟨x, hx, hlookup⟩ := hp.calls_of_edge ha.home ha.declared rfl hf
  cases h with
  | action _ _ _ hfill hbody =>
    have hcallee := hfill.inside (ha.home.within.enter (by decide))
    have hcalls := hbody.callsEnter (hcallee.enter (by decide))
    rw [← Block.calls_eq] at hcalls
    exact hcalls x hx f hlookup

theorem Elaborates.enters_of_control (h : Elaborates depth (.control ctx d args caller loc) n out m)
    (hp : p.Distinct) (hd : d ∈ p.controls) (hcaller : caller.Within p c)
    (hf : (d.name, f) ∈ p.callGraph.edges) : Enters p (ctx.stack ++ [d.name]) f := by
  obtain ⟨x, hx, hf⟩ := hp.calls_of_control_edge hd hf
  cases h with
  | control _ hbound _ hformals hfill hlocals hbody =>
    have hhome : Scope.Home p d _ :=
      hlocals.opens (opens_of_fills hd hcaller hbound hformals hfill)
    have hcalls := hbody.callsEnter (hhome.within.enter (by decide))
    rw [← Block.calls_eq] at hcalls
    exact hcalls x hx f hf

theorem Enters.call (hp : p.Distinct) (h : Enters p stack f) (ht : (f, t) ∈ p.callGraph.edges) :
    Enters p stack t := by
  cases h with
  | action ha hstack hjob =>
    exact (hjob.enters_of_action hp ha ht).mono (subset_append_of_subset_left _ hstack)
  | table hhome hd hstack hjob =>
    obtain ⟨x, hx, ht⟩ := hp.calls_of_edge hhome hd rfl ht
    exact (hjob.callsEnter hhome x hx t ht).mono hstack
  | control hd hcaller hstack hjob =>
    exact (hjob.enters_of_control hp hd hcaller ht).mono
      (subset_append_of_subset_left _ hstack)

theorem Enters.calls (hp : p.Distinct) (h : Enters p stack f)
    (ht : Relation.ReflTransGen p.callGraph.Calls f t) : Enters p stack t := by
  induction ht with
  | refl => exact h
  | tail _ hcall ih => exact ih.call hp hcall.2.2

/-! ### Nothing recursive is entered -/

theorem Elaborates.action_not_recursive
    (h : Elaborates depth (.action ctx a args caller loc unbound) n out m) (hp : p.Distinct)
    (ha : a.Of p c) : c.nodeName a.decl.name ∉ p.callGraph.recursive := by
  intro hmem
  obtain ⟨t, hfirst, hrest⟩ := Relation.TransGen.head'_iff.1 (CallGraph.mem_recursive_iff.1 hmem)
  have hmine := (h.enters_of_action hp ha hfirst.2.2).calls hp hrest
  generalize hnode : c.nodeName a.decl.name = node at hmine
  cases hmine with
  | @action _ ctx' c' a' _ _ _ _ _ _ _ ha' hstack hjob =>
    obtain ⟨rfl, hname⟩ := hp.nodeName_inj ha.home.control ha'.home.control hnode
    have hmem : a'.qualified ∈ ctx.stack ++ [a.qualified] := by
      rw [ha'.qualified, ha.qualified, hname]
      exact mem_append_right _ mem_cons_self
    cases hjob with
    | action _ hq => exact (Context.recursion?_eq_none_iff.1 hq).2 (hstack hmem)
  | table hhome hd =>
    obtain ⟨rfl, hname⟩ := hp.nodeName_inj ha.home.control hhome.control hnode
    cases ha.home.callable_unique ha.declared hd rfl (congrArg some hname.symm)
  | control hd => exact hp.nodeName_ne hd hnode

theorem Elaborates.control_not_recursive
    (h : Elaborates depth (.control ctx d args caller loc) n out m) (hp : p.Distinct)
    (hd : d ∈ p.controls) (hcaller : caller.Within p c) : d.name ∉ p.callGraph.recursive := by
  intro hmem
  obtain ⟨t, hfirst, hrest⟩ := Relation.TransGen.head'_iff.1 (CallGraph.mem_recursive_iff.1 hmem)
  have hmine := (h.enters_of_control hp hd hcaller hfirst.2.2).calls hp hrest
  generalize hnode : d.name = node at hmine
  cases hmine with
  | action | table => exact hp.nodeName_ne hd hnode.symm
  | control _ _ hstack hjob =>
    cases hjob with
    | control _ _ hq =>
      refine (Context.recursion?_eq_none_iff.1 hq).2 (hstack ?_)
      exact mem_append_right _ mem_cons_self

end

end Elaborate

end ControlReach
