import ControlReach.Proofs.Ownership
import Mathlib.Data.Bool.Basic

/-!
# Instances and their controls

A later instance of a name links it again. Types and values do not depend on links, so the links
can be worked out apart.
-/

namespace ControlReach

open List GlobalScope

/-! ### Types and values -/

/-- Names stand for the same things but for the controls of instances. -/
structure Scope.Alike (s s' : Scope) : Prop where
  invalid : s.invalid = s'.invalid
  lookup : ∀ x, s.lookup x = s'.lookup x ∨
    ∃ c c', s.lookup x = some (.inst c) ∧ s'.lookup x = some (.inst c')

namespace Scope.Alike

variable {s : Scope}

theorem resolveType (h : s.Alike s') (t : TypeRef) : s.resolveType t = s'.resolveType t := by
  cases t with
  | named x loc =>
    simp only [Scope.resolveType, resolve_eq, Scope.invalid?, h.invalid]
    obtain heq | ⟨c, c', hc, hc'⟩ := h.lookup x
    · rw [heq]
    · rw [hc, hc']
      rfl
  | _ => rfl

theorem typeOfName (h : s.Alike s') (x : String) (loc : Option Location) :
    s.typeOfName x loc = s'.typeOfName x loc := by
  simp only [Scope.typeOfName, resolve_eq]
  obtain heq | ⟨c, c', hc, hc'⟩ := h.lookup x
  · rw [heq]
  · rw [hc, hc']
    rfl

theorem lowerName (h : s.Alike s') (x : String) (loc : Option Location) :
    s.lowerName x loc = s'.lowerName x loc := by
  simp only [Scope.lowerName, resolve_eq]
  obtain heq | ⟨c, c', hc, hc'⟩ := h.lookup x
  · rw [heq]
  · rw [hc, hc']
    rfl

mutual

theorem typeOf (h : s.Alike s') : ∀ e expected,
    s.typeOf expected e = s'.typeOf expected e
  | .bool _ _, _ | .text _ _, _ | .call _ _ _, _ | .other _ _, _ => by
    rw [Scope.typeOf, Scope.typeOf]
  | .var x loc, _ => by rw [Scope.typeOf, Scope.typeOf, h.typeOfName]
  | .paren e _, _ | .field e _ _, _ | .not e _, _ => by
    rw [Scope.typeOf, Scope.typeOf, h.typeOf e]
  | .struct fields loc, none => by simp only [Scope.typeOf, h.typeFields fields]
  | .struct fields loc, some (.struct name wanted) => by
    simp only [Scope.typeOf, h.checkFields _ loc fields wanted]
  | .struct _ _, some .bool | .struct _ _, some .string => by simp only [Scope.typeOf]
  | .and e e' _, _ | .or e e' _, _ => by
    rw [Scope.typeOf, Scope.typeOf, h.typeOf e, h.typeOf e']
  | .equal negated e e' loc, _ => by simp only [Scope.typeOf, h.typeOf e, h.typeOf e']

theorem typeFields (h : s.Alike s') : ∀ fields : List (String × Expr),
    s.typeFields fields = s'.typeFields fields
  | [] => by rw [Scope.typeFields, Scope.typeFields]
  | (f, e) :: rest => by rw [Scope.typeFields, Scope.typeFields, h.typeOf e, h.typeFields rest]

theorem checkFields (h : s.Alike s') (struct : Ty) (loc : Option Location) :
    ∀ fields wanted,
      s.checkFields struct loc fields wanted = s'.checkFields struct loc fields wanted
  | (f, e) :: rest, (_, want) :: wanted => by
    simp only [Scope.checkFields, h.typeOf e, h.checkFields struct loc rest wanted]
  | [], _ | _ :: _, [] => by simp only [Scope.checkFields]

end

mutual

theorem lower (h : s.Alike s') : ∀ e : Expr, s.lower e = s'.lower e
  | .bool _ _ | .text _ _ | .call _ _ _ | .other _ _ => by rw [Scope.lower, Scope.lower]
  | .var x loc => by rw [Scope.lower, Scope.lower, h.lowerName]
  | .paren e _ | .field e _ _ | .not e _ => by rw [Scope.lower, Scope.lower, h.lower e]
  | .struct fields _ => by rw [Scope.lower, Scope.lower, h.lowerFields fields]
  | .and e e' _ | .or e e' _ | .equal _ e e' _ => by
    rw [Scope.lower, Scope.lower, h.lower e, h.lower e']

theorem lowerFields (h : s.Alike s') : ∀ fields : List (String × Expr),
    s.lowerFields fields = s'.lowerFields fields
  | [] => by rw [Scope.lowerFields, Scope.lowerFields]
  | (f, e) :: rest => by rw [Scope.lowerFields, Scope.lowerFields, h.lower e, h.lowerFields rest]

end

theorem constantValue (h : s.Alike s') (d : ConstantDecl) :
    GlobalScope.constantValue s d = GlobalScope.constantValue s' d := by
  simp only [GlobalScope.constantValue, Scope.lowerAs, Scope.checkAssignable, h.resolveType,
    h.typeOf, h.lower]

end Scope.Alike

/-! ### Links -/

def Binding.linked (c : Option ControlDecl) : Binding → Binding
  | .inst _ => .inst c
  | b => b

variable {x : String}

namespace GlobalScope

variable {g : GlobalScope} {link : String → Option ControlDecl}

def linked (link : String → Option ControlDecl) (g : GlobalScope) : GlobalScope :=
  { g with scope := { g.scope with inner := { g.scope.inner with
      symbols := g.scope.inner.symbols.map fun q => (q.1, q.2.linked (link q.1)) } } }

/-- A scope of one frame in which each name is declared once. -/
structure Single (g : GlobalScope) : Prop where
  outer : g.scope.outer = []
  nodup : (g.scope.inner.symbols.map Prod.fst).Nodup

theorem Single.lookup (h : g.Single) (x : String) : g.scope.lookup x = g.scope.inner.lookup x := by
  rw [Scope.lookup, Scope.find?, h.outer, Scope.findFrom]
  cases g.scope.inner.lookup x <;> rfl

theorem Single.linked (h : g.Single) (link : String → Option ControlDecl) :
    (g.linked link).Single := by
  refine ⟨h.outer, ?_⟩
  rw [GlobalScope.linked, map_map]
  exact h.nodup

theorem Single.update (h : g.Single) (x : String) (b : Binding) : (g.update x b).Single := by
  refine ⟨h.outer, ?_⟩
  have hkeys : (g.update x b).scope.inner.symbols.map Prod.fst =
      g.scope.inner.symbols.map Prod.fst := by
    rw [GlobalScope.update, Frame.update, map_map]
    refine map_congr_left fun q _ => ?_
    rw [Function.comp_apply]
    split
    · exact Eq.symm ‹_›
    · rfl
  rw [hkeys]
  exact h.nodup

theorem lookup_linked (g : GlobalScope) (link : String → Option ControlDecl) (x : String) :
    (g.linked link).scope.inner.lookup x =
      (g.scope.inner.lookup x).map (Binding.linked (link x)) :=
  Assoc.lookup_map (fun q : String × Binding => q.2.linked (link q.1)) x g.scope.inner.symbols

theorem Single.alike (h : g.Single) (link : String → Option ControlDecl) :
    (g.linked link).scope.Alike g.scope where
  invalid := rfl
  lookup := by
    intro x
    rw [(h.linked link).lookup, h.lookup, lookup_linked]
    cases g.scope.inner.lookup x with
    | none => exact .inl rfl
    | some b =>
      cases b with
      | inst c => exact .inr ⟨link x, c, rfl, rfl⟩
      | _ => exact .inl rfl

theorem linked_congr (h : ∀ x c, (x, .inst c) ∈ g.scope.inner.symbols → link x = link' x) :
    g.linked link = g.linked link' := by
  have hsymbols : g.scope.inner.symbols.map (fun q => (q.1, q.2.linked (link q.1))) =
      g.scope.inner.symbols.map fun q => (q.1, q.2.linked (link' q.1)) := by
    refine map_congr_left fun q hq => ?_
    obtain ⟨x, b⟩ := q
    cases b with
    | inst c => exact congrArg (fun l => (x, Binding.inst l)) (h x c hq)
    | _ => rfl
  rw [linked, hsymbols, linked]

theorem update_linked (g : GlobalScope) (link : String → Option ControlDecl) (x : String)
    {b : Binding} (hb : ∀ c, b.linked c = b) :
    (g.linked link).update x b = (g.update x b).linked link := by
  have hsymbols : (g.linked link).scope.inner.symbols.map (fun q => if q.1 = x then (x, b) else q) =
      (g.update x b).scope.inner.symbols.map fun q => (q.1, q.2.linked (link q.1)) := by
    rw [linked, update, Frame.update, map_map, map_map]
    refine map_congr_left fun q _ => ?_
    by_cases hq : q.1 = x
    · simp only [Function.comp_apply, hq, if_true, hb]
    · simp only [Function.comp_apply, hq, if_false]
  rw [update, Frame.update, hsymbols]
  rfl

theorem Single.relink (h : g.Single) (hx : g.scope.inner.lookup x = some (.inst b))
    (link : String → Option ControlDecl) (c : ControlDecl) :
    (g.linked link).update x (.inst (some c)) = g.linked (Function.update link x (some c)) := by
  have hsymbols : (g.linked link).scope.inner.symbols.map
      (fun q => if q.1 = x then (x, .inst (some c)) else q) =
      g.scope.inner.symbols.map fun q =>
        (q.1, q.2.linked (Function.update link x (some c) q.1)) := by
    rw [GlobalScope.linked, map_map]
    refine map_congr_left fun q hq => ?_
    obtain ⟨y, b'⟩ := q
    by_cases hy : y = x
    · subst hy
      have hb' := Assoc.lookup_of_mem h.nodup hq
      rw [show g.scope.inner.symbols.lookup y = _ from hx] at hb'
      cases hb'
      simp only [Function.comp_apply, if_true, Function.update_self, Binding.linked]
    · simp only [Function.comp_apply, hy, if_false, Function.update_of_ne hy]
  rw [GlobalScope.update, Frame.update, hsymbols]
  rfl

/-! ### Declarations without links -/

/-- Elaborate a constant, or look up the type of an instance, without linking the instance. -/
def addBare (g : GlobalScope) : Declaration × Option Diagnostic → GlobalScope
  | (.constant d, none) => g.addConstant d
  | (.inst d, _) =>
    match g.scope.inner.lookup d.typeName with
    | none => g.record (.of (.undeclared d.typeName) d.loc)
    | some _ => g
  | _ => g

def linkOf? (f : Frame) (x : String) : Declaration → Option ControlDecl
  | .inst d =>
    if d.name = x then
      match f.lookup x, f.lookup d.typeName with
      | some (.inst _), some (.control c) => some c
      | _, _ => none
    else none
  | _ => none

theorem linkOf?_inst :
    linkOf? f x (.inst d) = some c ↔ d.name = x ∧ (∃ b, f.lookup x = some (.inst b)) ∧
      f.lookup d.typeName = some (.control c) := by
  rw [linkOf?]
  by_cases hx : d.name = x
  · rw [if_pos hx]
    split
    · rename_i hb hc
      simp [hx, hb, hc]
    · rename_i hnone
      refine ⟨nofun, ?_⟩
      rintro ⟨-, ⟨b, hb⟩, hc⟩
      exact (hnone b c hb hc).elim
  · simp [hx]

def relinked (f : Frame) (link : String → Option ControlDecl)
    (q : Declaration × Option Diagnostic) (x : String) : Option ControlDecl :=
  (linkOf? f x q.1).or (link x)

/-- Names stand for the same things in both scopes, but for the values of constants. -/
structure UpToConstants (g g' : GlobalScope) : Prop where
  invalid : g.scope.invalid = g'.scope.invalid
  lookup : ∀ x b, (∀ k, b ≠ .constant k) →
    (g.scope.inner.lookup x = some b ↔ g'.scope.inner.lookup x = some b)

theorem Single.add_linked (h : g.Single) (link : String → Option ControlDecl)
    (q : Declaration × Option Diagnostic) :
    (g.linked link).add q = (g.addBare q).linked (relinked g.scope.inner link q) := by
  obtain ⟨d, why⟩ := q
  cases d with
  | constant d =>
    cases why with
    | some why => rfl
    | none =>
      rw [add, addBare, addConstant, addConstant, (h.alike link).constantValue]
      cases constantValue g.scope d with
      | error why => rfl
      | ok known => exact g.update_linked link d.name fun _ => rfl
  | inst d =>
    rw [add, addBare, addInstance, lookup_linked, lookup_linked]
    cases ht : g.scope.inner.lookup d.typeName with
    | none =>
      have hstay : relinked g.scope.inner link (.inst d, why) = link := by
        funext x
        simp [relinked, linkOf?, ht]
      rw [hstay]
      rcases g.scope.inner.lookup d.name with _ | b
      · rfl
      · cases b <;> rfl
    | some t =>
      by_cases hboth : ∃ b c, g.scope.inner.lookup d.name = some (.inst b) ∧ t = .control c
      · obtain ⟨b, c, hb, rfl⟩ := hboth
        have hlink : relinked g.scope.inner link (.inst d, why) =
            Function.update link d.name (some c) := by
          funext x
          rw [relinked, linkOf?, Function.update_apply]
          by_cases hx : d.name = x
          · subst hx
            rw [if_pos rfl, if_pos rfl, hb, ht]
            rfl
          · rw [if_neg hx, if_neg (Ne.symm hx), Option.none_or]
        rw [hlink, hb]
        exact h.relink hb link c
      · have hstay : relinked g.scope.inner link (.inst d, why) = link := by
          funext x
          cases hlink : linkOf? g.scope.inner x (.inst d) with
          | none => rw [relinked, hlink, Option.none_or]
          | some c =>
            obtain ⟨rfl, ⟨b, hb⟩, hc⟩ := linkOf?_inst.1 hlink
            exact absurd ⟨b, c, hb, Option.some.inj (ht.symm.trans hc)⟩ hboth
        rw [hstay]
        cases hb : g.scope.inner.lookup d.name with
        | none => cases t <;> rfl
        | some b => cases b <;> cases t <;> first | rfl | exact absurd ⟨_, _, hb, rfl⟩ hboth
  | struct | typedef | control | other => rfl

theorem Single.addBare (h : g.Single) (q : Declaration × Option Diagnostic) :
    (g.addBare q).Single := by
  unfold GlobalScope.addBare
  split
  · unfold addConstant
    split
    · exact h.update _ _
    · exact ⟨h.outer, h.nodup⟩
  · split <;> exact ⟨h.outer, h.nodup⟩
  · exact h

theorem lookup_update (f : Frame) (x y : String) (b : Binding) :
    (f.update x b).lookup y = if y = x then (f.lookup x).map fun _ => b else f.lookup y := by
  rw [Frame.lookup, Frame.update, Frame.lookup, Frame.lookup]
  dsimp only
  induction f.symbols with
  | nil => simp
  | cons q l ih =>
    rw [map_cons, lookup_cons, ih, lookup_cons, lookup_cons]
    grind

theorem UpToConstants.addBare {g₀ : GlobalScope}
    (hq : ∀ d, q = (.constant d, none) → ∃ k, g₀.scope.inner.lookup d.name = some (.constant k))
    (h : UpToConstants g₀ g) : UpToConstants g₀ (g.addBare q) := by
  unfold GlobalScope.addBare
  split
  · rename_i d
    obtain ⟨k, hk⟩ := hq d rfl
    unfold addConstant
    split
    · refine ⟨h.invalid, fun x b hb => ?_⟩
      rw [GlobalScope.update, lookup_update]
      by_cases hx : x = d.name
      · rw [if_pos hx, hx, hk]
        refine iff_of_false (fun heq => hb k (Option.some.inj heq).symm) fun heq => ?_
        obtain ⟨_, -, heq⟩ := Option.map_eq_some_iff.1 heq
        exact hb _ heq.symm
      · rw [if_neg hx, h.lookup x b hb]
    · exact ⟨h.invalid, h.lookup⟩
  · split <;> exact ⟨h.invalid, h.lookup⟩
  · exact h

theorem UpToConstants.linkOf?_eq (h : UpToConstants g g') (x : String) (d : Declaration) :
    linkOf? g.scope.inner x d = linkOf? g'.scope.inner x d := by
  cases d with
  | inst d =>
    ext c
    rw [linkOf?_inst, linkOf?_inst, h.lookup _ _ fun _ => Binding.noConfusion]
    refine and_congr_right fun _ => and_congr_left fun _ => exists_congr fun b => ?_
    exact h.lookup _ _ fun _ => Binding.noConfusion
  | _ => rfl

theorem Single.foldl_add_linked {g₀ : GlobalScope} {l : List (Declaration × Option Diagnostic)}
    (h : g.Single) (hsame : UpToConstants g₀ g)
    (hl : ∀ d, (.constant d, none) ∈ l → ∃ k, g₀.scope.inner.lookup d.name = some (.constant k))
    (link : String → Option ControlDecl) :
    (l.foldl GlobalScope.addBare g).Single ∧ UpToConstants g₀ (l.foldl GlobalScope.addBare g) ∧
      l.foldl add (g.linked link) =
        (l.foldl GlobalScope.addBare g).linked (l.foldl (relinked g₀.scope.inner) link) := by
  induction l generalizing g link with
  | nil => exact ⟨h, hsame, rfl⟩
  | cons q l ih =>
    have hrelinked : relinked g.scope.inner link q = relinked g₀.scope.inner link q := by
      funext x
      rw [relinked, relinked, hsame.linkOf?_eq]
    rw [foldl_cons, foldl_cons, foldl_cons, h.add_linked, hrelinked]
    refine ih (h.addBare q) (hsame.addBare fun d hd => hl d ?_) (fun d hd => hl d ?_) _
    · rw [hd]
      exact mem_cons_self
    · exact mem_cons_of_mem _ hd

theorem foldl_relinked (f : Frame) (l : List (Declaration × Option Diagnostic))
    (link : String → Option ControlDecl) (x : String) : l.foldl (relinked f) link x =
      ((l.map Prod.fst).filterMap (linkOf? f x)).getLast?.or (link x) := by
  induction l generalizing link with
  | nil => rfl
  | cons q l ih =>
    rw [foldl_cons, ih, relinked, map_cons]
    cases hq : linkOf? f x q.1 with
    | none => rw [filterMap_cons_none hq, Option.none_or]
    | some c =>
      rw [filterMap_cons_some hq, Option.some_or]
      cases hlast : ((l.map Prod.fst).filterMap (linkOf? f x)).getLast? with
      | none => rw [getLast?_eq_none_iff.1 hlast]; rfl
      | some c' => rw [getLast?_cons, hlast]; rfl

end GlobalScope

/-! ### The links of a program -/

namespace Program

variable {p : Program}

def declared (p : Program) : GlobalScope :=
  ⟨⟨⟨.global, "", p.owned.filterMap (bindingOf p.typeTable p.typeTable.structTypes),
    true⟩, [], p.typeTable.invalid⟩, p.ownership.filterMap Prod.snd ++ p.typeTable.errors⟩

def linkOf? (p : Program) (x : String) : Declaration → Option ControlDecl
  | .inst d => if d.name = x then p.ownedControls.find? fun c => c.name = d.typeName else none
  | _ => none

/-- The control of a top-level instance: the last instance of the name that has one decides. -/
def linked? (p : Program) (x : String) : Option ControlDecl :=
  (p.declarations.filterMap (p.linkOf? x)).getLast?

theorem single_declared (p : Program) : p.declared.Single := by
  refine ⟨rfl, ?_⟩
  have hkeys : p.declared.scope.inner.symbols.map Prod.fst =
      p.owned.filterMap fun d => d.declares?.map Prod.fst := by
    rw [declared, map_filterMap]
    refine filterMap_congr fun d _ => ?_
    cases d <;> rfl
  rw [hkeys]
  exact p.nodup_owned

theorem lookup_declared (hd : d ∈ p.owned)
    (hb : bindingOf p.typeTable p.typeTable.structTypes d = some (x, b)) :
    p.declared.scope.inner.lookup x = some b :=
  Assoc.lookup_of_mem p.single_declared.nodup (mem_filterMap.2 ⟨d, hd, hb⟩)

theorem lookup_declared_control :
    p.declared.scope.inner.lookup x = some (.control c) ↔
      p.ownedControls.find? (fun c => c.name = x) = some c := by
  constructor
  · intro h
    obtain ⟨d, hd, hb⟩ := mem_filterMap.1 (Assoc.mem_of_lookup h)
    have hc : c ∈ p.ownedControls ∧ c.name = x := by
      cases d <;> cases hb
      exact ⟨mem_filterMap.2 ⟨_, hd, rfl⟩, rfl⟩
    have hsome : (p.ownedControls.find? fun c => c.name = x).isSome := by
      rw [find?_isSome]
      exact ⟨c, hc.1, decide_eq_true hc.2⟩
    obtain ⟨c', hc'⟩ := Option.isSome_iff_exists.1 hsome
    have hname : c'.name = x := by simpa using find?_some hc'
    rw [hc', inj_on_of_nodup_map p.nodup_ownedControls (mem_of_find?_eq_some hc') hc.1
      (hname.trans hc.2.symm)]
  · intro h
    obtain ⟨d, hd, hc⟩ := mem_filterMap.1 (mem_of_find?_eq_some h)
    rw [Declaration.control?_eq_some.1 hc] at hd
    have hname : c.name = x := by simpa using find?_some h
    exact hname ▸ lookup_declared hd rfl

theorem declared_linked (p : Program) : p.declared.linked (fun _ => none) = p.declared := by
  have hsymbols : p.declared.scope.inner.symbols.map (fun q => (q.1, q.2.linked none)) =
      p.declared.scope.inner.symbols := by
    refine (map_congr_left fun q hq => ?_).trans (map_id _)
    obtain ⟨d, -, hb⟩ := mem_filterMap.1 hq
    cases d <;> cases hb <;> rfl
  rw [linked, hsymbols]

/-- The global scope before instances are linked. -/
def bare (p : Program) : GlobalScope := p.ownership.foldl addBare p.declared

theorem bare_spec (p : Program) : p.bare.Single ∧ GlobalScope.UpToConstants p.declared p.bare ∧
    p.globals = p.bare.linked
      (p.ownership.foldl (GlobalScope.relinked p.declared.scope.inner) fun _ => none) := by
  have hconstants : ∀ d, (.constant d, none) ∈ p.ownership →
      ∃ k, p.declared.scope.inner.lookup d.name = some (.constant k) :=
    fun d hd => ⟨none, lookup_declared (mem_owned.2 hd) rfl⟩
  obtain ⟨hsingle, hsame, hfold⟩ := p.single_declared.foldl_add_linked
    ⟨rfl, fun _ _ _ => Iff.rfl⟩ hconstants fun _ => none
  rw [p.declared_linked] at hfold
  exact ⟨hsingle, hsame, hfold⟩

theorem lookup_declared_inst (hx : (x, .inst c) ∈ p.bare.scope.inner.symbols) :
    ∃ c', p.declared.scope.inner.lookup x = some (.inst c') := by
  obtain ⟨hsingle, hsame, -⟩ := p.bare_spec
  exact ⟨c, (hsame.lookup x _ fun _ => Binding.noConfusion).2 (Assoc.lookup_of_mem hsingle.nodup hx)⟩

theorem globals_eq (p : Program) : p.globals = p.bare.linked p.linked? := by
  obtain ⟨-, -, hglobals⟩ := p.bare_spec
  refine hglobals.trans (linked_congr fun x c hx => ?_)
  obtain ⟨c', hc'⟩ := lookup_declared_inst hx
  rw [foldl_relinked, Option.or_none, linked?, p.ownership_eq,
    Declaration.map_fst_judged]
  refine congrArg List.getLast? (filterMap_congr fun d _ => ?_)
  cases d with
  | inst d =>
    ext c
    rw [linkOf?_inst, lookup_declared_control, linkOf?]
    by_cases hname : d.name = x
    · rw [if_pos hname]
      exact ⟨fun h => h.2.2, fun h => ⟨hname, ⟨c', hc'⟩, h⟩⟩
    · rw [if_neg hname]
      exact ⟨fun h => absurd h.1 hname, nofun⟩
  | _ => rfl

end Program

end ControlReach
