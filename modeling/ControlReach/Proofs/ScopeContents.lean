import ControlReach.Flow.Elaborate
import ControlReach.Proofs.Success
import ControlReach.Typing.Global

/-!
# What the names of a scope stand for

Names are looked up from the innermost frame outwards and declared in the innermost. So a property
of all that is declared holds of all that is found.
-/

namespace ControlReach

open List

theorem Frame.declare_eq_ok {f : Frame} (h : f.declare x b loc = .ok f') :
    x ∉ f.symbols.map Prod.fst ∧ f' = { f with symbols := f.symbols ++ [(x, b)] } := by
  rw [declare] at h
  split at h
  · cases h
  · rename_i hnone
    cases h
    exact ⟨Assoc.lookup_eq_none_iff.1 hnone, rfl⟩

namespace Scope

variable {s : Scope}

theorem declare_eq_ok (h : s.declare x b loc = .ok s') : x ∉ s.inner.symbols.map Prod.fst ∧
    s' = { s with inner := { s.inner with symbols := s.inner.symbols ++ [(x, b)] } } := by
  obtain ⟨f, hf, rfl⟩ := map_eq_ok.1 h
  obtain ⟨hx, rfl⟩ := Frame.declare_eq_ok hf
  exact ⟨hx, rfl⟩

theorem find?_of_resolveWith (h : s.resolveWith x loc = .ok (b, home)) :
    s.find? x = some (b, home) := by
  unfold resolveWith at h
  split at h
  · cases h
    assumption
  · cases h

theorem resolve_eq (s : Scope) (x : String) (loc : Option Location) : s.resolve x loc =
      match s.lookup x with | some b => .ok b | none => reject (.undeclared x) loc := by
  rw [resolve, resolveWith, lookup]
  cases s.find? x <;> rfl

theorem resolve_eq_ok : s.resolve x loc = .ok b ↔ s.lookup x = some b := by
  rw [resolve_eq]
  cases s.lookup x <;> simp [reject]

theorem resolveType_named :
    s.resolveType (.named x loc) = .ok ty ↔
      s.lookup x = some (.type (some ty)) ∧ s.invalid? x (some ty) = none := by
  rw [resolveType, resolve_eq]
  cases s.lookup x with
  | none => simp [reject, bind, Except.bind]
  | some b =>
    cases b with
    | type known =>
      cases known with
      | none => cases hinvalid : s.invalid? x none <;> simp [hinvalid, reject, bind, Except.bind]
      | some ty' =>
        cases hinvalid : s.invalid? x (some ty') with
        | none =>
          simp only [bind, Except.bind, hinvalid, pure, Except.pure, Except.ok.injEq]
          constructor
          · rintro rfl
            exact ⟨rfl, hinvalid⟩
          · rintro ⟨⟨⟩, -⟩
            rfl
        | some why =>
          simp only [bind, Except.bind, hinvalid, reject]
          constructor
          · rintro ⟨⟩
          · rintro ⟨⟨⟩, hnone⟩
            cases hinvalid.symm.trans hnone
    | _ => simp [reject, bind, Except.bind]

theorem place_eq_ok (h : s.place e = .ok (v, path, ty)) :
    ∃ x xloc, e.access? = some (x, xloc, path) ∧
      s.resolve x xloc = .ok (.variable v) ∧ v.readOnly = false ∧ s.typeOf none e = .ok ty := by
  rw [Scope.place] at h
  split at h
  · cases h
  · rename_i x xloc path' haccess
    obtain ⟨b, hb, h⟩ := bind_eq_ok.1 h
    split at h
    · cases h
    · split at h
      · cases h
      · rename_i hwritable
        obtain ⟨t, ht, h⟩ := bind_eq_ok.1 h
        cases h
        exact ⟨x, xloc, haccess, hb, by simpa using hwritable, ht⟩
    · cases h

theorem rootFrame_mem (inner : Frame) (outer : List Frame) :
    rootFrame inner outer ∈ inner :: outer := by
  induction outer generalizing inner with
  | nil => exact mem_cons_self
  | cons f rest ih => exact mem_cons_of_mem _ (ih f)

theorem exists_of_find? (h : s.find? x = some (b, home)) : ∃ before f after,
    s.frames = before ++ f :: after ∧ (x, b) ∈ f.symbols ∧
      (∀ f' ∈ before, x ∉ f'.symbols.map Prod.fst) ∧ home = ⟨f, after, s.invalid⟩ := by
  have hfrom : ∀ (outer : List Frame) (inner f : Frame) (after : List Frame),
      findFrom x inner outer = some (b, f, after) → ∃ before,
        inner :: outer = before ++ f :: after ∧ (x, b) ∈ f.symbols ∧
          ∀ f' ∈ before, x ∉ f'.symbols.map Prod.fst := by
    intro outer
    induction outer with
    | nil =>
      intro inner f after h
      obtain ⟨b', hb', heq⟩ := Option.map_eq_some_iff.1 h
      cases heq
      exact ⟨[], rfl, Assoc.mem_of_lookup hb', forall_mem_nil _⟩
    | cons g outer ih =>
      intro inner f after h
      rw [findFrom] at h
      split at h
      · rename_i b' hb'
        cases h
        exact ⟨[], rfl, Assoc.mem_of_lookup hb', forall_mem_nil _⟩
      · rename_i hnone
        obtain ⟨before, hframes, hmem, hbefore⟩ := ih g f after h
        exact ⟨inner :: before, congrArg (inner :: ·) hframes, hmem,
          forall_mem_cons.2 ⟨Assoc.lookup_eq_none_iff.1 hnone, hbefore⟩⟩
  obtain ⟨⟨b', f, after⟩, hfind, heq⟩ := Option.map_eq_some_iff.1 h
  cases heq
  obtain ⟨before, hframes, hmem, hbefore⟩ := hfrom _ _ _ _ hfind
  exact ⟨before, f, after, hframes, hmem, hbefore, rfl⟩

theorem not_mem_of_find?_eq_none (h : s.find? x = none) :
    ∀ f ∈ s.frames, x ∉ f.symbols.map Prod.fst := by
  have hfrom : ∀ (outer : List Frame) (inner : Frame), findFrom x inner outer = none →
      ∀ f ∈ inner :: outer, x ∉ f.symbols.map Prod.fst := by
    intro outer
    induction outer with
    | nil =>
      intro inner h f hf
      rw [mem_singleton.1 hf]
      exact Assoc.lookup_eq_none_iff.1 (Option.map_eq_none_iff.1 h)
    | cons g outer ih =>
      intro inner h
      rw [findFrom] at h
      split at h
      · cases h
      · rename_i hnone
        exact forall_mem_cons.2 ⟨Assoc.lookup_eq_none_iff.1 hnone, ih g h⟩
  exact hfrom s.outer s.inner (Option.map_eq_none_iff.1 h)

/-! ### Variables in scope -/

variable {q : String × Variable}

theorem mem_of_mem_addVisible (h : q ∈ addVisible seen symbols) :
    q ∈ seen ∨ (q.1, .variable q.2) ∈ symbols := by
  fun_induction addVisible seen symbols with
  | case1 => exact .inl h
  | case2 seen y v rest ih =>
    rcases ih h with h | h
    · rcases mem_append.1 h with h | h
      · exact .inl (mem_of_mem_filter h)
      · rw [mem_singleton.1 h]
        exact .inr mem_cons_self
    · exact .inr (mem_cons_of_mem _ h)
  | case3 seen p rest _ ih => exact (ih h).imp_right (mem_cons_of_mem _)

theorem mem_of_mem_visible (h : q ∈ s.visible) :
    ∃ f ∈ s.frames, (q.1, .variable q.2) ∈ f.symbols := by
  rw [visible] at h
  generalize s.frames = frames at h ⊢
  induction frames with
  | nil => cases h
  | cons f frames ih =>
    rcases mem_of_mem_addVisible h with h | h
    · obtain ⟨g, hg, h⟩ := ih h
      exact ⟨g, mem_cons_of_mem _ hg, h⟩
    · exact ⟨f, mem_cons_self, h⟩

theorem nodup_addVisible {seen : List (String × Variable)} (h : (seen.map Prod.fst).Nodup) :
    ((addVisible seen symbols).map Prod.fst).Nodup := by
  fun_induction addVisible seen symbols with
  | case1 => exact h
  | case2 seen y v rest ih =>
    refine ih ?_
    rw [map_append, nodup_append]
    refine ⟨h.sublist (filter_sublist.map _), by simp, fun z hz z' hz' => ?_⟩
    obtain ⟨q, hq, rfl⟩ := mem_map.1 hz
    rw [mem_singleton.1 hz']
    simpa using (mem_filter.1 hq).2
  | case3 _ _ _ _ ih => exact ih h

theorem nodup_visible (s : Scope) : (s.visible.map Prod.fst).Nodup := by
  rw [visible]
  induction s.frames with
  | nil => exact nodup_nil
  | cons f frames ih => exact nodup_addVisible ih

/-! ### Properties of what is declared -/

def Each (P : String → Binding → Prop) (s : Scope) : Prop :=
  ∀ f ∈ s.frames, ∀ q ∈ f.symbols, P q.1 q.2

namespace Each

variable {P : String → Binding → Prop}

variable (h : s.Each P)

include h

theorem imp (hPQ : ∀ x b, P x b → Q x b) : s.Each Q :=
  fun f hf q hq => hPQ _ _ (h f hf q hq)

theorem find? (hx : s.find? x = some (b, home)) : P x b ∧ home.Each P := by
  obtain ⟨before, f, after, hframes, hmem, -, rfl⟩ := exists_of_find? hx
  have hsub : ∀ g ∈ f :: after, g ∈ s.frames := fun g hg => hframes ▸ mem_append_right _ hg
  exact ⟨h f (hsub f mem_cons_self) _ hmem, fun g hg => h g (hsub g hg)⟩

theorem lookup (hx : s.lookup x = some b) : P x b := by
  obtain ⟨⟨b', home⟩, hfind, rfl⟩ := Option.map_eq_some_iff.1 hx
  exact (h.find? hfind).1

theorem resolve (hx : s.resolve x loc = .ok b) : P x b := h.lookup (resolve_eq_ok.1 hx)

theorem enter (kind : FrameKind) (name : String) : (s.enter kind name).Each P :=
  forall_mem_cons.2 ⟨forall_mem_nil _, h⟩

theorem declare (hb : P x b) (hs : s.declare x b loc = .ok s') : s'.Each P := by
  obtain ⟨-, rfl⟩ := declare_eq_ok hs
  obtain ⟨hinner, houter⟩ := forall_mem_cons.1 h
  exact forall_mem_cons.2 ⟨forall_mem_append.2 ⟨hinner, forall_mem_singleton.2 hb⟩, houter⟩

theorem root : s.root.Each P := by
  intro f hf
  obtain rfl := mem_singleton.1 hf
  exact h _ (rootFrame_mem _ _)

theorem visible (hq : q ∈ s.visible) : P q.1 (.variable q.2) := by
  obtain ⟨f, hf, hmem⟩ := mem_of_mem_visible hq
  exact h f hf _ hmem

end Each

end Scope

theorem Scope.Each.update {P : String → Binding → Prop} {g : GlobalScope} (h : g.scope.Each P)
    (hb : P x b) : (g.update x b).scope.Each P := by
  obtain ⟨hinner, houter⟩ := forall_mem_cons.1 h
  refine forall_mem_cons.2 ⟨fun p hp => ?_, houter⟩
  obtain ⟨q, hq, rfl⟩ := mem_map.1 hp
  split
  · exact hb
  · exact hinner q hq

/-- A declaration settles a constant, links an instance, or leaves the scope as it is. -/
theorem GlobalScope.add_cases (g : GlobalScope) (q : Declaration × Option Diagnostic) :
    (g.add q).scope = g.scope ∨
    (∃ d known, q.1 = .constant d ∧ constantValue g.scope d = .ok known ∧
      (g.add q).scope = (g.update d.name (.constant (some known))).scope) ∨
    ∃ d c, q.1 = .inst d ∧ g.scope.inner.lookup d.typeName = some (.control c) ∧
      (g.add q).scope = (g.update d.name (.inst (some c))).scope := by
  unfold add
  split
  · unfold addConstant
    split
    · exact .inr (.inl ⟨_, _, rfl, ‹_›, rfl⟩)
    · exact .inl rfl
  · unfold addInstance
    split
    · exact .inr (.inr ⟨_, _, rfl, ‹_›, rfl⟩)
    · exact .inl rfl
    · exact .inl rfl
  · exact .inl rfl

theorem GlobalScope.constantValue_eq_ok (h : constantValue s d = .ok known) :
    s.resolveType d.type = .ok known.1 ∧ s.lowerAs known.1 d.value d.loc = .ok known.2 := by
  obtain ⟨ty, hty, h⟩ := bind_eq_ok.1 h
  obtain ⟨e, he, h⟩ := bind_eq_ok.1 h
  cases h
  exact ⟨hty, he⟩

theorem Elaborate.resolveAction_eq_ok (h : resolveAction s ref = .ok (d, q, home)) :
    s.find? ref.name = some (.action d q, home) := by
  obtain ⟨⟨b, home'⟩, hfind, h⟩ := bind_eq_ok.1 h
  cases b with
  | action d' q' =>
    cases pure_eq_ok.1 h
    exact Scope.find?_of_resolveWith hfind
  | _ => cases h

end ControlReach
