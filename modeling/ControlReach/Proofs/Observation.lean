import ControlReach.Proofs.SymbolicRun
import ControlReach.Proofs.Traversal

/-!
# Observations

At an error location the leaves of the variables in scope are bound to unknowns, one for each key.
-/

namespace ControlReach

open List

/-! ### Leaves -/

namespace SymValue

variable (v : Valuation String)

theorem leaves_term_datum (path : List String) (t : Term) :
    (t.datum v).leaves path = [(path, t.datum v)] := by
  cases h : t.sort with
  | bool => rw [Term.datum_of_bool h]; rfl
  | string => rw [Term.datum_of_string h]; rfl

mutual

theorem leaves_datum : ∀ (path : List String) (w : SymValue),
    (w.datum v).leaves path = (w.leaves path).map fun leaf => (leaf.1, leaf.2.datum v)
  | path, .term t => leaves_term_datum v path t
  | path, .struct fields => leavesOf_data path fields

theorem leavesOf_data : ∀ (path : List String) (fields : List (String × SymValue)),
    Datum.leavesOf path (data v fields) =
      (leavesOf path fields).map fun leaf => (leaf.1, leaf.2.datum v)
  | _, [] => rfl
  | path, (f, w) :: rest => by
    rw [data, Datum.leavesOf, leaves_datum (path ++ [f]) w, leavesOf_data path rest, leavesOf,
      map_append]

end

end SymValue

/-! ### Keys -/

/-- The leaves of the observed variables that a store holds, each under its key. -/
def Store.reported (s : Store) (observed : List (String × Variable)) : List (String × Term) :=
  observed.flatMap fun p =>
    match s.value? p.2 with
    | none => []
    | some w => (w.leaves []).map fun leaf => (observationKey p.1 leaf.1, leaf.2)

variable {key : String}

theorem Store.mem_reported {s : Store} :
    (key, t) ∈ s.reported observed ↔ ∃ x y w path, (x, y) ∈ observed ∧
      s.value? y = some w ∧ (path, t) ∈ w.leaves [] ∧ key = observationKey x path := by
  rw [Store.reported, mem_flatMap]
  constructor
  · rintro ⟨⟨x, y⟩, hxy, h⟩
    cases hw : s.value? y with
    | none => simp [hw] at h
    | some w =>
      simp only [hw, mem_map, Prod.mk.injEq] at h
      obtain ⟨⟨path, t'⟩, hleaf, rfl, rfl⟩ := h
      exact ⟨x, y, w, path, hxy, hw, hleaf, rfl⟩
  · rintro ⟨x, y, w, path, hxy, hw, hleaf, rfl⟩
    refine ⟨(x, y), hxy, ?_⟩
    simp only [hw, mem_map]
    exact ⟨(path, t), hleaf, rfl⟩

/-- Bind each key in turn to an unknown and each unknown to the terms of its key. -/
def bindKeys (target : Target) (bound : List (String × Symbol)) :
    List (String × Term) → List (String × Symbol) × List Term
  | [] => (bound, [])
  | (key, t) :: rest =>
    let sym := (bound.lookup key).getD ⟨target.id ++ "|" ++ key, t.sort⟩
    let (bound, equations) := bindKeys target (Assoc.setNew key sym bound) rest
    (bound, Term.mkEq (.symbol sym) t :: equations)

variable (target : Target)

theorem bindKeys_append (bound : List (String × Symbol))
    (l l' : List (String × Term)) : bindKeys target bound (l ++ l') =
      ((bindKeys target (bindKeys target bound l).1 l').1,
        (bindKeys target bound l).2 ++ (bindKeys target (bindKeys target bound l).1 l').2) := by
  induction l generalizing bound with
  | nil => rfl
  | cons p l ih => simp [bindKeys, ih]

theorem observeLeaves_eq_bindKeys (x : String) (bound : List (String × Symbol))
    (leaves : List (List String × Term)) : observeLeaves target x bound leaves =
      bindKeys target bound (leaves.map fun leaf => (observationKey x leaf.1, leaf.2)) := by
  induction leaves generalizing bound with
  | nil => rfl
  | cons leaf leaves ih => simp [observeLeaves, bindKeys, ih]

theorem observe_eq_bindKeys (s : Store) (bound : List (String × Symbol))
    (observed : List (String × Variable)) :
    observe target s bound observed = bindKeys target bound (s.reported observed) := by
  induction observed generalizing bound with
  | nil => rfl
  | cons p observed ih =>
    obtain ⟨x, y⟩ := p
    rw [Store.reported, flatMap_cons, bindKeys_append, observe]
    cases hw : s.value? y with
    | none => simpa only [bindKeys, nil_append, Store.reported, Prod.eta] using ih bound
    | some w => simp [observeLeaves_eq_bindKeys, ih, Store.reported]

theorem lookup_setNew_self (key : String) (sym : Symbol) (bound : List (String × Symbol)) :
    (Assoc.setNew key ((bound.lookup key).getD sym) bound).lookup key =
      some ((bound.lookup key).getD sym) := by
  rw [Assoc.setNew]
  cases h : bound.lookup key with
  | none => simp [lookup_append, h]
  | some s => simp [h]

theorem lookup_setNew_of_some {bound : List (String × Symbol)} (h : bound.lookup key' = some sym') :
    (Assoc.setNew key sym bound).lookup key' = some sym' := by
  rw [Assoc.setNew]
  split
  · exact h
  · rw [lookup_append, h, Option.some_or]

theorem mem_setNew {sym : Symbol} {bound : List (String × Symbol)} {p : String × Symbol}
    (h : p ∈ Assoc.setNew key sym bound) : p ∈ bound ∨ p = (key, sym) := by
  rw [Assoc.setNew] at h
  split at h
  · exact .inl h
  · exact (mem_append.1 h).imp_right mem_singleton.1

/-- Each key is bound once, to an unknown of its sort, and the equations equate each term with its
unknown. -/
structure KeysBound (target : Target) (bound bound' : List (String × Symbol))
    (reported : List (String × Term)) (equations : List Term) : Prop where
  kept : ∀ key sym, bound.lookup key = some sym → bound'.lookup key = some sym
  lookup : ∀ p ∈ reported, ∃ sym, bound'.lookup p.1 = some sym
  equations_eq : ∀ symbol : String → Symbol, (∀ p ∈ reported, bound'.lookup p.1 = some (symbol p.1)) →
    equations = reported.map fun p => Term.mkEq (.symbol (symbol p.1)) p.2
  made : ∀ p ∈ bound', p ∈ bound ∨
    ∃ t, (p.1, t) ∈ reported ∧ p.2 = ⟨target.id ++ "|" ++ p.1, t.sort⟩

theorem bindKeys_spec (bound : List (String × Symbol))
    (reported : List (String × Term)) :
    KeysBound target bound (bindKeys target bound reported).1 reported
      (bindKeys target bound reported).2 := by
  induction reported generalizing bound with
  | nil => exact ⟨fun _ _ h => h, by simp, by simp [bindKeys], fun _ h => .inl h⟩
  | cons p rest ih =>
    obtain ⟨key, t⟩ := p
    have hself := lookup_setNew_self key ⟨target.id ++ "|" ++ key, t.sort⟩ bound
    have h := ih (Assoc.setNew key ((bound.lookup key).getD ⟨target.id ++ "|" ++ key, t.sort⟩) bound)
    have hkey := h.kept _ _ hself
    refine ⟨fun k s hk => h.kept _ _ (lookup_setNew_of_some hk),
      forall_mem_cons.2 ⟨⟨_, hkey⟩, h.lookup⟩, fun symbol hsymbol => ?_, fun p hp => ?_⟩
    · obtain ⟨hhere, hrest⟩ := forall_mem_cons.1 hsymbol
      have hsym := Option.some.inj (hkey.symm.trans hhere)
      exact congrArg₂ cons (congrArg (fun sym => Term.mkEq (.symbol sym) t) hsym)
        (h.equations_eq symbol hrest)
    · rcases h.made p hp with hp | ⟨u, hu, hsym⟩
      · rcases mem_setNew hp with hp | rfl
        · exact .inl hp
        · cases hb : bound.lookup key with
          | none => exact .inr ⟨t, mem_cons_self, rfl⟩
          | some s => exact .inl (Assoc.mem_of_lookup hb)
      · exact .inr ⟨u, mem_cons_of_mem _ hu, hsym⟩

namespace KeysBound

variable {target : Target} {bound' : List (String × Symbol)}

variable (h : KeysBound target bound bound' reported equations)

include h

theorem exists_symbol :
    ∃ symbol : String → Symbol, (∀ p ∈ reported, bound'.lookup p.1 = some (symbol p.1)) ∧
      equations = reported.map fun p => Term.mkEq (.symbol (symbol p.1)) p.2 := by
  obtain ⟨symbol, hsymbol⟩ : ∃ symbol : String → Symbol,
      ∀ p ∈ reported, bound'.lookup p.1 = some (symbol p.1) := by
    refine ⟨fun key => (bound'.lookup key).getD ⟨key, .bool⟩, fun p hp => ?_⟩
    obtain ⟨sym, hsym⟩ := h.lookup p hp
    simp only [hsym, Option.getD_some]
  exact ⟨symbol, hsymbol, h.equations_eq symbol hsymbol⟩

theorem equation (key : String) (t : Term) (ht : (key, t) ∈ reported) :
    ∃ sym, bound'.lookup key = some sym ∧ Term.mkEq (.symbol sym) t ∈ equations := by
  obtain ⟨symbol, hsymbol, rfl⟩ := h.exists_symbol
  exact ⟨symbol key, hsymbol _ ht, mem_map_of_mem ht⟩

theorem term (eq : Term)
    (heq : eq ∈ equations) : ∃ key t sym, (key, t) ∈ reported ∧ bound'.lookup key = some sym ∧
      eq = Term.mkEq (.symbol sym) t := by
  obtain ⟨symbol, hsymbol, rfl⟩ := h.exists_symbol
  obtain ⟨p, hp, rfl⟩ := mem_map.1 heq
  exact ⟨p.1, p.2, symbol p.1, hp, hsymbol p hp, rfl⟩

theorem origin (key : String) (sym : Symbol)
    (hsym : bound'.lookup key = some sym) : (key, sym) ∈ bound ∨
      ∃ t, (key, t) ∈ reported ∧ sym = ⟨target.id ++ "|" ++ key, t.sort⟩ :=
  h.made (key, sym) (Assoc.mem_of_lookup hsym)

end KeysBound

theorem Passage.keysBound (c : Passage) (target : Target) :
    KeysBound target [] (c.outcome target).2 (c.store.reported target.observed)
      (observe target c.store [] target.observed).2 := by
  rw [outcome, observe_eq_bindKeys]
  exact bindKeys_spec target [] _

end ControlReach
