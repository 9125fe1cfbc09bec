import ControlReach.Proofs.Success
import ControlReach.Typing.Check

/-!
# Types from the context

A struct literal may take its type from the context or from its fields. Both ways agree, although
agreement of types is not transitive, so the sides of an equality may be exchanged.
-/

namespace ControlReach

open List

theorem Ty.names_of_agreesFields : ∀ {as bs}, agreesFields as bs = true →
    as.map Prod.fst = bs.map Prod.fst
  | [], [], _ => rfl
  | (_, _) :: _, (_, _) :: _, h => by
    simp only [agreesFields, Bool.and_eq_true, beq_iff_eq] at h
    rw [map_cons, map_cons, h.1.1, names_of_agreesFields h.2]
  | [], _ :: _, h | _ :: _, [], h => by simp [agreesFields] at h

namespace Scope

variable {s : Scope} {ty : Ty}

theorem typeFields_cons : s.typeFields ((f, e) :: rest) = .ok tys ↔
      ∃ t, s.typeOf none e = .ok t ∧ ∃ ts, s.typeFields rest = .ok ts ∧ (f, t) :: ts = tys := by
  simp only [typeFields, bind_eq_ok, pure_eq_ok]

theorem names_typeFields : ∀ {fields} {tys},
    s.typeFields fields = .ok tys → tys.map Prod.fst = fields.map Prod.fst
  | [], _, h => by
    cases h
    rfl
  | (f, e) :: rest, _, h => by
    obtain ⟨t, -, ts, hts, rfl⟩ := typeFields_cons.1 h
    rw [map_cons, map_cons, names_typeFields hts]

/-- A literal that has a type in a context has the type expected. -/
theorem eq_of_typeOf_literal : ∀ {e}, e.isStruct = true →
    s.typeOf (some want) e = .ok ty → ty = want
  | .paren inner _, he, h => eq_of_typeOf_literal (e := inner) he h
  | .struct fields loc, _, h => by
    by_cases hnodup : (fields.map Prod.fst).Nodup
    · cases want with simp only [typeOf, if_pos hnodup] at h
      | bool | string => cases h
      | struct name wanted =>
        split at h
        · obtain ⟨_, -, h⟩ := bind_eq_ok.1 h
          exact (Except.ok.inj h).symm
        · cases h
    · simp only [typeOf, if_neg hnodup] at h
      cases h

mutual

theorem agrees_typeOf_iff : ∀ e want,
    (∃ ty, s.typeOf (some want) e = .ok ty ∧ want.agrees ty = true) ↔
      ∃ ty, s.typeOf none e = .ok ty ∧ want.agrees ty = true
  | .paren inner _, want => agrees_typeOf_iff inner want
  | .struct fields loc, want => by
    by_cases hnodup : (fields.map Prod.fst).Nodup
    · simp only [typeOf, if_pos hnodup, bind_eq_ok, pure_eq_ok]
      cases want with
      | bool | string =>
        refine iff_of_false (by simp [reject]) ?_
        rintro ⟨_, ⟨tys, -, rfl⟩, hagree⟩
        cases hagree
      | struct name wanted =>
        have hanonymous : ∀ tys, Ty.agrees (.struct name wanted) (.struct none tys) =
            Ty.agreesFields wanted tys := fun tys => by simp [Ty.agrees, Ty.sameName]
        dsimp only
        split
        · rename_i hnames
          have hfields := checkFields_iff (.struct name wanted) loc fields wanted hnames
          simp only [bind_eq_ok, pure_eq_ok]
          constructor
          · rintro ⟨_, ⟨_, hcheck, rfl⟩, -⟩
            obtain ⟨tys, htys, hagree⟩ := hfields.1 hcheck
            exact ⟨_, ⟨tys, htys, rfl⟩, (hanonymous tys).trans hagree⟩
          · rintro ⟨_, ⟨tys, htys, rfl⟩, hagree⟩
            have hcheck := hfields.2 ⟨tys, htys, (hanonymous tys).symm.trans hagree⟩
            exact ⟨_, ⟨(), hcheck, rfl⟩, Ty.agrees_refl _⟩
        · rename_i hnames
          refine iff_of_false (by simp [reject]) ?_
          rintro ⟨_, ⟨tys, htys, rfl⟩, hagree⟩
          rw [hanonymous] at hagree
          exact hnames ((names_typeFields htys).symm.trans (Ty.names_of_agreesFields hagree).symm)
    · simp only [typeOf, if_neg hnodup]
  | .bool _ _, _ | .text _ _, _ | .var _ _, _ | .field _ _ _, _ | .not _ _, _ | .and _ _ _, _
  | .or _ _ _, _ | .equal _ _ _ _, _ | .call _ _ _, _ | .other _ _, _ => by simp only [typeOf]

theorem checkFields_iff (struct : Ty) (loc : Option Location) : ∀ fields wanted,
    fields.map Prod.fst = wanted.map Prod.fst →
    (s.checkFields struct loc fields wanted = .ok () ↔
      ∃ tys, s.typeFields fields = .ok tys ∧ Ty.agreesFields wanted tys = true)
  | [], [], _ => iff_of_true (by simp [checkFields]) ⟨[], rfl, rfl⟩
  | (f, e) :: rest, (g, want) :: wanted, h => by
    obtain ⟨rfl, hrest⟩ := cons.inj h
    have hhere := agrees_typeOf_iff e want
    have hthere := checkFields_iff struct loc rest wanted hrest
    rw [checkFields, bind_eq_ok]
    constructor
    · rintro ⟨ty, hty, hcheck⟩
      split at hcheck
      · rename_i hagree
        obtain ⟨t, ht, hagree⟩ := hhere.1 ⟨ty, hty, hagree⟩
        obtain ⟨ts, hts, hagrees⟩ := hthere.1 hcheck
        refine ⟨_, typeFields_cons.2 ⟨t, ht, ts, hts, rfl⟩, ?_⟩
        simp [Ty.agreesFields, hagree, hagrees]
      · cases hcheck
    · rintro ⟨_, htys, hagree⟩
      obtain ⟨t, ht, ts, hts, rfl⟩ := typeFields_cons.1 htys
      simp only [Ty.agreesFields, Bool.and_eq_true] at hagree
      obtain ⟨ty, hty, hty'⟩ := hhere.2 ⟨t, ht, hagree.1.2⟩
      exact ⟨ty, hty, by rw [if_pos hty', hthere.2 ⟨ts, hts, hagree.2⟩]⟩
  | [], _ :: _, h | _ :: _, [], h => by cases h

end

theorem exists_agrees_comm {A B : Ty → Prop} : (∃ t u, A t ∧ B u ∧ t.agrees u = true) ↔
    ∃ t u, B t ∧ A u ∧ t.agrees u = true := by
  constructor
  all_goals
    rintro ⟨t, u, ht, hu, hagree⟩
    exact ⟨u, t, hu, ht, by rwa [Ty.agrees_comm]⟩

/-- The sides of an equality have types of their own that agree. -/
theorem typeOf_equal_iff (expected : Option Ty) (negated : Bool) (a b : Expr)
    (loc : Option Location) : (∃ ty, s.typeOf expected (.equal negated a b loc) = .ok ty) ↔
      ∃ t u, s.typeOf none a = .ok t ∧ s.typeOf none b = .ok u ∧ t.agrees u = true := by
  have hsides : ∀ a b, (∃ ty, (do
      let ty ← s.typeOf none a
      wantSame negated ty (← s.typeOf (some ty) b) loc) = .ok ty) ↔
      ∃ t u, s.typeOf none a = .ok t ∧ s.typeOf none b = .ok u ∧ t.agrees u = true := by
    intro a b
    constructor
    · rintro ⟨_, h⟩
      obtain ⟨t, ht, h⟩ := bind_eq_ok.1 h
      obtain ⟨u, hu, h⟩ := bind_eq_ok.1 h
      rw [wantSame] at h
      split at h
      · rename_i hagree
        obtain ⟨u, hu, hagree⟩ := (agrees_typeOf_iff b t).1 ⟨u, hu, hagree⟩
        exact ⟨t, u, ht, hu, hagree⟩
      · cases h
    · rintro ⟨t, u, ht, hu, hagree⟩
      obtain ⟨u, hu, hagree⟩ := (agrees_typeOf_iff b t).2 ⟨u, hu, hagree⟩
      exact ⟨.bool, bind_eq_ok.2 ⟨t, ht, bind_eq_ok.2 ⟨u, hu, if_pos hagree⟩⟩⟩
  rw [typeOf]
  split
  · exact (hsides b a).trans exists_agrees_comm
  · exact hsides a b

/-- A struct literal has a type in a context exactly if its own type agrees with that of the
context. The sides of an equality may be exchanged. -/
theorem typeOf_in_context (s : Scope) :
    (∀ e : Expr, e.isStruct = true → ∀ name fields,
      (∃ ty, s.typeOf (some (.struct name fields)) e = .ok ty) ↔
        ∃ ty, s.typeOf none e = .ok ty ∧ (Ty.struct name fields).agrees ty = true) ∧
    ∀ expected negated a b loc loc',
      (∃ ty, s.typeOf expected (.equal negated a b loc) = .ok ty) ↔
        ∃ ty, s.typeOf expected (.equal negated b a loc') = .ok ty := by
  refine ⟨fun e he name fields => ?_, fun expected negated a b loc loc' => ?_⟩
  · rw [← agrees_typeOf_iff]
    refine ⟨fun ⟨ty, hty⟩ => ⟨ty, hty, ?_⟩, fun ⟨ty, hty, _⟩ => ⟨ty, hty⟩⟩
    rw [eq_of_typeOf_literal he hty]
    exact Ty.agrees_refl _
  · rw [typeOf_equal_iff, typeOf_equal_iff, exists_agrees_comm]

def nestedLiteral : Expr :=
  .paren (.struct [("p", .struct [("b", .bool true none)] none), ("t", .text "k" none)] none) none

theorem typeOf_in_context_nested :
    let s : Scope := ⟨.empty .global "", [], []⟩
    let fields : List (String × Ty) := [("p", .struct (some "B") [("b", .bool)]), ("t", .string)]
    nestedLiteral.isStruct = true ∧
      (∃ ty, s.typeOf (some (.struct (some "P") fields)) nestedLiteral = .ok ty) ∧
      ¬ ∃ ty, s.typeOf (some (.struct (some "P") fields.reverse)) nestedLiteral = .ok ty := by
  intro s fields
  have htype : s.typeOf none nestedLiteral =
      .ok (.struct none [("p", .struct none [("b", .bool)]), ("t", .string)]) := rfl
  have hcontext := (typeOf_in_context s).1 nestedLiteral rfl (some "P")
  refine ⟨rfl, (hcontext fields).2 ⟨_, htype, by decide⟩, fun h => ?_⟩
  obtain ⟨ty, hty, hagree⟩ := (hcontext fields.reverse).1 h
  cases htype.symm.trans hty
  exact absurd hagree (by decide)

end Scope

end ControlReach
