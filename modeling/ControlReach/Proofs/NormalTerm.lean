import ControlReach.Proofs.TermMeaning
import Mathlib.Data.List.Induction
import Mathlib.Data.List.Nodup

/-!
# Normal forms of terms

The constructors leave nothing to simplify. So opening one level of nesting opens all of them, and
the arguments of a connective may come at once or in groups.
-/

namespace ControlReach.Term

open List

variable {unit : Bool} {a b : Term} {as kept : List Term}

/-! ### Gathering arguments -/

theorem gather_append (unit : Bool) (kept l m : List Term) :
    gather unit kept (l ++ m) = (gather unit kept l).bind (gather unit · m) := by
  fun_induction gather unit kept l with
  | case1 => rfl
  | case2 => simp [gather]
  | case3 kept a rest h h' ih => rw [cons_append, gather, if_neg h, if_pos h', ih]
  | case4 kept a rest h h' ih => rw [cons_append, gather, if_neg h, if_neg h', ih]

theorem nodup_gather (hkept : kept.Nodup) (h : gather unit kept l = some k) : k.Nodup := by
  fun_induction gather unit kept l with
  | case1 => cases h; exact hkept
  | case2 => cases h
  | case3 _ _ _ _ _ ih => exact ih hkept h
  | case4 kept a rest _ hne ih =>
    exact ih (concat_eq_append ▸ hkept.concat fun ha => hne (.inr ha)) h

theorem ne_bool_of_mem_gather (h : gather unit [] l = some k) (ha : a ∈ k) (c : Bool) :
    a ≠ .bool c := by
  rintro rfl
  obtain ⟨hl, hne⟩ : .bool c ∈ l ∧ Term.bool c ≠ .bool unit := by
    simpa using (mem_gather_iff h (.bool c)).1 ha
  have hc : c = !unit := by
    cases c <;> cases unit <;> simp_all
  rw [gather_eq_none_iff.2 (hc ▸ hl)] at h
  cases h

theorem gather_gather (h : gather unit [] l = some k) (kept : List Term) :
    gather unit kept l = gather unit kept k := by
  induction l using reverseRecOn generalizing k with
  | nil => cases h; rfl
  | append_singleton l a ih =>
    rw [gather_append, Option.bind_eq_some_iff] at h
    obtain ⟨k₀, hk₀, hk⟩ := h
    rw [gather_append, ih hk₀]
    simp only [gather] at hk
    split at hk
    · cases hk
    · rename_i hne
      split at hk
      · rename_i hold
        cases hk
        cases hg : gather unit kept k with
        | none => rfl
        | some m =>
          have hmem : a = .bool unit ∨ a ∈ m :=
            hold.imp_right fun ha =>
              (mem_gather_iff hg a).2 (.inr ⟨ha, ne_bool_of_mem_gather hk₀ ha unit⟩)
          simp [gather, hne, hmem]
      · cases hk
        rw [gather_append]

/-! ### Normal terms -/

/-- An argument of a connective: not a constant, and not of the same connective. -/
def IsPart (unit : Bool) (a : Term) : Prop := (∀ c, a ≠ .bool c) ∧ ∀ as, a ≠ wrap unit as

/-- At least two different arguments of a connective. -/
def Simplified (unit : Bool) (as : List Term) : Prop :=
  2 ≤ as.length ∧ as.Nodup ∧ ∀ a ∈ as, IsPart unit a

mutual

/-- Nothing can be simplified, outside the arguments of an "exactly one" constraint. -/
def Normal : Term → Prop
  | .bool _ | .text _ | .symbol _ | .one _ => True
  | .not a => Normal a ∧ (∀ b, a ≠ .not b) ∧ ∀ c, a ≠ .bool c
  | .and as => NormalAll as ∧ Simplified true as
  | .or as => NormalAll as ∧ Simplified false as
  | .eq a b => Normal a ∧ Normal b ∧ a ≠ b ∧ (∀ c, a ≠ .bool c) ∧ (∀ c, b ≠ .bool c) ∧
    (a.isConstant && b.isConstant) = false

def NormalAll : List Term → Prop
  | [] => True
  | a :: as => Normal a ∧ NormalAll as

end

theorem normalAll_iff : NormalAll as ↔ ∀ a ∈ as, Normal a := by
  induction as with
  | nil => simp [NormalAll]
  | cons a as ih => simp [NormalAll, ih]

theorem normal_wrap : Normal (wrap unit as) ↔ (∀ a ∈ as, Normal a) ∧ Simplified unit as := by
  cases unit <;> simp only [wrap, Normal, normalAll_iff]

theorem parts_bool (unit c : Bool) : parts unit (.bool c) = [.bool c] := by
  cases unit <;> rfl

theorem Normal.of_mem_parts (ha : Normal a) (hb : b ∈ parts unit a) :
    Normal b ∧ ∀ as, b ≠ wrap unit as := by
  by_cases h : ∃ as, a = wrap unit as
  · obtain ⟨as, rfl⟩ := h
    rw [parts_wrap] at hb
    obtain ⟨hall, -, -, hparts⟩ := normal_wrap.1 ha
    exact ⟨hall b hb, (hparts b hb).2⟩
  · have hne : ∀ as, a ≠ wrap unit as := fun as e => h ⟨as, e⟩
    rw [parts_of_ne hne, mem_singleton] at hb
    exact hb ▸ ⟨ha, hne⟩

section

variable (has : ∀ a ∈ as, Normal a)

include has

theorem mem_parts_of_gather (h : gather unit [] (as.flatMap (parts unit)) = some k) (ha : a ∈ k) :
    Normal a ∧ IsPart unit a := by
  obtain ⟨hmem, -⟩ : a ∈ as.flatMap (parts unit) ∧ a ≠ .bool unit := by
    simpa using (mem_gather_iff h a).1 ha
  obtain ⟨b, hb, hab⟩ := mem_flatMap.1 hmem
  obtain ⟨hnormal, hne⟩ := (has b hb).of_mem_parts hab
  exact ⟨hnormal, ne_bool_of_mem_gather h ha, hne⟩

theorem Normal.connect : Normal (connect unit as) := by
  unfold Term.connect
  split
  · trivial
  · trivial
  · rename_i a hk
    exact (mem_parts_of_gather has hk mem_cons_self).1
  · rename_i k hnil hone hk
    refine normal_wrap.2 ⟨fun a ha => (mem_parts_of_gather has hk ha).1, ?_,
      nodup_gather nodup_nil hk, fun a ha => (mem_parts_of_gather has hk ha).2⟩
    match k, hnil, hone with
    | [], hnil, _ => exact absurd rfl hnil
    | [a], _, hone => exact absurd rfl (hone a)
    | _ :: _ :: _, _, _ => simp

theorem Normal.mkAnd : Normal (mkAnd as) :=
  mkAnd_eq_connect as ▸ Normal.connect has

theorem Normal.mkOr : Normal (mkOr as) :=
  mkOr_eq_connect as ▸ Normal.connect has

end

theorem Normal.mkNot (ha : Normal a) : Normal (mkNot a) := by
  fun_cases Term.mkNot a with
  | case1 => trivial
  | case2 => exact ha.1
  | case3 _ hbool hnot => exact ⟨ha, hnot, hbool⟩

theorem Normal.mkEq (ha : Normal a) (hb : Normal b) : Normal (mkEq a b) := by
  fun_cases Term.mkEq a b with
  | case1 | case2 => trivial
  | case3 => exact hb
  | case4 => exact hb.mkNot
  | case5 => exact ha
  | case6 => exact ha.mkNot
  | case7 =>
    rename_i hleft hright hne hconst
    exact ⟨ha, hb, hne, hleft, hright, Bool.not_eq_true _ ▸ hconst⟩

/-- Groups of arguments may be connected first. -/
theorem connect_connect (xs : List Term) (hys : ∀ a ∈ ys, Normal a) :
    connect unit (xs ++ connect unit ys :: zs) = connect unit (xs ++ ys ++ zs) := by
  have hgather : ∀ kept, gather unit kept (parts unit (connect unit ys)) =
      gather unit kept (ys.flatMap (parts unit)) := by
    intro kept
    unfold connect
    split
    · rename_i hk
      rw [gather_eq_none_iff.2, gather_eq_none_iff.2 (gather_eq_none_iff.1 hk)]
      rw [parts_bool]
      exact mem_singleton_self _
    · rename_i hk
      rw [gather_gather hk, parts_bool]
      cases unit <;> simp [gather]
    · rename_i a hk
      rw [gather_gather hk, parts_of_ne (mem_parts_of_gather hys hk mem_cons_self).2.2]
    · rename_i hk
      rw [gather_gather hk, parts_wrap]
  have hall : gather unit [] ((xs ++ connect unit ys :: zs).flatMap (parts unit)) =
      gather unit [] ((xs ++ ys ++ zs).flatMap (parts unit)) := by
    simp only [flatMap_append, flatMap_cons, append_assoc, gather_append, hgather]
  rw [connect, hall]
  rfl

/-! ### Terms put together from unknowns and constants -/

/-- The terms that the constructors give. -/
inductive Built : Term → Prop
  | bool (b : Bool) : Built (.bool b)
  | text (s : String) : Built (.text s)
  | symbol (s : Symbol) : Built (.symbol s)
  | not {t} : Built t → Built (mkNot t)
  | and {ts} : (∀ t ∈ ts, Built t) → Built (mkAnd ts)
  | or {ts} : (∀ t ∈ ts, Built t) → Built (mkOr ts)
  | eq {t u} : Built t → Built u → Built (mkEq t u)
  | one {ts} : (∀ t ∈ ts, Built t) → Built (mkOne ts)

theorem Built.normal (h : Built a) : Normal a := by
  induction h with
  | bool | text | symbol => trivial
  | not _ ih => exact ih.mkNot
  | and _ ih => exact .mkAnd ih
  | or _ ih => exact .mkOr ih
  | eq _ _ iha ihb => exact iha.mkEq ihb
  | one _ ih =>
    unfold mkOne
    split
    · trivial
    · exact ih _ mem_cons_self
    · trivial

/-- A part of a term that is not inside an "exactly one" constraint. -/
inductive Part (a : Term) : Term → Prop
  | refl : Part a a
  | not {t} : Part a t → Part a (.not t)
  | and {t ts} : t ∈ ts → Part a t → Part a (.and ts)
  | or {t ts} : t ∈ ts → Part a t → Part a (.or ts)
  | left {t u} : Part a t → Part a (.eq t u)
  | right {t u} : Part a u → Part a (.eq t u)

/-- Nothing can be simplified at the top of a term. -/
def Reduced : Term → Prop
  | .bool _ | .text _ | .symbol _ | .one _ => True
  | .not a => a.isConstant = false ∧ ∀ b, a ≠ .not b
  | .and as => Simplified true as
  | .or as => Simplified false as
  | .eq a b => a ≠ b ∧ (∀ c, a ≠ .bool c ∧ b ≠ .bool c) ∧ (a.isConstant && b.isConstant) = false

theorem Part.normal (h : Part a b) (hn : Normal b) (hw : b.WellSorted) :
    Normal a ∧ a.WellSorted := by
  induction h with
  | refl => exact ⟨hn, hw⟩
  | not _ ih => exact ih hn.1 hw.2
  | and hb _ ih | or hb _ ih =>
    exact ih (normalAll_iff.1 hn.1 _ hb) (wellSortedAll_iff.1 hw _ hb).2
  | left _ ih => exact ih hn.1 hw.2.1
  | right _ ih => exact ih hn.2.1 hw.2.2

theorem Normal.reduced (hn : Normal a) (hw : a.WellSorted) : Reduced a := by
  cases a with
  | bool | text | symbol | one => trivial
  | and | or => exact hn.2
  | eq => exact ⟨hn.2.2.1, fun c => ⟨hn.2.2.2.1 c, hn.2.2.2.2.1 c⟩, hn.2.2.2.2.2⟩
  | not a =>
    refine ⟨?_, hn.2.1⟩
    -- a string under a negation would not be well-sorted
    cases a with
    | bool c => exact absurd rfl (hn.2.2 c)
    | text => cases hw.1
    | symbol | not | and | or | eq | one => rfl

/-- Built terms are simplified at all parts, and a group of arguments may be combined first. -/
theorem reduced_of_built : (∀ t, Built t → t.WellSorted → ∀ a, Part a t → Reduced a) ∧
    ∀ xs ys zs, (∀ a ∈ xs ++ ys ++ zs, Built a ∧ a.WellSorted) →
      mkAnd (xs ++ mkAnd ys :: zs) = mkAnd (xs ++ ys ++ zs) ∧
      mkOr (xs ++ mkOr ys :: zs) = mkOr (xs ++ ys ++ zs) := by
  constructor
  · intro t ht hw a ha
    obtain ⟨hnormal, hsorted⟩ := ha.normal ht.normal hw
    exact hnormal.reduced hsorted
  · intro xs ys zs h
    have hys : ∀ a ∈ ys, Normal a := fun a ha => (h a (by simp [ha])).1.normal
    simp only [mkAnd_eq_connect, mkOr_eq_connect]
    exact ⟨connect_connect xs hys, connect_connect xs hys⟩

theorem reduced_of_built_group : Reduced (mkAnd [flag "x", mkOr [flag "y", ff, flag "x"]]) ∧
    mkAnd [flag "x", mkAnd [flag "y", flag "x"], tt] = mkAnd [flag "x", flag "y", flag "x", tt] := by
  have hflag : ∀ name, Built (flag name) ∧ (flag name).WellSorted := fun _ => ⟨.symbol _, trivial⟩
  have hor : Built (mkOr [flag "y", ff, flag "x"]) := .or (by simp [hflag, Built.bool])
  refine ⟨reduced_of_built.1 _ (.and (by simp [hflag, hor])) (by decide) _ .refl, ?_⟩
  have htt : Built tt ∧ WellSorted tt := ⟨.bool true, trivial⟩
  exact (reduced_of_built.2 [flag "x"] [flag "y", flag "x"] [tt] (by simp [hflag, htt])).1

end ControlReach.Term
