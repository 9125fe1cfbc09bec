import ControlReach.Proofs.Occurrences
import ControlReach.Proofs.PlanExecution
import ControlReach.Proofs.TypedScope

/-!
# Heaps and states

Executions of a control keep values at locations, those of its plan at the numbers of variables. A
location stands for the number that its declaration was given.
-/

namespace ControlReach

open List Rvalue ControlReach.Expr Env.Rel

def Selection.all : Selection := fun _ _ => true

/-! ### Heaps and states -/

/-- The locations hold the values of the variables numbered `us`, below `n`. -/
structure Mirrors (us : List Nat) (n : Nat) (h : Heap) (σ : State) : Prop where
  length : us.length = h.length
  get? : ∀ {k u : Nat}, us[k]? = some u → h[k]? = σ u
  nodup : us.Nodup
  bound : ∀ u ∈ us, u < n

namespace Mirrors

variable {v : Variable}

theorem nil (n : Nat) (σ : State) : Mirrors [] n [] σ := ⟨rfl, by simp, nodup_nil, by simp⟩

theorem mono (hm : Mirrors us n h σ) (hn : n ≤ n') : Mirrors us n' h σ :=
  ⟨hm.length, hm.get?, hm.nodup, fun u hu => Nat.lt_of_lt_of_le (hm.bound u hu) hn⟩

theorem push (hm : Mirrors us n h σ) (hv : n ≤ v.uid) (d : Datum) :
    Mirrors (us ++ [v.uid]) (v.uid + 1) (h ++ [d]) (σ.put v d) where
  length := by simp [hm.length]
  get? := by
    intro k u hk
    rcases Nat.lt_trichotomy k us.length with hlt | rfl | hgt
    · rw [getElem?_append_left hlt] at hk
      have hu : u ≠ v.uid := Nat.ne_of_lt (Nat.lt_of_lt_of_le (hm.bound u (mem_of_getElem? hk)) hv)
      rw [getElem?_append_left (hm.length ▸ hlt), State.put, Function.update_of_ne hu]
      exact hm.get? hk
    · rw [getElem?_concat_length] at hk
      cases hk
      rw [hm.length, getElem?_concat_length, State.put, Function.update_self]
    · rw [getElem?_eq_none (by rw [length_append, length_singleton]; exact hgt)] at hk
      cases hk
  nodup := by
    rw [← concat_eq_append]
    exact hm.nodup.concat fun hu => Nat.not_le_of_lt (hm.bound _ hu) hv
  bound := by
    refine forall_mem_append.2 ⟨fun u hu => ?_, forall_mem_singleton.2 (Nat.lt_succ_self _)⟩
    have := hm.bound u hu
    omega

theorem set (hm : Mirrors us n h σ) (hk : us[k]? = some v.uid) (d : Datum) :
    Mirrors us n (h.set k d) (σ.put v d) where
  length := by rw [length_set, hm.length]
  get? := by
    intro j u hj
    obtain ⟨hlt, hu⟩ := List.getElem?_eq_some_iff.1 hj
    obtain ⟨hlt', hv⟩ := List.getElem?_eq_some_iff.1 hk
    by_cases hkj : k = j
    · subst hkj
      cases hk.symm.trans hj
      rw [getElem?_set_self (hm.length ▸ hlt), State.put, Function.update_self]
    · have hne : u ≠ v.uid := by
        rw [← hu, ← hv]
        exact fun heq => hkj (hm.nodup.getElem_inj_iff.1 heq).symm
      rw [getElem?_set_ne hkj, State.put, Function.update_of_ne hne]
      exact hm.get? hj
  nodup := hm.nodup
  bound := hm.bound

theorem assign (hm : Mirrors us n h σ) (hk : us[k]? = some v.uid) (path : List String) (d : Datum) :
    Option.Rel (Mirrors us n) (h.assign k path d) (σ.assign v path d) := by
  have hold := hm.get? hk
  have hlt : k < h.length := hm.length ▸ (List.getElem?_eq_some_iff.1 hk).1
  rw [getElem?_eq_getElem hlt] at hold
  rw [Heap.assign, getElem?_eq_getElem hlt]
  cases path with
  | nil => exact .some (hm.set hk d)
  | cons f path =>
    rw [State.assign, ← hold]
    dsimp only [Option.bind_eq_bind, Option.bind_some]
    cases Datum.set? h[k] (f :: path) d with
    | none => exact .none
    | some new => exact .some (hm.set hk new)

end Mirrors

/-! ### Scopes and environments -/

/-- A constant has the value of the expression that stands for it, or one value everywhere. -/
def Stands (time : BindingTime) (us : List Nat) (known : Option (Ty × Rvalue))
    (value : Heap → Option Datum) : Prop :=
  ∀ ty r, known = some (ty, r) →
    (∀ us' n h σ, us <+: us' → Mirrors us' n h σ → value h = r.value Selection.all σ) ∧
    (time = .declaration → ∀ σ σ', r.value Selection.all σ = r.value Selection.all σ')

/-- Names stand for the same, when the locations are the variables with the numbers `us`. -/
abbrev Scope.Models (time : BindingTime) (us : List Nat) (s : Scope) (env : Environment) : Prop :=
  Env.Rel (fun v k => us[k]? = some v.uid) (Stands time us) s.env env

theorem getElem?_mono {us us' : List Nat} (hus : us <+: us') {k u : Nat}
    (hk : us[k]? = some u) : us'[k]? = some u := by
  obtain ⟨t, rfl⟩ := hus
  rwa [getElem?_append_left (List.getElem?_eq_some_iff.1 hk).1]

theorem equality_comm (a b : Option Datum) (negated : Bool) :
    (do
      let x ← a
      let y ← b
      return Datum.bool (decide (x = y) != negated)) =
    (do
      let y ← b
      let x ← a
      return Datum.bool (decide (y = x) != negated)) := by
  cases a with
  | none => cases b <;> rfl
  | some x =>
    cases b with
    | none => rfl
    | some y => simp [eq_comm]

namespace Scope

variable {time : BindingTime} {us : List Nat} {n : Nat} {h : Heap} {σ : State} {s : Scope}
  {env : Environment}

theorem Models.mono (hs : s.Models time us env) {us' : List Nat} (hus : us <+: us') :
    s.Models time us' env := by
  refine imp ?_ ?_ hs
  · intro v k hk
    exact getElem?_mono hus hk
  · intro known value hvalue ty r hr
    exact (hvalue ty r hr).imp_left fun hsame us'' n h σ hus' => hsame us'' n h σ (hus.trans hus')

theorem Models.names (hs : s.Models time us env) : s.Names env :=
  imp (fun _ _ _ => trivial) (fun _ _ _ => trivial) hs

variable {loc : Option Location} {ty : Ty}

/-- What a name stands for in a scope decides what it stands for in the environment. -/
theorem Models.resolve (hs : s.Models time us env) (hx : s.resolve x loc = .ok b) : ∃ m, env.lookup
    x = some m ∧ b.meaning.Rel (fun v k => us[k]? = some v.uid) (Stands time us) m :=
  hs.lookup_eq_some (resolve_env hx)

theorem Models.resolveType (hs : s.Models time us env) {t : TypeRef}
    (ht : s.resolveType t = .ok ty) : env.resolveType t = some ty :=
  (Env.Rel.resolveType hs t).symm.trans (resolveType_env ht)

theorem Models.name (hs : s.Models time us env) (hm : Mirrors us n h σ)
    (hr : s.lowerName x loc = .ok r) : (var x loc).eval env h = r.value Selection.all σ := by
  rw [eval]
  rcases lowerName_eq_ok hr with ⟨v, hv, rfl⟩ | ⟨ty, hc⟩
  · obtain ⟨m, hx, hrel⟩ := hs.resolve hv
    cases hrel with
    | var hk =>
      rw [hx]
      exact hm.get? hk
  · obtain ⟨m, hx, hrel⟩ := hs.resolve hc
    cases hrel with
    | const hvalue =>
      rw [hx]
      exact (hvalue _ _ rfl).1 us n h σ prefix_rfl hm

mutual

/-- An expression has the value of the expression over variables that it stands for. -/
theorem Models.lower (hs : s.Models time us env) (hm : Mirrors us n h σ) :
    ∀ e r, s.lower e = .ok r → e.eval env h = r.value Selection.all σ
  | .bool _ _, r, hr | .text _ _, r, hr => by
    cases hr
    rfl
  | .var x loc, r, hr => hs.name hm hr
  | .paren e _, r, hr => by
    rw [eval]
    exact Models.lower hs hm e r hr
  | .field e f _, r, hr | .not e _, r, hr => by
    obtain ⟨a, ha, hr⟩ := bind_eq_ok.1 hr
    cases hr
    rw [eval, value, Models.lower hs hm e a ha]
  | .struct fields _, r, hr => by
    obtain ⟨rs, hrs, hr⟩ := bind_eq_ok.1 hr
    cases hr
    rw [eval, value, Models.lowerFields hs hm fields rs hrs]
  | .and e e' _, r, hr | .or e e' _, r, hr => by
    obtain ⟨a, b, ha, hb, rfl⟩ := bind₂_eq_ok.1 hr
    rw [eval, value, Models.lower hs hm e a ha, Models.lower hs hm e' b hb]
  | .equal negated e e' _, r, hr => by
    obtain ⟨a, ha, hr⟩ := bind_eq_ok.1 hr
    obtain ⟨b, hb, hr⟩ := bind_eq_ok.1 hr
    rw [eval, Models.lower hs hm e a ha, Models.lower hs hm e' b hb]
    split at hr
    · cases hr
      rw [value]
      exact equality_comm _ _ negated
    · cases hr
      rw [value]
  | .call _ _ _, _, hr | .other _ _, _, hr => by cases hr

theorem Models.lowerFields (hs : s.Models time us env) (hm : Mirrors us n h σ) :
    ∀ fields rs, s.lowerFields fields = .ok rs →
      evalFields env h fields = values Selection.all σ rs
  | [], rs, hr => by
    cases hr
    rfl
  | (f, e) :: rest, rs, hr => by
    obtain ⟨a, as, ha, has, rfl⟩ := bind₂_eq_ok.1 hr
    rw [evalFields, values, Models.lower hs hm e a ha, Models.lowerFields hs hm rest as has]

end

theorem Models.lowerAs (hs : s.Models time us env) (hm : Mirrors us n h σ)
    (hr : s.lowerAs ty e loc = .ok r) : e.eval env h = r.value Selection.all σ := by
  obtain ⟨_, -, hr⟩ := bind_eq_ok.1 hr
  exact hs.lower hm e r hr

theorem Models.place (hs : s.Models time us env) (hp : s.place e = .ok (v, path, ty)) :
    ∃ k, e.place env = some (k, path) ∧ us[k]? = some v.uid := by
  obtain ⟨x, xloc, haccess, hv, -, -⟩ := place_eq_ok hp
  obtain ⟨m, hx, hrel⟩ := hs.resolve hv
  cases hrel with
  | @var _ k hk =>
    refine ⟨k, ?_, hk⟩
    simp only [Expr.place, haccess, hx]

mutual

/-- An expression over constants that are evaluated once has the same value everywhere. -/
theorem Models.fixed (hs : s.Models .declaration us env) :
    ∀ e r, e.isFixed s.env = true → s.lower e = .ok r →
      ∀ σ σ', r.value Selection.all σ = r.value Selection.all σ'
  | .bool _ _, r, _, hr, σ, σ' | .text _ _, r, _, hr, σ, σ' => by
    cases hr
    rfl
  | .var x loc, r, he, hr, σ, σ' => by
    rcases lowerName_eq_ok hr with ⟨v, hv, rfl⟩ | ⟨ty, hc⟩
    · rw [isFixed, resolve_env hv] at he
      cases he
    · obtain ⟨m, -, hrel⟩ := hs.resolve hc
      cases hrel with
      | const hvalue => exact (hvalue _ _ rfl).2 rfl σ σ'
  | .paren e _, r, he, hr, σ, σ' => by
    rw [isFixed] at he
    exact Models.fixed hs e r he hr σ σ'
  | .field e f _, r, he, hr, σ, σ' | .not e _, r, he, hr, σ, σ' => by
    rw [isFixed] at he
    obtain ⟨a, ha, hr⟩ := bind_eq_ok.1 hr
    cases hr
    rw [value, value, Models.fixed hs e a he ha σ σ']
  | .struct fields _, r, he, hr, σ, σ' => by
    rw [isFixed] at he
    obtain ⟨rs, hrs, hr⟩ := bind_eq_ok.1 hr
    cases hr
    rw [value, value, Models.fixedFields hs fields rs he hrs σ σ']
  | .and e e' _, r, he, hr, σ, σ' | .or e e' _, r, he, hr, σ, σ' => by
    rw [isFixed, Bool.and_eq_true] at he
    obtain ⟨a, b, ha, hb, rfl⟩ := bind₂_eq_ok.1 hr
    rw [value, value, Models.fixed hs e a he.1 ha σ σ', Models.fixed hs e' b he.2 hb σ σ']
  | .equal negated e e' _, r, he, hr, σ, σ' => by
    rw [isFixed, Bool.and_eq_true] at he
    obtain ⟨a, ha, hr⟩ := bind_eq_ok.1 hr
    obtain ⟨b, hb, hr⟩ := bind_eq_ok.1 hr
    have ha' := Models.fixed hs e a he.1 ha σ σ'
    have hb' := Models.fixed hs e' b he.2 hb σ σ'
    split at hr <;> cases hr <;> rw [value, value, ha', hb']
  | .call _ _ _, _, _, hr, _, _ | .other _ _, _, _, hr, _, _ => by cases hr

theorem Models.fixedFields (hs : s.Models .declaration us env) :
    ∀ fields rs,
      areFixed s.env fields = true → s.lowerFields fields = .ok rs →
      ∀ σ σ', values Selection.all σ rs = values Selection.all σ' rs
  | [], rs, _, hr, σ, σ' => by
    cases hr
    rfl
  | (f, e) :: rest, rs, he, hr, σ, σ' => by
    rw [areFixed, Bool.and_eq_true] at he
    obtain ⟨a, as, ha, has, rfl⟩ := bind₂_eq_ok.1 hr
    rw [values, values, Models.fixed hs e a he.1 ha σ σ',
      Models.fixedFields hs rest as he.2 has σ σ']

end

end Scope

section IsFixed

mutual

theorem Env.Rel.isFixed (h : Env.Rel R Q env env') : ∀ e : Expr, e.isFixed env = e.isFixed env'
  | .bool _ _ | .text _ _ | .call _ _ _ | .other _ _ => by rw [Expr.isFixed, Expr.isFixed]
  | .var x _ => by
    rw [Expr.isFixed, Expr.isFixed]
    rcases rel_cases (h.lookup x) with ⟨hx, hx'⟩ | ⟨m, m', hx, hx', hm⟩
    · rw [hx, hx']
    · rw [hx, hx']
      cases hm <;> rfl
  | .paren e _ | .field e _ _ | .not e _ => by
    rw [Expr.isFixed, Expr.isFixed, isFixed h e]
  | .struct fields _ => by rw [Expr.isFixed, Expr.isFixed, areFixed h fields]
  | .and e e' _ | .or e e' _ | .equal _ e e' _ => by
    rw [Expr.isFixed, Expr.isFixed, isFixed h e, isFixed h e']

theorem Env.Rel.areFixed (h : Env.Rel R Q env env') :
    ∀ fields : List (String × Expr), Expr.areFixed env fields = Expr.areFixed env' fields
  | [] => rfl
  | (_, e) :: rest => by
    rw [Expr.areFixed, Expr.areFixed, isFixed h e, areFixed h rest]

end

end IsFixed

end ControlReach
