import ControlReach.Proofs.Success
import ControlReach.Query.Store

/-!
# What symbolic execution stores

Stored values are put together from stored values, constants and new unknowns. So whatever the
constructors keep, and new unknowns have, all stored terms have.
-/

namespace ControlReach

open List Rvalue

/-- The constructors of terms keep a property. -/
structure Term.Kept (Q : Term → Prop) : Prop where
  bool : ∀ b, Q (.bool b)
  text : ∀ s, Q (.text s)
  mkNot : ∀ {a}, Q a → Q (mkNot a)
  mkAnd : ∀ {as : List Term}, (∀ a ∈ as, Q a) → Q (mkAnd as)
  mkOr : ∀ {as : List Term}, (∀ a ∈ as, Q a) → Q (mkOr as)
  mkEq : ∀ {a b}, Q a → Q b → Q (mkEq a b)

variable {F : String → Prop} {Q : Term → Prop}

/-! ### Values -/

namespace SymValue

mutual

/-- The field names in a value have a property, and so have its terms. -/
def All (F : String → Prop) (Q : Term → Prop) : SymValue → Prop
  | .term t => Q t
  | .struct fields => AllFields F Q fields

def AllFields (F : String → Prop) (Q : Term → Prop) : List (String × SymValue) → Prop
  | [] => True
  | (f, w) :: rest => F f ∧ All F Q w ∧ AllFields F Q rest

end

theorem allFields_iff : AllFields F Q fields ↔ ∀ p ∈ fields, F p.1 ∧ p.2.All F Q := by
  induction fields with
  | nil => simp [AllFields]
  | cons p fields ih => simp [AllFields, ih, and_assoc]

variable {w : SymValue}

theorem All.scalar (h : w.All F Q) (ht : w.scalar = .ok t) : Q t := by
  cases w with
  | term => cases ht; exact h
  | struct => cases ht

theorem All.get (h : w.All F Q) (hf : w.get f = .ok u) : u.All F Q := by
  cases w with
  | term => cases hf
  | struct fields =>
    rw [SymValue.get] at hf
    split at hf
    · cases hf
      rename_i hlookup
      exact (allFields_iff.1 h _ (Assoc.mem_of_lookup hlookup)).2
    · cases hf

theorem All.update {new : SymValue} (h : w.All F Q) (hnew : new.All F Q)
    (hu : w.update path new = .ok u) : u.All F Q := by
  induction path generalizing w u with
  | nil => cases hu; exact hnew
  | cons f path ih =>
    cases w with
    | term => cases hu
    | struct fields =>
      simp only [SymValue.update, bind_eq_ok, pure_eq_ok] at hu
      obtain ⟨inner, hinner, inner', hinner', rfl⟩ := hu
      have hfield := ih (h.get hinner) hinner'
      refine allFields_iff.2 fun p hp => ?_
      obtain ⟨q, hq, rfl⟩ := mem_map.1 hp
      have hq := allFields_iff.1 h q hq
      split
      · exact ⟨hq.1, hfield⟩
      · exact hq

mutual

theorem All.equality (hQ : Term.Kept Q) : ∀ {a b : SymValue} {t : Term}, a.All F Q → b.All F Q →
    a.equality b = .ok t → Q t
  | .term _, .term _, _, ha, hb, h => by
    cases h
    exact hQ.mkEq ha hb
  | .struct as, .struct bs, t, ha, hb, h => by
    rw [SymValue.equality, bind_eq_ok] at h
    obtain ⟨ts, hts, h⟩ := h
    cases h
    exact hQ.mkAnd (All.equalities hQ as bs ts ha hb hts)
  | .term _, .struct _, _, _, _, h | .struct _, .term _, _, _, _, h => nomatch h

theorem All.equalities (hQ : Term.Kept Q) : ∀ as bs ts,
    AllFields F Q as → AllFields F Q bs → SymValue.equalities as bs = .ok ts → ∀ t ∈ ts, Q t
  | [], _, _, _, _, h => by
    cases h
    exact nofun
  | (f, a) :: as, bs, ts, ha, hb, h => by
    simp only [SymValue.equalities, bind_eq_ok, pure_eq_ok] at h
    obtain ⟨b, hget, t, ht, ts', hts', rfl⟩ := h
    have hvalue : b.All F Q := All.get (w := .struct bs) hb hget
    exact forall_mem_cons.2
      ⟨All.equality hQ ha.2.1 hvalue ht, All.equalities hQ as bs ts' ha.2.2 hb hts'⟩

end

mutual

theorem All.leaves : ∀ {w : SymValue} (path : List String), w.All F Q → ∀ q ∈ w.leaves path, Q q.2
  | .term _, _, h => forall_mem_singleton.2 h
  | .struct fields, path, h => All.leavesOf fields path h

theorem All.leavesOf : ∀ fields path,
    AllFields F Q fields → ∀ q ∈ SymValue.leavesOf path fields, Q q.2
  | [], _, _ => forall_mem_nil _
  | (f, _) :: rest, path, h =>
    forall_mem_append.2 ⟨All.leaves (path ++ [f]) h.2.1, All.leavesOf rest path h.2.2⟩

end

end SymValue

/-! ### Stores -/

def Store.All (known : Nat → Variable → Prop) (F : String → Prop) (Q : Term → Prop) (s : Store) :
    Prop := ∀ p ∈ s, known p.1 p.2.1 ∧ p.2.2.All F Q

namespace Rvalue

mutual

def Within (F : String → Prop) (Q : Term → Prop) : Rvalue → Prop
  | .bool _ | .text _ | .read _ => True
  | .field base _ => Within F Q base
  | .struct fields => WithinFields F Q fields
  | .not e => Within F Q e
  | .and a b | .or a b | .equal _ a b => Within F Q a ∧ Within F Q b
  | .guard _ _ name => Q (Term.flag name)

def WithinFields (F : String → Prop) (Q : Term → Prop) : List (String × Rvalue) → Prop
  | [] => True
  | (f, e) :: rest => F f ∧ Within F Q e ∧ WithinFields F Q rest

end

end Rvalue

def Op.Within (known : Nat → Variable → Prop) (F : String → Prop) (Q : Term → Prop) : Op → Prop
  | .assign v _ e _ => known v.uid v ∧ e.Within F Q
  | .havoc v n _ => known v.uid v ∧ (SymValue.fresh (freshName v n) v.ty).All F Q
  | .assume e _ => e.Within F Q

section Stores

variable {known : Nat → Variable → Prop} {s : Store} {x : Variable} {w : SymValue}

theorem Store.All.value (h : s.All known F Q) (hw : s.value? x = some w) : w.All F Q := by
  obtain ⟨q, hq, rfl⟩ := Option.map_eq_some_iff.1 hw
  exact (h _ (Assoc.mem_of_lookup hq)).2

theorem Store.All.assign (h : s.All known F Q) (hx : known x.uid x) (hw : w.All F Q) :
    (s.assign x w).All known F Q := by
  intro p hp
  rcases Assoc.mem_of_mem_set hp with hp | rfl
  · exact h p hp
  · exact ⟨hx, hw⟩

mutual

theorem Rvalue.all_evaluate (hQ : Term.Kept Q) (hs : s.All known F Q) :
    ∀ (e : Rvalue) (w : SymValue), e.Within F Q → e.evaluate s = .ok w → w.All F Q
  | .bool b, _, _, h => by cases h; exact hQ.bool b
  | .text t, _, _, h => by cases h; exact hQ.text t
  | .read x, w, _, h => by
    rw [evaluate] at h
    split at h
    · cases h
      exact hs.value ‹_›
    · cases h
  | .field base f, w, he, h => by
    rw [evaluate, bind_eq_ok] at h
    obtain ⟨b, hb, hw⟩ := h
    exact (all_evaluate hQ hs base b he hb).get hw
  | .struct fields, w, he, h => by
    rw [evaluate, bind_eq_ok] at h
    obtain ⟨ws, hws, h⟩ := h
    cases h
    exact all_evaluateFields hQ hs fields ws he hws
  | .not e, w, he, h => by
    simp only [evaluate, bind_eq_ok, pure_eq_ok] at h
    obtain ⟨a, ha, t, ht, rfl⟩ := h
    exact hQ.mkNot ((all_evaluate hQ hs e a he ha).scalar ht)
  | .and l r, w, he, h | .or l r, w, he, h => by
    simp only [evaluate, bind_eq_ok, pure_eq_ok] at h
    obtain ⟨a, ha, t, ht, b, hb, u, hu, rfl⟩ := h
    have hall : ∀ a ∈ [t, u], Q a := forall_mem_cons.2 ⟨(all_evaluate hQ hs l a he.1 ha).scalar ht,
      forall_mem_singleton.2 ((all_evaluate hQ hs r b he.2 hb).scalar hu)⟩
    first | exact hQ.mkAnd hall | exact hQ.mkOr hall
  | .equal negated l r, w, he, h => by
    simp only [evaluate, bind_eq_ok, pure_eq_ok] at h
    obtain ⟨a, ha, b, hb, t, ht, rfl⟩ := h
    have hterm : Q t := SymValue.All.equality hQ (all_evaluate hQ hs l a he.1 ha)
      (all_evaluate hQ hs r b he.2 hb) ht
    cases negated with
    | false => exact hterm
    | true => exact hQ.mkNot hterm
  | .guard _ _ _, _, he, h => by cases h; exact he

theorem Rvalue.all_evaluateFields (hQ : Term.Kept Q) (hs : s.All known F Q) :
    ∀ fields ws, WithinFields F Q fields →
    evaluateFields s fields = .ok ws → SymValue.AllFields F Q ws
  | [], _, _, h => by cases h; trivial
  | (f, e) :: rest, ws, he, h => by
    simp only [evaluateFields, bind_eq_ok, pure_eq_ok] at h
    obtain ⟨w, hw, ws', hws', rfl⟩ := h
    exact ⟨he.1, all_evaluate hQ hs e w he.2.1 hw, all_evaluateFields hQ hs rest ws' he.2.2 hws'⟩

end

theorem Rvalue.all_condition (hQ : Term.Kept Q) (hs : s.All known F Q) {e : Rvalue}
    (he : e.Within F Q) (h : e.condition s = .ok t) : Q t := by
  rw [condition, bind_eq_ok] at h
  obtain ⟨w, hw, ht⟩ := h
  exact (all_evaluate hQ hs e w he hw).scalar ht

theorem Op.all_execute (hQ : Term.Kept Q) {op : Op} (hop : op.Within known F Q)
    (hs : s.All known F Q) (hassumed : ∀ t ∈ assumed, Q t)
    (h : op.execute s assumed = .ok (s', assumed')) : s'.All known F Q ∧ ∀ t ∈ assumed', Q t := by
  fun_cases Op.execute op s assumed with
  | case1 x e loc =>
    simp only [Op.execute, bind_eq_ok, pure_eq_ok, Prod.mk.injEq] at h
    obtain ⟨w, hw, rfl, rfl⟩ := h
    exact ⟨hs.assign hop.1 (all_evaluate hQ hs e w hop.2 hw), hassumed⟩
  | case2 x f path e loc =>
    rw [Op.execute.eq_2, bind_eq_ok] at h
    obtain ⟨w, hw, h⟩ := h
    split at h
    · cases h
    · rename_i old hold
      simp only [bind_eq_ok, pure_eq_ok, Prod.mk.injEq] at h
      obtain ⟨u, hu, rfl, rfl⟩ := h
      have hw := all_evaluate hQ hs e w hop.2 hw
      exact ⟨hs.assign hop.1 ((hs.value hold).update hw hu), hassumed⟩
  | case3 x n loc =>
    cases h
    exact ⟨hs.assign hop.1 hop.2, hassumed⟩
  | case4 e loc =>
    simp only [Op.execute, bind_eq_ok, pure_eq_ok, Prod.mk.injEq] at h
    obtain ⟨t, ht, rfl, rfl⟩ := h
    refine ⟨hs, forall_mem_append.2 ⟨hassumed, forall_mem_singleton.2 ?_⟩⟩
    exact all_condition hQ hs hop ht

theorem all_execute (hQ : Term.Kept Q) (hops : ∀ op ∈ ops, op.Within known F Q)
    (hs : s.All known F Q) (hassumed : ∀ t ∈ assumed, Q t)
    (h : execute ops s assumed = .ok (s', assumed')) : s'.All known F Q ∧ ∀ t ∈ assumed', Q t := by
  induction ops generalizing s assumed with
  | nil =>
    cases h
    exact ⟨hs, hassumed⟩
  | cons op ops ih =>
    obtain ⟨hop, hops⟩ := forall_mem_cons.1 hops
    obtain ⟨⟨s₁, assumed₁⟩, hstep, h⟩ := bind_eq_ok.1 h
    obtain ⟨hs₁, hassumed₁⟩ := Op.all_execute hQ hop hs hassumed hstep
    exact ih hops hs₁ hassumed₁ h

end Stores

/-! ### Conditions are collected in order -/

theorem Op.execute_eq (op : Op) (s : Store) (assumed : List Term) :
    op.execute s assumed = (op.execute s []).map fun r => (r.1, assumed ++ r.2) := by
  fun_cases Op.execute op s assumed with
  | case1 x e loc =>
    simp only [Op.execute]
    cases e.evaluate s <;> simp [bind, Except.bind, pure, Except.pure, Except.map]
  | case2 x f path e loc =>
    rw [Op.execute.eq_2]
    cases e.evaluate s with
    | error => rfl
    | ok w =>
      cases s.value? x with
      | none => rfl
      | some old =>
        simp only [bind, Except.bind]
        cases old.update (f :: path) w <;> simp [pure, Except.pure, Except.map]
  | case3 x n loc => simp [Op.execute, Except.map]
  | case4 e loc =>
    simp only [Op.execute]
    cases e.condition s <;> simp [bind, Except.bind, pure, Except.pure, Except.map]

theorem execute_eq (ops : List Op) (s : Store) (assumed : List Term) :
    execute ops s assumed = (execute ops s []).map fun r => (r.1, assumed ++ r.2) := by
  induction ops generalizing s assumed with
  | nil => simp [execute, Except.map]
  | cons op ops ih =>
    rw [execute, execute, op.execute_eq s assumed]
    cases op.execute s [] with
    | error => rfl
    | ok r =>
      obtain ⟨s', new⟩ := r
      simp only [Except.map, bind, Except.bind]
      rw [ih s' (assumed ++ new), ih s' new]
      cases execute ops s' [] <;> simp [Except.map]

theorem execute_eq_ok (h : execute ops s assumed = .ok (s', assumed')) :
    ∃ new, execute ops s [] = .ok (s', new) ∧ assumed' = assumed ++ new := by
  rw [execute_eq] at h
  cases hnew : execute ops s [] with
  | error => rw [hnew] at h; cases h
  | ok r =>
    rw [hnew] at h
    cases h
    exact ⟨r.2, rfl, rfl⟩

end ControlReach
