import ControlReach.Proofs.Execution
import ControlReach.Proofs.SymbolicValue
import ControlReach.Query.Store

/-!
# Symbolic execution describes execution

Under a valuation a symbolic store describes a part of a state. Evaluating in the store or in the
state, and executing operations in either, gives one result, when the conditions collected hold.
-/

namespace ControlReach

open List SymValue Op

/-- A store holds each variable once, under its number, with a value of its type. -/
structure Store.Typed (s : Store) (types : Nat → Ty) : Prop where
  nodup : (s.map Prod.fst).Nodup
  uid : ∀ p ∈ s, p.2.1.uid = p.1
  hasType : ∀ p ∈ s, p.2.2.HasType (types p.1)

/-- Under a valuation, a store describes part of a state. -/
def Store.Describes (s : Store) (v : Valuation String) (σ : State) : Prop :=
  ∀ p ∈ s, σ p.1 = some (p.2.2.datum v)

def Rvalue.Selected (e : Rvalue) (select : Selection) (v : Valuation String) : Prop :=
  ∀ p ∈ e.guards, select p.1 p.2.1 = v.flag p.2.2

namespace Store

variable {s : Store} {x : Variable} {w : SymValue}

theorem mem_of_value (h : s.value? x = some w) : ∃ y, (x.uid, y, w) ∈ s := by
  obtain ⟨⟨y, u⟩, hy, rfl⟩ := Option.map_eq_some_iff.1 h
  exact ⟨y, Assoc.mem_of_lookup hy⟩

theorem Typed.value (h : s.Typed types) (hx : s.value? x = some w) : w.HasType (types x.uid) := by
  obtain ⟨y, hy⟩ := mem_of_value hx
  exact h.hasType _ hy

theorem Describes.value (h : s.Describes v σ) (hx : s.value? x = some w) :
    σ x.uid = some (w.datum v) := by
  obtain ⟨y, hy⟩ := mem_of_value hx
  exact h _ hy

theorem typed_nil (types : Nat → Ty) : Store.Typed [] types :=
  ⟨nodup_nil, by simp, by simp⟩

theorem describes_nil (v : Valuation String) (σ : State) : Store.Describes [] v σ := by
  simp [Describes]

theorem Typed.assign (h : s.Typed types) (hw : w.HasType (types x.uid)) :
    (s.assign x w).Typed types := by
  refine ⟨Assoc.nodup_keys_set _ h.nodup, fun p hp => ?_, fun p hp => ?_⟩
  · rcases (Assoc.mem_set_iff h.nodup).1 hp with rfl | ⟨hp, -⟩
    · rfl
    · exact h.uid p hp
  · rcases (Assoc.mem_set_iff h.nodup).1 hp with rfl | ⟨hp, -⟩
    · exact hw
    · exact h.hasType p hp

theorem Describes.assign (h : s.Describes v σ) (ht : s.Typed types) :
    (s.assign x w).Describes v (σ.put x (w.datum v)) := by
  intro p hp
  rcases (Assoc.mem_set_iff ht.nodup).1 hp with rfl | ⟨hp, hne⟩
  · rw [State.put, Function.update_self]
  · rw [State.put, Function.update_of_ne hne]
    exact h p hp

end Store

/-! ### Expressions -/

variable {t : Term} {e : Rvalue}

namespace Rvalue

variable {s : Store}

mutual

theorem HasType.distinct (hd : ∀ n, (types n).Distinct) :
    ∀ (e : Rvalue) (ty : Ty), e.HasType sites types ty → ty.Distinct
  | .bool _, _, h | .text _, _, h => h ▸ trivial
  | .read x, _, h => h ▸ hd x.uid
  | .field base f, ty, h => by
    obtain ⟨fields, hbase, hf⟩ := h
    exact (HasType.distinct hd base _ hbase).field hf
  | .struct fields, ty, h => by
    obtain ⟨tys, rfl, hn, hfields⟩ := h
    exact ⟨hn, HaveTypes.distinct hd fields tys hfields⟩
  | .not _, _, h | .and _ _, _, h | .or _ _, _, h | .equal _ _ _, _, h
  | .guard _ _ _, _, h => h.1 ▸ trivial

theorem HaveTypes.distinct (hd : ∀ n, (types n).Distinct) :
    ∀ fields tys,
      HaveTypes sites types fields tys → Ty.DistinctFields tys
  | [], [], _ => trivial
  | (_, e) :: fields, (_, ty) :: tys, h =>
    ⟨HasType.distinct hd e ty h.2.1, HaveTypes.distinct hd fields tys h.2.2⟩
  | [], _ :: _, h | _ :: _, [], h => h.elim

end

theorem bool_operand {w : SymValue} (hw : w.HasType .bool) (ht : w.scalar = .ok t) :
    t.Formula ∧ ∀ v, (w.datum v).bool? = some (t.holds id v) := by
  obtain ⟨t', rfl, hform⟩ := hw.of_bool
  cases ht
  refine ⟨hform, fun v => ?_⟩
  rw [datum, Term.datum_of_bool hform.1, Datum.bool?]

theorem datum_formula (h : t.Formula) (v : Valuation String) :
    (term t).datum v = .bool (t.holds id v) := by
  rw [datum, Term.datum_of_bool h.1]

mutual

theorem evaluate_spec (hd : ∀ n, (types n).Distinct) (hs : s.Typed types) :
    ∀ (e : Rvalue) (ty : Ty) (w : SymValue), e.HasType sites types ty → e.evaluate s = .ok w →
      w.HasType ty ∧ ∀ v σ select, s.Describes v σ → e.Selected select v →
        e.value select σ = some (w.datum v)
  | .bool b, _, w, hty, h => by
    cases h
    exact ⟨hty ▸ ⟨rfl, trivial⟩, fun _ _ _ _ _ => rfl⟩
  | .text t, _, w, hty, h => by
    cases h
    exact ⟨hty ▸ rfl, fun _ _ _ _ _ => rfl⟩
  | .read x, _, w, hty, h => by
    rw [evaluate] at h
    split at h
    · rename_i hx
      cases h
      exact ⟨hty ▸ hs.value hx, fun _ _ _ hσ _ => hσ.value hx⟩
    · cases h
  | .field base f, ty, w, hty, h => by
    obtain ⟨fields, hbase, hf⟩ := hty
    obtain ⟨u, hu, hget⟩ := bind_eq_ok.1 h
    obtain ⟨huty, hval⟩ := evaluate_spec hd hs base _ u hbase hu
    obtain ⟨hwty, hfield⟩ := get_spec huty hf hget
    refine ⟨hwty, fun v σ select hσ hsel => ?_⟩
    rw [value, hval v σ select hσ hsel]
    exact hfield v
  | .struct fields, _, w, hty, h => by
    obtain ⟨tys, rfl, -, hfields⟩ := hty
    simp only [evaluate, bind_eq_ok, pure_eq_ok] at h
    obtain ⟨ws, hws, rfl⟩ := h
    obtain ⟨htys, hval⟩ := evaluateFields_spec hd hs fields tys ws hfields hws
    refine ⟨htys, fun v σ select hσ hsel => ?_⟩
    rw [value, hval v σ select hσ hsel]
    rfl
  | .not a, _, w, hty, h => by
    obtain ⟨rfl, ha⟩ := hty
    simp only [evaluate, bind_eq_ok, pure_eq_ok] at h
    obtain ⟨u, hu, t, ht, rfl⟩ := h
    obtain ⟨huty, hval⟩ := evaluate_spec hd hs a _ u ha hu
    obtain ⟨hform, hbool⟩ := bool_operand huty ht
    refine ⟨hform.mkNot, fun v σ select hσ hsel => ?_⟩
    rw [value, hval v σ select hσ hsel, datum_formula hform.mkNot]
    simp [hbool]
  | .and a b, _, w, hty, h | .or a b, _, w, hty, h => by
    obtain ⟨rfl, ha, hb⟩ := hty
    simp only [evaluate, bind_eq_ok, pure_eq_ok] at h
    obtain ⟨u, hu, t, ht, u', hu', t', ht', rfl⟩ := h
    obtain ⟨huty, hval⟩ := evaluate_spec hd hs a _ u ha hu
    obtain ⟨huty', hval'⟩ := evaluate_spec hd hs b _ u' hb hu'
    obtain ⟨hform, hbool⟩ := bool_operand huty ht
    obtain ⟨hform', hbool'⟩ := bool_operand huty' ht'
    have hall : ∀ a ∈ [t, t'], a.Formula := by simp [hform, hform']
    refine ⟨by first | exact .mkAnd hall | exact .mkOr hall, fun v σ select hσ hsel => ?_⟩
    rw [value, hval v σ select hσ fun p hp => hsel p (mem_append_left _ hp),
      hval' v σ select hσ fun p hp => hsel p (mem_append_right _ hp)]
    simp [hbool, hbool', datum_formula, Term.Formula.mkAnd hall, Term.Formula.mkOr hall,
      Term.holds_mkAnd_pair, Term.holds_mkOr_pair]
  | .equal negated a b, _, w, hty, h => by
    obtain ⟨rfl, side, ha, hb⟩ := hty
    simp only [evaluate, bind_eq_ok, pure_eq_ok] at h
    obtain ⟨u, hu, u', hu', t, ht, rfl⟩ := h
    obtain ⟨huty, hval⟩ := evaluate_spec hd hs a _ u ha hu
    obtain ⟨huty', hval'⟩ := evaluate_spec hd hs b _ u' hb hu'
    have hside := HasType.distinct hd a side ha
    obtain ⟨_, ht', hform, heq⟩ := equality_spec u u' side huty huty' hside
    obtain rfl := Except.ok.inj (ht.symm.trans ht')
    have hnot : (if negated then t.mkNot else t).Formula := by
      cases negated
      · exact hform
      · exact hform.mkNot
    refine ⟨hnot, fun v σ select hσ hsel => ?_⟩
    rw [value, hval v σ select hσ fun p hp => hsel p (mem_append_left _ hp),
      hval' v σ select hσ fun p hp => hsel p (mem_append_right _ hp), datum_formula hnot]
    have hdec : t.holds id v = decide (u.datum v = u'.datum v) := by
      rw [Bool.eq_iff_iff, heq v, decide_eq_true_iff]
    cases negated <;> simp [hdec]
  | .guard site label name, _, w, hty, h => by
    obtain ⟨rfl, -⟩ := hty
    cases h
    refine ⟨Term.formula_flag name, fun v σ select hσ hsel => ?_⟩
    have := hsel (site, label, name) (by simp [guards])
    simp only [value, datum, Term.datum_of_bool (Term.formula_flag name).1,
      Term.holds_flag, this]

theorem evaluateFields_spec (hd : ∀ n, (types n).Distinct) (hs : s.Typed types) :
    ∀ fields tys ws,
      HaveTypes sites types fields tys → evaluateFields s fields = .ok ws →
      SymValue.HaveTypes ws tys ∧ ∀ v σ select, s.Describes v σ →
        (∀ p ∈ guardsOf fields, select p.1 p.2.1 = v.flag p.2.2) →
        values select σ fields = some (data v ws)
  | [], [], ws, _, h => by
    cases h
    exact ⟨trivial, fun _ _ _ _ _ => rfl⟩
  | (f, e) :: fields, (_, ty) :: tys, ws, hty, h => by
    obtain ⟨rfl, he, hfields⟩ := hty
    simp only [evaluateFields, bind_eq_ok, pure_eq_ok] at h
    obtain ⟨w, hw, rest, hrest, rfl⟩ := h
    obtain ⟨hwty, hval⟩ := evaluate_spec hd hs e ty w he hw
    obtain ⟨htys, hvals⟩ := evaluateFields_spec hd hs fields tys rest hfields hrest
    refine ⟨⟨rfl, hwty, htys⟩, fun v σ select hσ hsel => ?_⟩
    rw [values, hval v σ select hσ (fun p hp => hsel p (mem_append_left _ hp)),
      hvals v σ select hσ (fun p hp => hsel p (mem_append_right _ hp))]
    rfl
  | [], _ :: _, _, hty, _ | _ :: _, [], _, hty, _ => hty.elim

end

theorem condition_spec (hd : ∀ n, (types n).Distinct) (hs : s.Typed types)
    (hty : e.HasType sites types .bool) (h : e.condition s = .ok t) :
    t.Formula ∧ ∀ v σ select, s.Describes v σ → e.Selected select v →
      e.value select σ = some (.bool (t.holds id v)) := by
  obtain ⟨w, hw, ht⟩ := bind_eq_ok.1 h
  obtain ⟨hwty, hval⟩ := evaluate_spec hd hs e .bool w hty hw
  obtain ⟨t', rfl, hform⟩ := hwty.of_bool
  cases ht
  refine ⟨hform, fun v σ select hσ hsel => ?_⟩
  rw [hval v σ select hσ hsel, datum_formula hform]

end Rvalue

/-! ### Operations -/

/-- The value that a `havoc` stores under a valuation. -/
def Variable.drawn (x : Variable) (n : Nat) (v : Valuation String) : Datum :=
  (fresh (freshName x n) x.ty).datum v

/-- A `havoc` stores what the valuation gives to its unknowns. -/
def Oracle.of (select : Selection) (v : Valuation String) : Oracle :=
  ⟨select, fun x n d => d = x.drawn n v⟩

def Op.guards : Op → List (Nat × String × String)
  | .assign _ _ e _ => e.guards
  | .havoc _ _ _ => []
  | .assume e _ => e.guards

def Op.Selected (op : Op) (select : Selection) (v : Valuation String) : Prop :=
  ∀ p ∈ op.guards, select p.1 p.2.1 = v.flag p.2.2

section Operations

variable {sites : Nat → Option TableSite} {types : Nat → Ty} {s s' : Store} {new : List Term}
  {op : Op} {ops : List Op} {v : Valuation String} {σ τ : State} {select : Selection}

theorem Op.steps_singleton : Op.Steps o [op] σ τ ↔ op.Step o σ τ := by
  constructor
  · rintro (_ | ⟨h, ⟨⟩⟩)
    exact h
  · intro h
    exact .cons h .nil

/-- The executions of operations are those in which the new conditions hold, and the new store
describes their ends. -/
structure Op.Faithful (types : Nat → Ty) (ops : List Op) (s s' : Store) (new : List Term) :
    Prop where
  typed : s'.Typed types
  formulas : ∀ t ∈ new, t.Formula
  describes : ∀ {v σ τ select}, s.Describes v σ → (∀ op ∈ ops, op.Selected select v) →
    Op.Steps (.of select v) ops σ τ → (∀ t ∈ new, t.holds id v = true) ∧ s'.Describes v τ
  progress : ∀ {v σ select}, s.Describes v σ → (∀ op ∈ ops, op.Selected select v) →
    (∀ t ∈ new, t.holds id v = true) → ∃ τ, Op.Steps (.of select v) ops σ τ

variable {loc : Option Location}

theorem Op.faithful_assign {x : Variable} {w : SymValue} (hw : w.HasType (types x.uid)) (hval : ∀
    {v σ select}, s.Describes v σ → e.Selected select v → ∃ d, e.value select σ = some d ∧
    σ.assign x path d = some (σ.put x (w.datum v))) (hs : s.Typed types) :
    Op.Faithful types [.assign x path e loc] s (s.assign x w) [] := by
  refine ⟨hs.assign hw, by simp, ?_, ?_⟩
  · intro v σ τ select hσ hsel hsteps
    refine ⟨by simp, ?_⟩
    cases steps_singleton.1 hsteps with
    | assign hd hτ =>
      obtain ⟨d, hd', hτ'⟩ := hval hσ (hsel _ mem_cons_self)
      obtain rfl := Option.some.inj (hd.symm.trans hd')
      obtain rfl := Option.some.inj (hτ.symm.trans hτ')
      exact hσ.assign hs
  · intro v σ select hσ hsel _
    obtain ⟨d, hd, hτ⟩ := hval hσ (hsel _ mem_cons_self)
    exact ⟨_, steps_singleton.2 (.assign hd hτ)⟩

theorem Op.faithful_havoc {x : Variable} (hs : s.Typed types) (hx : types x.uid = x.ty.bare) :
    Op.Faithful types [.havoc x n loc] s (s.assign x (.fresh (freshName x n) x.ty)) [] := by
  refine ⟨hs.assign (hx ▸ hasType_fresh _ _), by simp, ?_, ?_⟩
  · intro v σ τ select hσ _ hsteps
    refine ⟨by simp, ?_⟩
    cases steps_singleton.1 hsteps with
    | havoc hd =>
      obtain rfl := hd
      exact hσ.assign hs
  · intro v σ select _ _ _
    exact ⟨_, steps_singleton.2 (.havoc rfl)⟩

theorem Op.faithful_assume (hd : ∀ n, (types n).Distinct) (hs : s.Typed types)
    (hty : e.HasType sites types .bool) (ht : e.condition s = .ok t) :
    Op.Faithful types [.assume e loc] s s [t] := by
  obtain ⟨hform, hval⟩ := Rvalue.condition_spec hd hs hty ht
  refine ⟨hs, by simpa using hform, ?_, ?_⟩
  · intro v σ τ select hσ hsel hsteps
    cases steps_singleton.1 hsteps with
    | assume htrue =>
      have hv := hval v σ select hσ (hsel _ mem_cons_self)
      have ht : t.holds id v = true := by simpa using hv.symm.trans htrue
      exact ⟨by simpa using ht, hσ⟩
  · intro v σ select hσ hsel hnew
    refine ⟨σ, steps_singleton.2 (.assume ?_)⟩
    have hv := hval v σ select hσ (hsel _ mem_cons_self)
    rwa [hnew t (by simp)] at hv

theorem Op.execute_spec (hd : ∀ n, (types n).Distinct) (hs : s.Typed types)
    (hop : op.WellTyped sites types) (h : op.execute s assumed = .ok (s', assumed')) :
    ∃ new, assumed' = assumed ++ new ∧ Op.Faithful types [op] s s' new := by
  fun_cases execute op s assumed with
  | case1 x e loc =>
    simp only [execute, bind_eq_ok, pure_eq_ok, Prod.mk.injEq] at h
    obtain ⟨w, hw, rfl, rfl⟩ := h
    obtain ⟨-, ty, hat, hty⟩ := hop
    obtain rfl := Option.some.inj hat
    obtain ⟨hwty, hval⟩ := Rvalue.evaluate_spec hd hs e _ w hty hw
    refine ⟨[], by simp, faithful_assign hwty (fun hσ hsel => ?_) hs⟩
    exact ⟨_, hval _ _ _ hσ hsel, rfl⟩
  | case2 x f path e loc =>
    simp only [execute, bind_eq_ok] at h
    obtain ⟨w, hw, h⟩ := h
    obtain ⟨-, ty, hat, hty⟩ := hop
    obtain ⟨hwty, hval⟩ := Rvalue.evaluate_spec hd hs e _ w hty hw
    split at h
    · cases h
    · rename_i old hold
      simp only [bind_eq_ok, pure_eq_ok, Prod.mk.injEq] at h
      obtain ⟨u, hu, rfl, rfl⟩ := h
      obtain ⟨_, hu', huty, hset⟩ := update_spec (hs.value hold) (hd _) hat hwty
      obtain rfl := Except.ok.inj (hu.symm.trans hu')
      refine ⟨[], by simp, faithful_assign huty
        (fun {v σ select} hσ hsel => ⟨_, hval _ _ _ hσ hsel, ?_⟩) hs⟩
      simp only [State.assign, hσ.value hold, Option.bind_eq_bind, Option.bind_some, hset v]
      rfl
  | case3 x n loc =>
    cases h
    exact ⟨[], by simp, faithful_havoc hs hop⟩
  | case4 e loc =>
    simp only [execute, bind_eq_ok, pure_eq_ok, Prod.mk.injEq] at h
    obtain ⟨t, ht, rfl, rfl⟩ := h
    exact ⟨[t], rfl, faithful_assume hd hs hop ht⟩

theorem Op.Faithful.nil (hs : s.Typed types) : Op.Faithful types [] s s [] := by
  refine ⟨hs, by simp, ?_, fun _ _ _ => ⟨_, .nil⟩⟩
  rintro v σ τ select hσ - ⟨⟩
  exact ⟨by simp, hσ⟩

theorem Op.Faithful.cons (h : Op.Faithful types [op] s s' new)
    (hrest : Op.Faithful types ops s' s'' more) :
    Op.Faithful types (op :: ops) s s'' (new ++ more) := by
  refine ⟨hrest.typed, forall_mem_append.2 ⟨h.formulas, hrest.formulas⟩, ?_, ?_⟩
  · intro v σ τ select hσ hsel hsteps
    obtain ⟨hop, hops⟩ := forall_mem_cons.1 hsel
    cases hsteps with
    | cons hstep hsteps =>
      obtain ⟨hnew, hσ'⟩ := h.describes hσ (by simpa using hop) (steps_singleton.2 hstep)
      obtain ⟨hmore, hτ⟩ := hrest.describes hσ' hops hsteps
      exact ⟨forall_mem_append.2 ⟨hnew, hmore⟩, hτ⟩
  · intro v σ select hσ hsel hall
    obtain ⟨hop, hops⟩ := forall_mem_cons.1 hsel
    obtain ⟨hnew, hmore⟩ := forall_mem_append.1 hall
    have hop : ∀ o ∈ [op], o.Selected select v := by simpa using hop
    obtain ⟨ρ, hstep⟩ := h.progress hσ hop hnew
    obtain ⟨τ, hsteps⟩ := hrest.progress (h.describes hσ hop hstep).2 hops hmore
    exact ⟨τ, .cons (steps_singleton.1 hstep) hsteps⟩

theorem execute_spec (hd : ∀ n, (types n).Distinct) (hs : s.Typed types)
    (hops : ∀ op ∈ ops, op.WellTyped sites types) (h : execute ops s assumed = .ok (s', assumed')) :
    ∃ new, assumed' = assumed ++ new ∧ Op.Faithful types ops s s' new := by
  induction ops generalizing s assumed with
  | nil =>
    cases h
    exact ⟨[], by simp, .nil hs⟩
  | cons op ops ih =>
    obtain ⟨hop, hops⟩ := forall_mem_cons.1 hops
    simp only [execute, bind_eq_ok] at h
    obtain ⟨⟨s₁, assumed₁⟩, hone, hrest⟩ := h
    obtain ⟨new, rfl, hfaith⟩ := execute_spec hd hs hop hone
    obtain ⟨more, rfl, hall⟩ := ih hfaith.typed hops hrest
    exact ⟨new ++ more, by simp, .cons hfaith hall⟩

end Operations

end ControlReach
