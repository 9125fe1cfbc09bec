import ControlReach.Proofs.DefiniteAssignment
import ControlReach.Proofs.Passage

/-!
# Symbolic execution does not fail

Expressions and operations that fit the variables of a typed store can be executed, and joined
stores hold the variables that all of them hold.
-/

namespace ControlReach

open List SymValue

/-! ### Values -/

variable {w : SymValue}

theorem SymValue.exists_scalar (h : w.HasType .bool) : ∃ t, w.scalar = .ok t := by
  obtain ⟨t, rfl, -⟩ := h.of_bool
  exact ⟨t, rfl⟩

/-! ### Stores -/

/-- A typed store that has values for the defined ones among the known variables. -/
structure Store.Ready (types : Nat → Ty) (known defined : List Variable) (s : Store) : Prop where
  distinct : ∀ n, (types n).Distinct
  types_eq : ∀ v ∈ known, types v.uid = v.ty.bare
  subset : defined ⊆ known
  typed : s.Typed types
  value : ∀ v ∈ defined, ∃ w, s.value? v = some w

namespace Store.Ready

variable {s : Store}

theorem mono (h : s.Ready types known defined) (hsub : defined' ⊆ defined) :
    s.Ready types known defined' :=
  ⟨h.distinct, h.types_eq, fun _ hv => h.subset (hsub hv), h.typed, fun v hv => h.value v (hsub hv)⟩

theorem assign (h : s.Ready types known defined) (hv : v ∈ known) (hw : w.HasType v.ty.bare) :
    (s.assign v w).Ready types known (defined ++ [v]) := by
  refine ⟨h.distinct, h.types_eq, append_subset.2 ⟨h.subset, by simpa using hv⟩,
    h.typed.assign (by rwa [h.types_eq v hv]), fun x hx => ?_⟩
  by_cases huid : x.uid = v.uid
  · exact ⟨w, by rw [Store.value?, Store.assign, huid, Assoc.lookup_set_self]; rfl⟩
  · rcases mem_append.1 hx with hx | hx
    · obtain ⟨u, hu⟩ := h.value x hx
      exact ⟨u, by rw [Store.value?, Store.assign, Assoc.lookup_set_ne huid]; exact hu⟩
    · exact absurd (congrArg Variable.uid (mem_singleton.1 hx)) huid

end Store.Ready

/-! ### Expressions -/

namespace Rvalue

variable {s : Store}

mutual

theorem Fits.hasType (htypes : ∀ v ∈ defined, types v.uid = v.ty.bare) : ∀ {e : Rvalue} {ty : Ty},
    e.Fits defined ty → e.HasType sites types ty
  | .bool _, _, h | .text _, _, h => h
  | .read v, _, h => h.2.trans (htypes v h.1).symm
  | .field base _, _, h => by
    obtain ⟨fields, hbase, hf⟩ := h
    exact ⟨fields, Fits.hasType htypes hbase, hf⟩
  | .struct fields, _, h => by
    obtain ⟨tys, rfl, hnodup, hfields⟩ := h
    exact ⟨tys, rfl, hnodup, FitFields.haveTypes htypes hfields⟩
  | .not _, _, h => ⟨h.1, Fits.hasType htypes h.2⟩
  | .and _ _, _, h | .or _ _, _, h => ⟨h.1, Fits.hasType htypes h.2.1, Fits.hasType htypes h.2.2⟩
  | .equal _ _ _, _, h => by
    obtain ⟨rfl, side, ha, hb⟩ := h
    exact ⟨rfl, side, Fits.hasType htypes ha, Fits.hasType htypes hb⟩
  | .guard _ _ _, _, h => h.elim

theorem FitFields.haveTypes (htypes : ∀ v ∈ defined, types v.uid = v.ty.bare) :
    ∀ {fields} {tys},
      FitFields defined fields tys → HaveTypes sites types fields tys
  | [], [], _ => trivial
  | (_, _) :: _, (_, _) :: _, h =>
    ⟨h.1, Fits.hasType htypes h.2.1, FitFields.haveTypes htypes h.2.2⟩
  | [], _ :: _, h | _ :: _, [], h => h.elim

end

variable {e : Rvalue}

theorem Fits.hasType_of_ready (h : e.Fits defined ty) (hs : s.Ready types known defined) :
    e.HasType (fun _ => none) types ty :=
  h.hasType fun v hv => hs.types_eq v (hs.subset hv)

theorem Fits.evaluate_hasType (h : e.Fits defined ty) (hs : s.Ready types known defined)
    (hw : e.evaluate s = .ok w) : w.HasType ty :=
  (evaluate_spec hs.distinct hs.typed e ty w (h.hasType_of_ready hs) hw).1

mutual

theorem Fits.exists_evaluate (hs : s.Ready types known defined) : ∀ {e : Rvalue} {ty : Ty},
    e.Fits defined ty → ∃ w, e.evaluate s = .ok w
  | .bool _, _, _ | .text _, _, _ => ⟨_, by rw [evaluate]⟩
  | .read v, _, h => by
    obtain ⟨w, hw⟩ := hs.value v h.1
    exact ⟨w, by rw [evaluate]; simp only [hw]⟩
  | .field base f, ty, h => by
    obtain ⟨fields, hbase, hf⟩ := h
    obtain ⟨w, hw⟩ := Fits.exists_evaluate hs hbase
    obtain ⟨u, hu⟩ := exists_get (hbase.evaluate_hasType hs hw) hf
    exact ⟨u, by rw [evaluate]; exact bind_eq_ok.2 ⟨w, hw, hu⟩⟩
  | .struct fields, ty, h => by
    obtain ⟨tys, rfl, -, hfields⟩ := h
    obtain ⟨ws, hws⟩ := FitFields.exists_evaluate hs hfields
    exact ⟨_, by rw [evaluate]; exact bind_eq_ok.2 ⟨ws, hws, rfl⟩⟩
  | .not e, _, h => by
    obtain ⟨w, hw⟩ := Fits.exists_evaluate hs h.2
    obtain ⟨t, ht⟩ := exists_scalar (h.2.evaluate_hasType hs hw)
    exact ⟨_, by rw [evaluate]; exact bind_eq_ok.2 ⟨w, hw, bind_eq_ok.2 ⟨t, ht, rfl⟩⟩⟩
  | .and a b, _, h | .or a b, _, h => by
    obtain ⟨-, ha, hb⟩ := h
    obtain ⟨w, hw⟩ := Fits.exists_evaluate hs ha
    obtain ⟨w', hw'⟩ := Fits.exists_evaluate hs hb
    obtain ⟨t, ht⟩ := exists_scalar (ha.evaluate_hasType hs hw)
    obtain ⟨t', ht'⟩ := exists_scalar (hb.evaluate_hasType hs hw')
    rw [evaluate]
    exact ⟨_, bind_eq_ok.2 ⟨w, hw, bind_eq_ok.2 ⟨t, ht, bind_eq_ok.2 ⟨w', hw',
      bind_eq_ok.2 ⟨t', ht', rfl⟩⟩⟩⟩⟩
  | .equal negated a b, _, h => by
    obtain ⟨-, side, ha, hb⟩ := h
    obtain ⟨w, hw⟩ := Fits.exists_evaluate hs ha
    obtain ⟨w', hw'⟩ := Fits.exists_evaluate hs hb
    have hside : side.Distinct := HasType.distinct hs.distinct a side (ha.hasType_of_ready hs)
    obtain ⟨t, ht, -⟩ := equality_spec w w' side (ha.evaluate_hasType hs hw)
      (hb.evaluate_hasType hs hw') hside
    rw [evaluate]
    exact ⟨_, bind_eq_ok.2 ⟨w, hw, bind_eq_ok.2 ⟨w', hw', bind_eq_ok.2 ⟨t, ht, rfl⟩⟩⟩⟩
  | .guard _ _ _, _, h => h.elim

theorem FitFields.exists_evaluate (hs : s.Ready types known defined) :
    ∀ {fields : List (String × Rvalue)} {tys : List (String × Ty)},
      FitFields defined fields tys → ∃ ws, evaluateFields s fields = .ok ws
  | [], [], _ => ⟨[], by rw [evaluateFields]⟩
  | (_, e) :: fields, (_, ty) :: tys, h => by
    obtain ⟨w, hw⟩ := Fits.exists_evaluate hs h.2.1
    obtain ⟨ws, hws⟩ := FitFields.exists_evaluate hs h.2.2
    exact ⟨_, by rw [evaluateFields]; exact bind_eq_ok.2 ⟨w, hw, bind_eq_ok.2 ⟨ws, hws, rfl⟩⟩⟩
  | [], _ :: _, h | _ :: _, [], h => h.elim

end

theorem Guards.exists_condition (hs : s.Ready types known defined) (h : e.Guards defined) :
    ∃ t, e.condition s = .ok t := by
  rcases h with h | ⟨site, label, name, rfl⟩
  · obtain ⟨w, hw⟩ := h.exists_evaluate hs
    obtain ⟨t, ht⟩ := exists_scalar (h.evaluate_hasType hs hw)
    exact ⟨t, bind_eq_ok.2 ⟨w, hw, ht⟩⟩
  · exact ⟨Term.flag name, rfl⟩

end Rvalue

/-! ### Operations -/

section Execute

variable {s : Store}

theorem Op.Fits.exists_execute (hs : s.Ready types known defined) {op : Op}
    (h : op.Fits known defined) (assumed : List Term) :
    ∃ s' assumed', op.execute s assumed = .ok (s', assumed') ∧
      s'.Ready types known (defined ++ op.stores) := by
  cases op with
  | assign v path e loc =>
    obtain ⟨hv, hread, ty, hat, he⟩ := h
    obtain ⟨w, hw⟩ := he.exists_evaluate hs
    have hwty := he.evaluate_hasType hs hw
    cases path with
    | nil =>
      obtain rfl : v.ty.bare = ty := Option.some.inj (by rw [← hat, Ty.at?_nil])
      exact ⟨_, assumed, by rw [execute]; exact bind_eq_ok.2 ⟨w, hw, rfl⟩, hs.assign hv hwty⟩
    | cons f path =>
      obtain ⟨old, hold⟩ := hs.value v (hread (cons_ne_nil f path))
      have hty : old.HasType v.ty.bare := by
        rw [← hs.types_eq v hv]
        exact hs.typed.value hold
      have hdist : v.ty.bare.Distinct := hs.types_eq v hv ▸ hs.distinct v.uid
      obtain ⟨w', hw', hwty', -⟩ := update_spec hty hdist hat hwty
      refine ⟨_, assumed, ?_, hs.assign hv hwty'⟩
      rw [execute]
      refine bind_eq_ok.2 ⟨w, hw, ?_⟩
      simp only [hold]
      exact bind_eq_ok.2 ⟨w', hw', rfl⟩
  | havoc v n loc =>
    exact ⟨_, assumed, by rw [execute], hs.assign h (hasType_fresh _ _)⟩
  | assume e loc =>
    obtain ⟨t, ht⟩ := Rvalue.Guards.exists_condition hs (.inl h)
    refine ⟨s, _, by rw [execute]; exact bind_eq_ok.2 ⟨t, ht, rfl⟩, ?_⟩
    rwa [stores, append_nil]

theorem exists_execute : ∀ {ops} {defined} {s} assumed, Op.Sequence known defined ops →
    s.Ready types known defined →
    ∃ s' assumed', execute ops s assumed = .ok (s', assumed') ∧
      s'.Ready types known (defined ++ ops.flatMap Op.stores)
  | [], defined, s, assumed, _, hs => ⟨s, assumed, by rw [execute], by simpa using hs⟩
  | op :: rest, defined, s, assumed, hseq, hs => by
    obtain ⟨s₁, assumed₁, hop, hs₁⟩ := hseq.1.exists_execute hs assumed
    obtain ⟨s₂, assumed₂, hrest, hs₂⟩ := exists_execute assumed₁ hseq.2 hs₁
    refine ⟨s₂, assumed₂, by rw [execute, hop]; exact hrest, ?_⟩
    rwa [flatMap_cons, ← append_assoc]

end Execute

/-! ### Joins -/

section Join

theorem exists_join (block : BlockId) (hne : arrivals ≠ [])
    (hall : ∀ a ∈ arrivals, a.store.Ready types known defined) :
    ∃ a defs, join block arrivals = .ok (some (a, defs)) ∧ a.store.Ready types known defined := by
  match arrivals, hne, hall with
  | [a], _, hall => exact ⟨a, [], rfl, hall a mem_cons_self⟩
  | first :: second :: others, _, hall =>
    have hfirst := hall first mem_cons_self
    have hstores : ∀ o ∈ first.store :: (second :: others).map Arrival.store,
        Store.Ready types known defined o := by
      rw [← map_cons, forall_mem_map]
      exact hall
    have htyped : ∀ o ∈ first.store :: (second :: others).map Arrival.store,
        Store.Typed o types := fun o ho => (hstores o ho).typed
    obtain ⟨s', defs, hmerge, hmerged⟩ := mergeStores_spec block hfirst.distinct
      (formula_selectors block (first :: second :: others).length) htyped (Sublist.refl _)
    refine ⟨_, _, bind_eq_ok.2 ⟨(s', defs), hmerge, rfl⟩, hfirst.distinct, hfirst.types_eq,
      hfirst.subset, hmerged.typed, fun v hv => ?_⟩
    obtain ⟨w, hw⟩ := hfirst.value v hv
    obtain ⟨y, hmem⟩ := Store.mem_of_value hw
    have hkey : v.uid ∈ s'.map Prod.fst := hmerged.kept v (mem_map.2 ⟨_, hmem, rfl⟩)
      fun o ho => (hstores o (mem_cons_of_mem _ ho)).value v hv
    obtain ⟨⟨uid, x, w'⟩, hx, huid⟩ := mem_map.1 hkey
    obtain rfl : uid = v.uid := huid
    exact ⟨w', (Store.value_iff hmerged.typed).2 ⟨x, hx⟩⟩

end Join

end ControlReach
