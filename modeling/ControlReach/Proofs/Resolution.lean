import ControlReach.Proofs.CircuitValue
import ControlReach.Solver.Learn

/-!
# What a search concludes

What a search adds to its base holds wherever the base holds: new clauses are resolvents, and facts
are clauses of which one literal is left.
-/

namespace ControlReach

open List Clause

variable {l : Literal}

namespace Clause

variable {c : Clause}

theorem holds_iff : c.holds f = true ↔ ∃ l ∈ c, l.holds f = true := any_eq_true

theorem holds_of_subset (h : c.holds f = true) (hcd : c ⊆ d) : d.holds f = true := by
  obtain ⟨l, hl, hf⟩ := holds_iff.mp h
  exact holds_iff.mpr ⟨l, hcd hl, hf⟩

theorem holds_without (h : c.holds f = true) (hl : l.holds f = false) :
    (c.without l).holds f = true := by
  obtain ⟨m, hm, hf⟩ := holds_iff.mp h
  refine holds_iff.mpr ⟨m, mem_filter.mpr ⟨hm, ?_⟩, hf⟩
  rw [decide_eq_true_eq]
  rintro rfl
  rw [hl] at hf
  cases hf

end Clause

namespace Trail

variable {t : Trail}

variable {c : Clause}

theorem mem_insert : m ∈ t.insert l c ↔ m = l ∨ m ∈ c := by
  induction c with
  | nil => rw [insert, mem_singleton, or_iff_left (not_mem_nil)]
  | cons k rest ih =>
    unfold insert
    split
    · rename_i hk
      rw [hk, mem_cons]
      tauto
    · split
      · rw [mem_cons]
      · rw [mem_cons, ih, mem_cons]
        tauto

theorem mem_merge : m ∈ t.merge c d ↔ m ∈ c ∨ m ∈ d := by
  unfold merge
  induction d generalizing c with
  | nil => simp
  | cons l d ih =>
    rw [foldl_cons, ih, mem_insert, mem_cons]
    tauto

theorem holds_resolvent {why : Clause} (h : holds f (l :: c) = true)
    (hwhy : why.holds f = true) : (t.merge c (why.without l.opposite)).holds f = true := by
  cases hl : l.holds f with
  | true =>
    refine holds_of_subset (holds_without hwhy ?_) fun m hm =>
      mem_merge.mpr (.inr hm)
    rw [Literal.holds_opposite, hl]
    rfl
  | false =>
    refine holds_of_subset (c := c) ?_ fun m hm => mem_merge.mpr (.inl hm)
    rw [holds, any_cons, hl] at h
    exact h

end Trail

/-- All that a base knows holds under a choice of truth values. -/
structure Base.Holds (b : Base) (f : Nat → Bool) : Prop where
  clauses : ∀ c ∈ b.clauses, c.holds f = true
  facts : ∀ l, b.isFact l = true → l.holds f = true

namespace Base.Holds

variable {b : Base} {t : Trail} {c : Clause}

/-! ### The base -/

section

variable (hb : b.Holds f)

include hb

theorem strip (h : c.holds f = true) : (b.strip c).holds f = true := by
  obtain ⟨l, hl, hf⟩ := holds_iff.mp h
  refine holds_iff.mpr ⟨l, mem_filter.mpr ⟨hl, ?_⟩, hf⟩
  rw [Bool.not_eq_true', ← Bool.not_eq_true]
  intro hfact
  have hopp := hb.facts _ hfact
  rw [Literal.holds_opposite, hf] at hopp
  cases hopp

theorem stripped? (h : b.stripped? i = some c) : c.holds f = true := by
  obtain ⟨d, hd, rfl⟩ := Option.map_eq_some_iff.mp h
  exact hb.strip (hb.clauses d (Array.mem_of_getElem? hd))

theorem add (h : c.holds f = true) : (b.add c).Holds f := by
  refine ⟨fun d hd => ?_, hb.facts⟩
  obtain hd | rfl := Array.mem_push.mp hd
  · exact hb.clauses d hd
  · exact h

theorem conclude (l : Literal) (i : Nat) : (b.conclude l i).Holds f := by
  unfold Base.conclude
  split
  · rename_i hunit
    have hl : l.holds f = true := by simpa [holds] using hb.stripped? hunit
    refine ⟨hb.clauses, fun m hm => ?_⟩
    unfold Base.isFact at hm
    rw [Array.getD_eq_getD_getElem?, Array.getElem?_setIfInBounds] at hm
    split at hm
    · rename_i hcode
      rwa [← Literal.code_injective hcode]
    · refine hb.facts m ?_
      rw [Base.isFact, Array.getD_eq_getD_getElem?]
      exact hm
  · exact hb

theorem open? (h : c.holds f = true) (hd : b.open? c = some d) : d.holds f = true := by
  unfold Base.open? at hd
  split at hd
  · cases hd
  · cases hd
    exact hb.strip h

theorem renew (keep : Nat → Bool) : (b.renew keep).Holds f := by
  refine ⟨fun c hc => ?_, hb.facts⟩
  unfold Base.renew at hc
  rw [Array.mem_append, Array.mem_filterMap, Array.mem_filterMap] at hc
  obtain ⟨d, hd, hc⟩ | ⟨i, hi, hc⟩ := hc
  · obtain ⟨k, hk, rfl⟩ := Array.mem_extract_iff_getElem.mp hd
    exact hb.open? (hb.clauses _ (Array.getElem_mem _)) hc
  · have hlt : b.given + i < b.clauses.size := by
      have := Array.mem_range.mp hi
      omega
    split at hc
    · rw [Base.clause, Array.getD_eq_getD_getElem?, Array.getElem?_eq_getElem hlt] at hc
      exact hb.open? (hb.clauses _ (Array.getElem_mem hlt)) hc
    · cases hc

theorem settle (t : Trail) : (b.settle t).Holds f := by
  unfold Base.settle
  rw [← Array.foldl_toList]
  refine List.foldlRecOn (motive := fun b : Base => b.Holds f) _ _ hb fun b hb l _ => ?_
  cases t.reason l with
  | some i => exact hb.conclude l i
  | none => exact hb

/-! ### Conflicts -/

theorem analyze (t : Trail) (fuel : Nat) (h : c.holds f = true) :
    (t.analyze b fuel c).holds f = true := by
  induction fuel generalizing c with
  | zero => exact h
  | succ fuel ih =>
    match c, h with
    | [], h | [l], h => exact h
    | l :: m :: rest, h =>
      unfold Trail.analyze
      split
      · exact h
      · split
        · exact h
        · rename_i why hwhy
          obtain ⟨i, -, hi⟩ := Option.bind_eq_some_iff.mp hwhy
          exact ih (Trail.holds_resolvent h (hb.stripped? hi))

theorem without (h : c.holds f = true) (himp : t.isImplied b c l = true) :
    (c.without l).holds f = true := by
  unfold Trail.isImplied at himp
  split at himp
  · cases himp
  · rename_i why hwhy
    obtain ⟨i, -, hi⟩ := Option.bind_eq_some_iff.mp hwhy
    cases hl : l.holds f with
    | false => exact holds_without h hl
    | true =>
      have hopp : l.opposite.holds f = false := by rw [Literal.holds_opposite, hl]; rfl
      refine holds_of_subset (holds_without (hb.stripped? hi) hopp) fun m hm => ?_
      have hm := all_eq_true.mp himp m hm
      rw [Bool.and_eq_true, decide_eq_true_eq, decide_eq_true_eq] at hm
      exact mem_filter.mpr ⟨hm.2, decide_eq_true hm.1⟩

theorem minimize (t : Trail) (h : c.holds f = true) : (t.minimize b c).holds f = true := by
  unfold Trail.minimize
  refine List.foldlRecOn (motive := fun c : Clause => c.holds f = true) _ _ h fun c hc l _ => ?_
  split
  · rename_i himp
    exact hb.without hc himp
  · exact hc

theorem lesson? (h : b.lesson? t i = some c) : c.holds f = true := by
  obtain ⟨d, hd, rfl⟩ := Option.map_eq_some_iff.mp h
  refine hb.minimize t (hb.analyze t _ ?_)
  exact holds_of_subset (hb.stripped? hd) fun m hm => Trail.mem_merge.mpr (.inr hm)

/-! ### The search -/

theorem refresh (t : Trail) : (b.refresh t).1.Holds f := by
  unfold Base.refresh
  by_cases hmany : Base.capacity < b.clauses.size - b.given
  · rw [if_pos hmany]
    dsimp only
    apply hb.renew
  · rw [if_neg hmany]
    exact hb

theorem stripped?_ne_nil (i : Nat) : b.stripped? i ≠ some [] := by
  intro h
  have hnil := hb.stripped? h
  cases hnil

end

theorem searchFrom_ne_refuted (size fuel : Nat) (hb : b.Holds f) (t : Trail)
    (left patience : Nat) : Base.searchFrom size fuel b t left patience ≠ .refuted := by
  induction fuel generalizing b t left patience with
  | zero => exact nofun
  | succ fuel ih =>
    unfold Base.searchFrom
    split
    · split
      · rw [if_neg ((hb.settle _).stripped?_ne_nil _)]
        exact nofun
      · split
        · exact nofun
        · rename_i hlesson
          have hnil := hb.lesson? hlesson
          cases hnil
        · rename_i hlesson
          exact ih (hb.add (hb.lesson? hlesson)) _ _ _
    · split
      · exact ih (hb.refresh _) _ _ _
      · dsimp only
        split
        · exact nofun
        · refine ih ?_ _ _ _
          split
          · exact hb.settle _
          · exact hb

/-- A base that holds under some choice of truth values is not refuted. -/
theorem search_ne_refuted (hb : b.Holds f) (size : Nat) (habits : Array Bool) :
    b.search size habits ≠ .refuted := by
  unfold Base.search
  dsimp only
  split
  · rw [if_neg ((hb.settle _).stripped?_ne_nil _)]
    exact nofun
  · exact hb.searchFrom_ne_refuted _ _ _ _ _

end Base.Holds

end ControlReach
