import ControlReach.Proofs.Resolution
import ControlReach.Proofs.TermWiring
import ControlReach.Solver.Encode
import Mathlib.Data.Bool.Basic

/-!
# What the clauses of a circuit say

The clauses of a circuit hold under the values of its gates. So if some values make the roots of a
problem true, no search refutes its base.
-/

namespace ControlReach

open List Literal

/-! ### Gates -/

namespace Gate

theorem sublist_of_mem_pairs (h : (a, b) ∈ pairs l) : [a, b].Sublist l := by
  induction l with
  | nil => cases h
  | cons c l ih =>
    rw [pairs, mem_append, mem_map] at h
    obtain ⟨d, hd, heq⟩ | h := h
    · obtain ⟨rfl, rfl⟩ := Prod.mk.inj heq
      exact (singleton_sublist.mpr hd).cons_cons _
    · exact (ih h).cons _

theorem perm_of_mem_picks (h : (a, others) ∈ picks before l) :
    (before ++ l).Perm (a :: others) := by
  induction l generalizing before with
  | nil => cases h
  | cons b l ih =>
    rw [picks, mem_cons] at h
    obtain h | h := h
    · obtain ⟨rfl, rfl⟩ := Prod.mk.inj h
      exact perm_middle
    · have hperm := ih h
      rwa [append_assoc] at hperm

/-- The clauses of a gate hold if the literal has the value of the gate. -/
theorem holds_clauses {g : Gate} (hl : l.holds f = g.value v f) (hc : c ∈ g.clauses l) :
    c.holds f = true := by
  rw [Clause.holds_iff]
  cases g with
  | truth =>
    obtain rfl := mem_singleton.mp hc
    exact ⟨l, mem_singleton_self l, hl⟩
  | flag x | same s t => cases hc
  | all parts =>
    rw [clauses, mem_cons, mem_map] at hc
    cases hholds : l.holds f with
    | true =>
      have hall := all_eq_true.mp (hl.symm.trans hholds)
      obtain rfl | ⟨q, hq, rfl⟩ := hc
      · exact ⟨l, mem_cons_self, hholds⟩
      · exact ⟨q, by simp, hall q hq⟩
    | false =>
      obtain rfl | ⟨q, hq, rfl⟩ := hc
      · obtain ⟨q, hq, hfails⟩ := all_eq_false.mp (hl.symm.trans hholds)
        refine ⟨q.opposite, mem_cons_of_mem _ (mem_map_of_mem hq), ?_⟩
        simpa using hfails
      · exact ⟨l.opposite, mem_cons_self, by rw [holds_opposite, hholds]; rfl⟩
  | iff a b =>
    have hvalue : l.holds f = (a.holds f == b.holds f) := hl
    simp only [clauses, mem_cons, not_mem_nil, or_false] at hc
    obtain rfl | rfl | rfl | rfl := hc <;>
      simp only [mem_cons, not_mem_nil, or_false, exists_eq_or_imp, exists_eq_left,
        holds_opposite, hvalue] <;>
      cases a.holds f <;> cases b.holds f <;> simp
  | one parts =>
    have hvalue : l.holds f = (parts.countP (holds f) == 1) := hl
    rw [clauses, mem_append, mem_cons, mem_map, mem_map] at hc
    cases hholds : l.holds f with
    | true =>
      have hone : parts.countP (holds f) = 1 := by
        rw [hholds] at hvalue
        exact beq_iff_eq.mp hvalue.symm
      obtain (rfl | ⟨⟨a, b⟩, hab, rfl⟩) | ⟨⟨a, others⟩, -, rfl⟩ := hc
      · obtain ⟨q, hq, hqf⟩ := countP_pos_iff.mp (hone ▸ Nat.one_pos)
        exact ⟨q, mem_cons_of_mem _ hq, hqf⟩
      · by_contra hnone
        have ha : a.holds f = true := by simpa using fun h => hnone ⟨a.opposite, by simp, h⟩
        have hb : b.holds f = true := by simpa using fun h => hnone ⟨b.opposite, by simp, h⟩
        have htwo := (sublist_of_mem_pairs hab).countP_le (p := holds f)
        simp [ha, hb, hone] at htwo
      · exact ⟨l, mem_cons_self, hholds⟩
    | false =>
      have hopp : l.opposite.holds f = true := by rw [holds_opposite, hholds]; rfl
      obtain (rfl | ⟨⟨a, b⟩, -, rfl⟩) | ⟨⟨a, others⟩, hpick, rfl⟩ := hc
      · exact ⟨l.opposite, mem_cons_self, hopp⟩
      · exact ⟨l.opposite, mem_cons_self, hopp⟩
      · by_contra hnone
        have ha : a.holds f = true := by simpa using fun h => hnone ⟨a.opposite, by simp, h⟩
        have hothers : others.countP (holds f) = 0 :=
          countP_eq_zero.mpr fun q hq hqf => hnone ⟨q, by simp [hq], hqf⟩
        have hcount : parts.countP (holds f) = 1 := by
          have hperm := (perm_of_mem_picks hpick).countP_eq (holds f)
          rw [nil_append, countP_cons_of_pos ha, hothers] at hperm
          exact hperm
        rw [hholds, hcount] at hvalue
        cases hvalue

end Gate

/-! ### Equalities -/

def Circuit.hasConstant (c : Circuit) (i : Nat) : Bool :=
  match c.strings[i]? with
  | some (.const _) => true
  | _ => false

namespace Wiring

theorem run_isConstant (c : Circuit) (i : Nat) :
    (isConstant i).run c = pure (c.hasConstant i, c) := by
  unfold isConstant Circuit.hasConstant
  rw [StateT.run_bind]
  show StateT.run (match c.strings[i]? with
    | some (.const _) => pure true
    | _ => pure false : Wiring Bool) c = _
  split <;> rfl

theorem run_filterM {α : Type} {test : α → Wiring Bool} {p : α → Bool}
    (h : ∀ a, (test a).run c = pure (p a, c)) (l : List α) :
    (l.filterM test).run c = pure (l.filter p, c) := by
  have haux : ∀ (l acc : List α), (l.filterAuxM test acc).run c =
      pure ((l.filter p).reverse ++ acc, c) := by
    intro l
    induction l with
    | nil => exact fun acc => rfl
    | cons a l ih =>
      intro acc
      rw [filterAuxM, StateT.run_bind, h, pure_bind]
      cases hp : p a with
      | true | false => simp [ih, hp]
  rw [filterM, StateT.run_bind, haux, pure_bind]
  simp

theorem run_neighbours (c : Circuit) (remaining : List Nat) (i : Nat) :
    (neighbours remaining i).run c = pure ((c.links.getD i []).filter fun a =>
      c.hasConstant a.1 || remaining.contains a.1, c) := by
  unfold neighbours
  rw [StateT.run_bind]
  refine run_filterM (fun a => ?_) _
  rw [StateT.run_bind, run_isConstant, pure_bind]
  rfl

theorem run_loneliest (c : Circuit) (remaining l : List Nat) (best : Option (Nat × Nat)) :
    ∃ r, (loneliest remaining l best).run c = pure (r, c) := by
  induction l generalizing best with
  | nil => exact ⟨_, rfl⟩
  | cons i l ih =>
    rw [loneliest, StateT.run_bind, run_neighbours, pure_bind]
    exact ih _

end Wiring

namespace Circuit.Sound

variable {c : Circuit}

/-- A clause about equalities may be added if it holds whatever the unknowns are. -/
theorem tie (h : c.Sound) (hbound : ∀ l ∈ t, l.index < c.gates.size)
    (hholds : ∀ v, t.holds (c.value v) = true) : Sound { c with ties := c.ties.push t } := by
  refine ⟨h.truth, h.parts, h.flags, h.nodes, h.strings, h.compared, h.size_links,
    h.nodup_links, h.links, fun t' ht' => ?_⟩
  obtain ht' | rfl := Array.mem_push.mp ht'
  · exact h.ties t' ht'
  · exact ⟨hbound, hholds⟩

variable {i j : Nat} {s t : Str}

theorem value_compares (h : c.Sound) (hn : c.Compares n i j) (hs : c.strings[i]? = some s)
    (ht : c.strings[j]? = some t) (v : Valuation StringValue) :
    c.value v n = (s.value v == t.value v) := by
  obtain ⟨s', t', hs', ht', hg⟩ := hn
  obtain rfl := Option.some.inj (hs.symm.trans hs')
  obtain rfl := Option.some.inj (ht.symm.trans ht')
  obtain hg | hg := hg
  · exact h.value hg
  · exact (h.value hg).trans Bool.beq_comm

theorem string_ne (h : c.Sound) (hne : i ≠ j) (hs : c.strings[i]? = some s)
    (ht : c.strings[j]? = some t) : s ≠ t := by
  rintro rfl
  rw [← Array.getElem?_toList] at hs ht
  exact hne ((getElem?_inj (List.getElem?_eq_some_iff.mp hs).1 h.strings).mp (hs.trans ht.symm))

theorem exists_const_of_hasConstant (hs : c.strings[i]? = some s) (ht : c.strings[j]? = some t)
    (h : c.hasConstant i = true ∧ c.hasConstant j = true) : ∃ x y, s = .const x ∧ t = .const y := by
  unfold hasConstant at h
  rw [hs, ht] at h
  cases s <;> cases t <;> simp at h
  exact ⟨_, _, rfl, rfl⟩

theorem lt_of_compares (hn : c.Compares n i j) : n < c.gates.size := by
  obtain ⟨s, t, -, -, hg | hg⟩ := hn
  · exact (Array.getElem?_eq_some_iff.mp hg).1
  · exact (Array.getElem?_eq_some_iff.mp hg).1

def transitivity (p q r : Literal) : List Clause :=
  [[p.opposite, q.opposite, r], [p.opposite, q, r.opposite], [p, q.opposite, r.opposite]]

theorem triangle (h : c.Sound) {a b : Nat × Nat} (hne : a.1 ≠ b.1) (ha : c.Compares a.2 i a.1)
    (hb : c.Compares b.2 i b.1) :
    ((Wiring.triangle a b).run c).2.Sound ∧ c.Extends ((Wiring.triangle a b).run c).2 := by
  obtain ⟨r, s, hr, hs, -⟩ := id ha
  obtain ⟨r', t, hr', ht, -⟩ := id hb
  obtain rfl := Option.some.inj (hr.symm.trans hr')
  have hp := fun v => h.value_compares ha hr hs v
  have hq := fun v => h.value_compares hb hr ht v
  unfold Wiring.triangle
  rw [StateT.run_bind, Wiring.run_isConstant]
  simp only [pure_bind]
  rw [StateT.run_bind, Wiring.run_isConstant]
  simp only [pure_bind]
  have hla := lt_of_compares ha
  have hlb := lt_of_compares hb
  split
  · -- Two different constants cannot both be equal to a third string.
    rename_i hconst
    obtain ⟨x, y, rfl, rfl⟩ := exists_const_of_hasConstant hs ht (by simpa using hconst)
    have hxy : x ≠ y := fun heq => h.string_ne hne hs ht (congrArg Str.const heq)
    refine ⟨h.tie (by simp [hla, hlb]) fun v => ?_, ⟨prefix_rfl, prefix_rfl⟩⟩
    simp only [Clause.holds, any_cons, any_nil, Bool.or_false, holds_opposite,
      holds_ofIndex, hp, hq, Str.value]
    grind
  · have hwired := h.wired_equality hne hs ht
    rw [StateT.run_bind]
    obtain ⟨⟨l, d⟩, hd⟩ : ∃ r, (Wiring.equality a.1 b.1).run c = r := ⟨_, rfl⟩
    rw [hd] at hwired ⊢
    have hda : a.2 < d.gates.size := Nat.lt_of_lt_of_le hla hwired.grows.size_le
    have hdb : b.2 < d.gates.size := Nat.lt_of_lt_of_le hlb hwired.grows.size_le
    have hdp : ∀ v, d.value v a.2 = (r.value v == s.value v) := fun v =>
      (hwired.grows.value hla).trans (hp v)
    have hdq : ∀ v, d.value v b.2 = (r.value v == t.value v) := fun v =>
      (hwired.grows.value hlb).trans (hq v)
    have hdl : ∀ v, l.holds (d.value v) = (s.value v == t.value v) := hwired.holds
    have hclauses : ∀ v, ∀ t ∈ transitivity (.ofIndex a.2) (.ofIndex b.2) l,
        Clause.holds (d.value v) t = true := by
      intro v
      simp only [transitivity, forall_mem_cons, Clause.holds, any_cons, any_nil,
        Bool.or_false, holds_opposite, holds_ofIndex, hdp, hdq, hdl]
      grind
    have hbounds : ∀ t ∈ transitivity (.ofIndex a.2) (.ofIndex b.2) l,
        ∀ m ∈ t, m.index < d.gates.size := by
      simp [transitivity, hda, hdb, hwired.bound]
    refine ⟨?_, hwired.grows.trans ⟨prefix_rfl, prefix_rfl⟩⟩
    have hfirst := hwired.sound.tie (hbounds _ (.head _)) fun v => hclauses v _ (.head _)
    have hsecond := hfirst.tie (hbounds _ (.tail _ (.head _))) fun v =>
      hclauses v _ (.tail _ (.head _))
    exact hsecond.tie (hbounds _ (.tail _ (.tail _ (.head _)))) fun v =>
      hclauses v _ (.tail _ (.tail _ (.head _)))

theorem forM_triangle (l : List ((Nat × Nat) × (Nat × Nat))) (h : c.Sound)
    (hl : ∀ p ∈ l, p.1.1 ≠ p.2.1 ∧ c.Compares p.1.2 i p.1.1 ∧ c.Compares p.2.2 i p.2.1) :
    ((l.forM fun (a, b) => Wiring.triangle a b).run c).2.Sound ∧
      c.Extends ((l.forM fun (a, b) => Wiring.triangle a b).run c).2 := by
  induction l generalizing c with
  | nil => exact ⟨h, .refl c⟩
  | cons p l ih =>
    obtain ⟨⟨hne, ha, hb⟩, hrest⟩ := forall_mem_cons.mp hl
    obtain ⟨hsound, hgrows⟩ := h.triangle hne ha hb
    obtain ⟨hsound', hgrows'⟩ := ih hsound fun q hq =>
      ⟨(hrest q hq).1, (hrest q hq).2.1.mono hgrows, (hrest q hq).2.2.mono hgrows⟩
    exact ⟨hsound', hgrows.trans hgrows'⟩

theorem compares_of_mem_pairs (h : c.Sound)
    (hp : p ∈ Gate.pairs ((c.links.getD i []).filter keep)) :
    p.1.1 ≠ p.2.1 ∧ c.Compares p.1.2 i p.1.1 ∧ c.Compares p.2.2 i p.2.1 := by
  have hsub := (Gate.sublist_of_mem_pairs hp).trans filter_sublist
  have hne := (h.nodup_links i).sublist (hsub.map Prod.fst)
  have hlinks := fun a ha => (h.links i _ _ (hsub.subset ha : a ∈ _)).2.2
  exact ⟨by simpa using hne, hlinks _ (by simp), hlinks _ (by simp)⟩

theorem takeAway (fuel : Nat) (remaining : List Nat) (h : c.Sound) :
    ((Wiring.takeAway fuel remaining).run c).2.Sound ∧
      c.Extends ((Wiring.takeAway fuel remaining).run c).2 := by
  induction fuel generalizing c remaining with
  | zero => exact ⟨h, .refl c⟩
  | succ fuel ih =>
    obtain ⟨r, hr⟩ := Wiring.run_loneliest c remaining remaining none
    rw [Wiring.takeAway, StateT.run_bind, hr, pure_bind]
    cases r with
    | none => exact ⟨h, .refl c⟩
    | some i =>
      dsimp only
      rw [StateT.run_bind, Wiring.run_neighbours, pure_bind, StateT.run_bind]
      obtain ⟨hsound, hgrows⟩ := h.forM_triangle _ fun p hp => h.compares_of_mem_pairs hp
      obtain ⟨hsound', hgrows'⟩ := ih (remaining.filter (· ≠ i)) hsound
      exact ⟨hsound', hgrows.trans hgrows'⟩

theorem closed (h : c.Sound) : c.closed.Sound ∧ c.Extends c.closed := by
  unfold Circuit.closed Wiring.closeEqualities
  rw [StateT.run_bind]
  show ((StateT.run (filterM (fun i => do return !(← Wiring.isConstant i))
    (range c.strings.size) >>= Wiring.takeAway c.strings.size) c).2).Sound ∧
      c.Extends (StateT.run (filterM (fun i => do return !(← Wiring.isConstant i))
        (range c.strings.size) >>= Wiring.takeAway c.strings.size) c).2
  rw [StateT.run_bind, Wiring.run_filterM (p := fun i => !c.hasConstant i), pure_bind]
  · exact h.takeAway _ _
  · intro i
    rw [StateT.run_bind, Wiring.run_isConstant, pure_bind]
    rfl

/-! ### The base of a circuit -/

/-- The base of a sound circuit holds under the values of its gates, if the roots do. -/
theorem base_holds (h : c.Sound) (hroots : ∀ l ∈ roots, l.holds (c.value v) = true) :
    (c.base roots).Holds (c.value v) := by
  refine ⟨fun d hd => ?_, fun l hl => ?_⟩
  · obtain ⟨e, he, rfl⟩ := mem_map.mp (mem_toArray.mp hd)
    refine Clause.holds_of_subset (c := e) ?_ fun l hl => mem_eraseDups.mpr hl
    rw [mem_append, mem_append, mem_map] at he
    obtain (he | ⟨l, hl, rfl⟩) | he := he
    · obtain ⟨⟨g, n⟩, hg, he⟩ := mem_flatMap.mp he
      have hget : c.gates[n]? = some g := by
        rw [← Array.getElem?_toList]
        exact mem_zipIdx_iff_getElem?.mp hg
      refine Gate.holds_clauses (v := v) ?_ he
      rw [holds_ofIndex]
      exact h.value hget
    · exact Clause.holds_iff.mpr ⟨l, mem_singleton_self l, hroots l hl⟩
    · exact (h.ties e (Array.mem_toList_iff.mp he)).2 v
  · unfold Base.isFact Circuit.base Base.ofClauses at hl
    rw [Array.getD_eq_getD_getElem?, Array.getElem?_replicate] at hl
    split at hl <;> cases hl

end Circuit.Sound

theorem Problem.Sound.search_ne_refuted {p : Problem} (h : p.Sound) (hv : p.holds v = true)
    (size : Nat) (habits : Array Bool) :
    (p.circuit.closed.base p.roots).search size habits ≠ .refuted := by
  obtain ⟨hclosed, hgrows⟩ := h.circuit.closed
  refine (hclosed.base_holds (v := v) fun l hl => ?_).search_ne_refuted size habits
  rw [hgrows.holds (h.roots l hl)]
  exact all_eq_true.mp hv l hl

end ControlReach
