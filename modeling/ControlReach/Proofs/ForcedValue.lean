import ControlReach.Proofs.SmallModel
import ControlReach.Solver.Verdict

/-!
# Values that unknowns have to have

The witness shows the value of an unknown if it is forced. A solution with another value shows that
it is not, and if there is none, all values are.
-/

namespace ControlReach

open List

def Valuation.denotation (v : Valuation StringValue) (s : Symbol) : Denotation :=
  match s.sort with
  | .bool => .flag (v.flag s.name)
  | .string => .text (v.text s.name)

theorem Choice.value_eq (c : Choice) (s : Symbol) : c.value s = c.valuation.known.denotation s :=
  rfl

/-! ### Other values -/

namespace Circuit.Sound

variable {c : Circuit}

theorem wired_differs (h : c.Sound) (s : Symbol) (u : Valuation StringValue) :
    c.Wired ((Wiring.differs s (u.known.denotation s)).run c) fun v =>
      decide (v.known.denotation s ≠ u.known.denotation s) := by
  obtain ⟨name, sort⟩ := s
  cases sort with
  | bool =>
    have hflag := h.wired_flag (knownName name)
    show c.Wired ((do
      let l ← Wiring.flag (knownName name)
      return if u.flag (knownName name) then l.opposite else l : Wiring Literal).run c) _
    cases hu : u.flag (knownName name) with
    | true =>
      refine hflag.opposite.congr fun v => ?_
      simp only [Valuation.denotation, Valuation.known, hu]
      cases v.flag (knownName name) <;> rfl
    | false =>
      simp only [Bool.false_eq_true, if_false, bind_pure]
      refine hflag.congr fun v => ?_
      simp only [Valuation.denotation, Valuation.known, hu]
      cases v.flag (knownName name) <;> rfl
  | string =>
    have hsame := h.wired_same (.sym (knownName name)) (.const (u.text (knownName name)))
    refine hsame.opposite.congr fun v => ?_
    show (!(v.text (knownName name) == u.text (knownName name))) = _
    simp only [Valuation.denotation, Valuation.known]
    by_cases heq : v.text (knownName name) = u.text (knownName name) <;> simp [heq]

theorem wired_mapM_differs (us : List Symbol) (u : Valuation StringValue) (h : c.Sound) :
    ∃ ls d, (us.mapM fun s => Wiring.differs s (u.known.denotation s)).run c = (ls, d) ∧
      d.Sound ∧ c.Extends d ∧ (∀ l ∈ ls, l.index < d.gates.size) ∧
      ∀ v, ls.any (Literal.holds (d.value v)) =
        us.any fun s => decide (v.known.denotation s ≠ u.known.denotation s) := by
  induction us generalizing c with
  | nil => exact ⟨[], c, rfl, h, .refl c, nofun, fun _ => rfl⟩
  | cons s us ih =>
    have hfirst := h.wired_differs s u
    obtain ⟨ls, e, he, hsound, hgrows, hbound, hany⟩ := ih hfirst.sound
    refine ⟨((Wiring.differs s (u.known.denotation s)).run c).1 :: ls, e, ?_, hsound,
      hfirst.grows.trans hgrows, ?_, fun v => ?_⟩
    · rw [mapM_cons, StateT.run_bind]
      exact congrArg (fun r : List Literal × Circuit => (_ :: r.1, r.2)) he
    · exact forall_mem_cons.mpr
        ⟨Nat.lt_of_lt_of_le hfirst.bound hgrows.size_le, hbound⟩
    · rw [any_cons, any_cons, hany, hgrows.holds hfirst.bound, hfirst.holds]

end Circuit.Sound

namespace Problem

variable {p : Problem}

theorem Sound.require (h : p.Sound) {step : Wiring Literal}
    (hstep : p.circuit.Wired (step.run p.circuit) means) :
    (p.require step).Sound ∧ ∀ v, (p.require step).holds v = (means v && p.holds v) := by
  refine ⟨⟨hstep.sound, ?_⟩, fun v => ?_⟩
  · exact forall_mem_cons.mpr ⟨hstep.bound, fun m hm =>
      Nat.lt_of_lt_of_le (h.roots m hm) hstep.grows.size_le⟩
  · show ((step.run p.circuit).1 :: p.roots).all (Literal.holds ((step.run p.circuit).2.value v)) =
      (means v && p.roots.all (Literal.holds (p.circuit.value v)))
    rw [all_cons, hstep.holds]
    congr 1
    rw [Bool.eq_iff_iff, all_eq_true, all_eq_true]
    exact forall₂_congr fun m hm => by rw [hstep.grows.holds (h.roots m hm)]

theorem Sound.holds_exclude_iff (h : p.Sound) (c : Choice) (us : List Symbol) :
    (p.exclude c us).Sound ∧ ∀ v, (p.exclude c us).holds v = true ↔
      p.holds v = true ∧ ∃ s ∈ us, v.known.denotation s ≠ c.value s := by
  obtain ⟨ls, d, hd, hsound, hgrows, hbound, hany⟩ :=
    h.circuit.wired_mapM_differs us c.valuation
  have hstep : p.circuit.Wired ((do Wiring.disjunction (← us.mapM fun s =>
      Wiring.differs s (c.value s)) : Wiring Literal).run p.circuit) fun v =>
        us.any fun s => decide (v.known.denotation s ≠ c.value s) := by
    simp only [Choice.value_eq]
    rw [StateT.run_bind, hd]
    exact ((hsound.wired_disjunction hbound).congr hany).after hgrows
  obtain ⟨hreq, hholds⟩ := h.require hstep
  refine ⟨hreq, fun v => ?_⟩
  show (p.require _).holds v = true ↔ _
  rw [hholds, Bool.and_eq_true, any_eq_true, and_comm]
  simp only [decide_eq_true_eq]

/-! ### Forced values -/

variable {c : Choice}

/-- The value of an unknown is the same in all solutions as in a choice. -/
def Forces (p : Problem) (c : Choice) (s : Symbol) : Prop :=
  ∀ v : Valuation StringValue, p.holds v = true → v.known.denotation s = c.value s

/-- Exactly the unknowns whose value is the same in all solutions are found. -/
theorem Sound.mem_forced_iff (h : p.Sound) {keys : List (String × Symbol)}
    (hfuel : keys.length ≤ fuel) : k ∈ forced p c fuel keys ↔ k ∈ keys ∧ p.Forces c k.2 := by
  induction fuel generalizing keys with
  | zero =>
    obtain rfl := eq_nil_of_length_eq_zero (Nat.le_zero.mp hfuel)
    simp [forced]
  | succ fuel ih =>
    obtain ⟨hex, hholds⟩ := h.holds_exclude_iff c (keys.map Prod.snd)
    unfold forced
    split
    · -- Nothing else can be found, so all values are forced.
      rename_i hnone
      refine ⟨fun hk => ⟨hk, fun v hv => ?_⟩, And.left⟩
      by_contra hne
      have hfails := hex.not_holds_of_solve hnone v
      rw [(hholds v).mpr ⟨hv, k.2, mem_map_of_mem hk, hne⟩] at hfails
      cases hfails
    · -- A solution shows which values are not forced, and at least one of them is not.
      rename_i d hd
      obtain ⟨hpd, s, hs, hne⟩ := (hholds d.valuation).mp (satisfies_of_solve hd)
      obtain ⟨k', hk', rfl⟩ := mem_map.mp hs
      have hlt : (keys.filter fun k => d.value k.2 = c.value k.2).length < keys.length :=
        length_filter_lt_length_iff_exists.mpr
          ⟨k', hk', fun hsame => hne (of_decide_eq_true hsame)⟩
      rw [ih (by omega), mem_filter, decide_eq_true_eq]
      constructor
      · exact fun ⟨⟨hk, _⟩, hforced⟩ => ⟨hk, hforced⟩
      · exact fun ⟨hk, hforced⟩ => ⟨⟨hk, hforced d.valuation hpd⟩, hforced⟩

open Classical in
/-- A witness shows the value of an unknown exactly if it is forced. -/
theorem Sound.witness_eq (h : p.Sound) (hc : c.satisfies p = true)
    {keys : List (String × Symbol)} (hkeys : (keys.map Prod.fst).Nodup) :
    witness p c keys = keys.map fun k =>
      (k.1, if p.Forces c k.2 then (c.value k.2).witness else .any) := by
  let d := c.vary p.circuit.constants
  let other := if d.satisfies p then d else c
  let keys' := keys.filter fun k => other.value k.2 = c.value k.2
  have hother : other.satisfies p = true := by
    by_cases hd : d.satisfies p = true
    · simp only [other, if_pos hd, hd]
    · simp only [other, if_neg hd, hc]
  refine map_congr_left fun ⟨key, s⟩ hs => ?_
  have hsure : key ∈ (forced p c keys'.length keys').map Prod.fst ↔ p.Forces c s := by
    rw [mem_map]
    constructor
    · rintro ⟨⟨_, s'⟩, hforced, rfl⟩
      obtain ⟨hmem, hforces⟩ := (h.mem_forced_iff (Nat.le_refl _)).mp hforced
      have hsame := Assoc.lookup_of_mem hkeys (mem_of_mem_filter hmem)
      rw [Assoc.lookup_of_mem hkeys hs] at hsame
      cases hsame
      exact hforces
    · intro hforces
      refine ⟨(key, s), (h.mem_forced_iff (Nat.le_refl _)).mpr ⟨?_, hforces⟩, rfl⟩
      exact mem_filter.mpr ⟨hs, decide_eq_true (hforces other.valuation hother)⟩
  exact congrArg (Prod.mk key) (if_congr hsure rfl rfl)

theorem Sound.mem_witness_iff (h : p.Sound) (hc : c.satisfies p = true)
    {keys : List (String × Symbol)} (hkeys : (keys.map Prod.fst).Nodup) : (key, value) ∈ witness p c
    keys ↔ ∃ s, (key, s) ∈ keys ∧ (p.Forces c s ∧ value = (c.value s).witness ∨ ¬ p.Forces c s ∧
    value = .any) := by
  rw [h.witness_eq hc hkeys, mem_map]
  grind

theorem keys_witness (p : Problem) (c : Choice) (keys : List (String × Symbol)) :
    (witness p c keys).map Prod.fst = keys.map Prod.fst := by
  unfold witness
  rw [map_map]
  rfl

end Problem

end ControlReach
