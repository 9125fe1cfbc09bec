import ControlReach.Proofs.CircuitValue
import ControlReach.Proofs.TermMeaning

/-!
# Terms as circuits

What a circuit says about the terms it was made from. Whether a term is remembered from an earlier
place makes no difference, so the signal of a term is told by the term alone.
-/

namespace ControlReach

open List Term StringValue

/-- The values that unknowns have for the solver: those of the names that it knows. -/
def Valuation.known {δ : Type} (v : Valuation δ) : Valuation δ :=
  ⟨fun x => v.flag (knownName x), fun x => v.text (knownName x)⟩

/-! ### Faults -/

variable {fault : EncodingFault} {r : Except EncodingFault Signal} {α : Type}

namespace Term

def notBool? (a : Term) : Option EncodingFault :=
  if a.sort = .bool then none else some .sortMismatch

mutual

/-- The first reason from left to right for which the solver cannot be given a term. -/
def fault? : Term → Option EncodingFault
  | .bool _ => none
  | .text _ => none
  | .symbol s =>
    match Text.encode s.name with
    | .error run => some (.badName run)
    | .ok _ => none
  | .not a => (fault? a).or a.notBool?
  | .and as => faultAll? as
  | .or as => faultAll? as
  | .eq a b =>
    ((fault? a).or (fault? b)).or (if a.sort = b.sort then none else some .sortMismatch)
  | .one as => faultAll? as

def faultAll? : List Term → Option EncodingFault
  | [] => none
  | a :: as => ((fault? a).or a.notBool?).or (faultAll? as)

end

theorem notBool?_eq_none_iff {a : Term} : a.notBool? = none ↔ a.sort = .bool := by
  unfold notBool?
  split <;> simp_all

/-- All unknowns of a list have names that can be encoded. -/
def Encodable (l : List Symbol) : Prop := ∀ s ∈ l, ∃ bytes, Text.encode s.name = .ok bytes

theorem encodable_append : Encodable (l ++ m) ↔ Encodable l ∧ Encodable m := forall_mem_append

mutual

theorem fault?_eq_none_iff : ∀ a : Term, a.fault? = none ↔ a.WellSorted ∧ Encodable a.symbols
  | .bool _ | .text _ => by simp [fault?, WellSorted, symbols, Encodable]
  | .symbol s => by
    cases h : Text.encode s.name <;> simp [fault?, WellSorted, symbols, Encodable, h]
  | .not a => by
    rw [fault?, Option.or_eq_none_iff, fault?_eq_none_iff a, notBool?_eq_none_iff, WellSorted,
      symbols]
    tauto
  | .and as | .or as | .one as => by rw [fault?, faultAll?_eq_none_iff as, WellSorted, symbols]
  | .eq a b => by
    have hsorts : (if a.sort = b.sort then none else some EncodingFault.sortMismatch) = none ↔
        a.sort = b.sort := by
      split <;> simp_all
    rw [fault?, Option.or_eq_none_iff, Option.or_eq_none_iff, fault?_eq_none_iff a,
      fault?_eq_none_iff b, hsorts, WellSorted, symbols, encodable_append]
    tauto

theorem faultAll?_eq_none_iff :
    ∀ as : List Term, faultAll? as = none ↔ WellSortedAll as ∧ Encodable (symbolsList as)
  | [] => by simp [faultAll?, WellSortedAll, symbolsList, Encodable]
  | a :: as => by
    rw [faultAll?, Option.or_eq_none_iff, Option.or_eq_none_iff, fault?_eq_none_iff a,
      notBool?_eq_none_iff, faultAll?_eq_none_iff as, WellSortedAll, symbolsList, encodable_append]
    tauto

end

/-- A fault is right: a name cannot be encoded, or the terms are not well-sorted. -/
def Faulty (sorted : Prop) (l : List Symbol) : EncodingFault → Prop
  | .badName run => ∃ s ∈ l, Text.encode s.name = .error run
  | .sortMismatch => ¬ sorted

theorem Faulty.mono {sorted sorted' : Prop} (h : Faulty sorted l fault) (hsorted : sorted' → sorted)
    (hl : l ⊆ l') : Faulty sorted' l' fault := by
  cases fault with
  | badName run =>
    obtain ⟨s, hs, hrun⟩ := h
    exact ⟨s, hl hs, hrun⟩
  | sortMismatch => exact fun h' => h (hsorted h')

theorem faulty_notBool? {a : Term} (h : a.notBool? = some fault) :
    Faulty (a.sort = .bool) [] fault := by
  unfold notBool? at h
  split at h
  · cases h
  · cases h
    assumption

mutual

theorem faulty_fault? : ∀ a : Term, a.fault? = some fault → Faulty a.WellSorted a.symbols fault
  | .bool _, h | .text _, h => by cases h
  | .symbol s, h => by
    rw [fault?] at h
    split at h
    · rename_i r hr
      cases h
      exact ⟨s, mem_singleton_self s, hr⟩
    · cases h
  | .not a, h => by
    rw [fault?, Option.or_eq_some_iff] at h
    obtain h | ⟨-, h⟩ := h
    · exact (faulty_fault? a h).mono (fun ⟨_, ha⟩ => ha) (Subset.refl _)
    · exact (faulty_notBool? h).mono (fun ⟨hsort, _⟩ => hsort) (nil_subset _)
  | .and as, h | .or as, h | .one as, h => faulty_faultAll? as h
  | .eq a b, h => by
    rw [fault?, Option.or_eq_some_iff, Option.or_eq_some_iff] at h
    obtain (h | ⟨-, h⟩) | ⟨-, h⟩ := h
    · exact (faulty_fault? a h).mono (fun ⟨_, ha, _⟩ => ha) (subset_append_left _ _)
    · exact (faulty_fault? b h).mono (fun ⟨_, _, hb⟩ => hb) (subset_append_right _ _)
    · split at h
      · cases h
      · rename_i hne
        cases h
        exact fun ⟨hsorts, _⟩ => hne hsorts

theorem faulty_faultAll? : ∀ as : List Term, faultAll? as = some fault →
    Faulty (WellSortedAll as) (symbolsList as) fault
  | [], h => by cases h
  | a :: as, h => by
    rw [faultAll?, Option.or_eq_some_iff, Option.or_eq_some_iff] at h
    obtain (h | ⟨-, h⟩) | ⟨-, h⟩ := h
    · exact (faulty_fault? a h).mono (fun ⟨_, ha, _⟩ => ha) (subset_append_left _ _)
    · exact (faulty_notBool? h).mono (fun ⟨hsort, _⟩ => hsort) (nil_subset _)
    · exact (faulty_faultAll? as h).mono (fun ⟨_, _, has⟩ => has) (subset_append_right _ _)

end

/-! ### Signals -/

variable {c : Circuit}

/-- A literal of a circuit has the truth value of a term. -/
structure HasLiteral (c : Circuit) (a : Term) (l : Literal) : Prop where
  bound : l.index < c.gates.size
  holds : ∀ v, l.holds (c.value v) = a.holds ofText (Valuation.known v)

theorem HasLiteral.mono {a : Term} (h : a.HasLiteral c l) (hcd : c.Extends d) : a.HasLiteral d l :=
  ⟨Nat.lt_of_lt_of_le h.bound hcd.size_le, fun v => (hcd.holds h.bound).trans (h.holds v)⟩

/-- What became of a term says what the term says. -/
def Represents (c : Circuit) (a : Term) : Except EncodingFault Signal → Prop
  | .error fault => a.fault? = some fault
  | .ok (.flag l) => a.fault? = none ∧ a.sort = .bool ∧ a.HasLiteral c l
  | .ok (.str s) => a.fault? = none ∧ a.sort = .string ∧
      ∀ v : Valuation StringValue, a.string ofText v.known = some (s.value v)

/-- What became of terms that are to hold says what the terms say. -/
def RepresentsAll (c : Circuit) (as : List Term) : Except EncodingFault (List Literal) → Prop
  | .error fault => faultAll? as = some fault
  | .ok ls => faultAll? as = none ∧ Forall₂ (HasLiteral c) as ls

theorem Represents.mono {a : Term} (h : a.Represents c r) (hcd : c.Extends d) :
    a.Represents d r := by
  match r, h with
  | .error _, h => exact h
  | .ok (.flag _), ⟨hfault, hsort, hl⟩ => exact ⟨hfault, hsort, hl.mono hcd⟩
  | .ok (.str _), h => exact h

theorem Represents.fault?_eq_none {a : Term} (h : a.Represents c (.ok s)) : a.fault? = none := by
  match s, h with
  | .flag _, h | .str _, h => exact h.1

theorem Represents.literal {a : Term} (h : a.Represents c r) :
    (∃ fault, r.bind Signal.literal = .error fault ∧ a.fault?.or a.notBool? = some fault) ∨
      ∃ l, r.bind Signal.literal = .ok l ∧ a.fault?.or a.notBool? = none ∧ a.HasLiteral c l := by
  match r, h with
  | .error fault, h => exact .inl ⟨fault, rfl, by rw [show a.fault? = some fault from h]; rfl⟩
  | .ok (.flag l), ⟨hfault, hsort, hl⟩ =>
    refine .inr ⟨l, rfl, ?_, hl⟩
    rw [hfault, notBool?_eq_none_iff.mpr hsort]
    rfl
  | .ok (.str s), ⟨hfault, hsort, _⟩ =>
    refine .inl ⟨.sortMismatch, rfl, ?_⟩
    rw [hfault, notBool?, hsort]
    rfl

end Term

/-! ### Memory -/

theorem Memory.lookup_of_lookup_take {β : Type} [BEq α] {l : List (α × β)} {n : Nat} {a : α} {b : β}
    (h : (l.take n).lookup a = some b) : l.lookup a = some b := by
  rw [← take_append_drop n l, lookup_append, h]
  rfl

theorem Memory.find?_record {m : Memory} {key : Nat} {a : Term} {key' : Nat} {a' : Term}
    {r' : Except EncodingFault Signal} (h : (m.record key a r).find? key' a' = some r') :
    (a' = a ∧ r' = r) ∨ m.find? key' a' = some r' := by
  unfold find? record at *
  rw [Std.TreeMap.getD_insert] at h
  split at h
  · rename_i hkey
    obtain rfl := Std.LawfulEqCmp.eq_of_compare hkey
    have hcons := lookup_of_lookup_take h
    rw [lookup_cons] at hcons
    split at hcons
    · rename_i heq
      exact .inl ⟨by simpa using heq, (Option.some.inj hcons).symm⟩
    · exact .inr hcons
  · exact .inr h

/-- Circuit and memory tell the truth. -/
structure Workbench.Sound (w : Workbench) : Prop where
  circuit : w.circuit.Sound
  memory : ∀ key a r, w.memory.find? key a = some r → a.Represents w.circuit r

theorem Workbench.sound_initial : Workbench.Sound ⟨.initial, ∅⟩ where
  circuit := Circuit.sound_initial
  memory key a r h := by
    rw [Memory.find?, Std.TreeMap.getD_emptyc] at h
    cases h

theorem Workbench.Sound.grow {w : Workbench} (h : w.Sound) {d : Circuit} (hd : d.Sound)
    (hgrows : w.circuit.Extends d) : Workbench.Sound ⟨d, w.memory⟩ :=
  ⟨hd, fun key a r hr => (h.memory key a r hr).mono hgrows⟩

/-- A step keeps a workbench sound and gives something with a property. -/
structure Workbench.Assembled {α : Type} (w : Workbench) (r : α × Workbench)
    (means : Circuit → α → Prop) : Prop where
  sound : r.2.Sound
  grows : w.circuit.Extends r.2.circuit
  means : means r.2.circuit r.1

theorem Workbench.Assembled.after {w w' : Workbench} {r : α × Workbench}
    {means : Circuit → α → Prop} (h : w'.Assembled r means)
    (hgrows : w.circuit.Extends w'.circuit) : w.Assembled r means :=
  ⟨h.sound, hgrows.trans h.grows, h.means⟩

theorem Workbench.Assembled.bind {β : Type} {w : Workbench} {x : Assembly α} {f : α → Assembly β}
    {P : Circuit → α → Prop} {Q : Circuit → β → Prop} (hx : w.Assembled (x.run w) P)
    (hf : ∀ r (w' : Workbench), w'.Sound → w.circuit.Extends w'.circuit → P w'.circuit r →
      w'.Assembled ((f r).run w') Q) : w.Assembled ((x >>= f).run w) Q :=
  (hf _ _ hx.sound hx.grows hx.means).after hx.grows

namespace Assembly

variable {w : Workbench} {a : Term}

variable (hw : w.Sound)

include hw

theorem assembled_remembered {step : Assembly (Except EncodingFault Signal)}
    (hstep : w.Assembled (step.run w) fun c => a.Represents c) :
    w.Assembled ((remembered a step).run w) fun c => a.Represents c := by
  cases hfind : w.memory.find? (a.sketch 2) a with
  | some r =>
    have hrun : (remembered a step).run w = pure (r, w) := by
      simp [remembered, hfind]
    rw [hrun]
    exact ⟨hw, .refl _, hw.memory _ a r hfind⟩
  | none =>
    obtain ⟨⟨r, w'⟩, hr⟩ : ∃ r, step.run w = r := ⟨_, rfl⟩
    have hrun : (remembered a step).run w =
        pure (r, { w' with memory := w'.memory.record (a.sketch 2) a r }) := by
      simp [remembered, hfind, hr]
      rfl
    rw [hr] at hstep
    rw [hrun]
    refine ⟨⟨hstep.sound.circuit, fun key a' r' h => ?_⟩, hstep.grows, hstep.means⟩
    obtain ⟨rfl, rfl⟩ | h := Memory.find?_record h
    · exact hstep.means
    · exact hstep.sound.memory key a' r' h

theorem assembled_lift {step : Wiring Literal}
    (hstep : w.circuit.Wired (step.run w.circuit) means) (hfault : a.fault? = none)
    (hsort : a.sort = .bool)
    (hmeans : ∀ v : Valuation StringValue, means v = a.holds ofText v.known) :
    w.Assembled ((do return .ok (.flag (← lift step)) :
      Assembly (Except EncodingFault Signal)).run w) fun c => a.Represents c :=
  ⟨hw.grow hstep.sound hstep.grows, hstep.grows, hfault, hsort, hstep.bound,
    fun v => (hstep.holds v).trans (hmeans v)⟩

theorem assembled_onAll {as : List Term} {r : Except EncodingFault (List Literal)}
    (hr : Term.RepresentsAll w.circuit as r) {step : List Literal → Wiring Literal}
    (hfault : a.fault? = faultAll? as) (hsort : a.sort = .bool)
    (hstep : ∀ ls, Forall₂ (Term.HasLiteral w.circuit) as ls →
      w.circuit.Wired ((step ls).run w.circuit) fun v => a.holds ofText v.known) :
    w.Assembled ((onAll step r).run w) fun c => a.Represents c := by
  match r, hr with
  | .error fault, hr => exact ⟨hw, .refl _, hfault.trans hr⟩
  | .ok ls, ⟨hnone, hls⟩ =>
    exact assembled_lift hw (hstep ls hls) (hfault.trans hnone) hsort fun _ => rfl

theorem assembled_unknown (s : Symbol) :
    w.Assembled ((unknown s).run w) fun c => (symbol s).Represents c := by
  obtain ⟨name, sort⟩ := s
  unfold unknown
  cases hname : Text.encode name with
  | error run =>
    refine ⟨hw, .refl _, ?_⟩
    show fault? _ = some (.badName run)
    simp only [fault?, hname]
  | ok bytes =>
    have hfault : (symbol ⟨name, sort⟩).fault? = none := by
      simp only [fault?, hname]
    cases sort with
    | bool =>
      exact assembled_lift hw (hw.circuit.wired_flag (knownName name)) hfault rfl fun _ => rfl
    | string => exact ⟨hw, .refl _, hfault, rfl, fun _ => rfl⟩

theorem assembled_compare {b : Term} (ha : a.Represents w.circuit (.ok s))
    (hb : b.Represents w.circuit (.ok t)) :
    w.Assembled ((compare s t).run w) fun c => (eq a b).Represents c := by
  match s, t, ha, hb with
  | .flag l, .flag m, ⟨hfa, hsa, hl⟩, ⟨hfb, hsb, hm⟩ =>
    refine assembled_lift hw (hw.circuit.wired_equivalence hl.bound hm.bound) ?_ rfl fun v => ?_
    · simp [fault?, hfa, hfb, hsa, hsb]
    · rw [hl.holds, hm.holds]
      simp [holds, hsa]
  | .str s, .str t, ⟨hfa, hsa, hs⟩, ⟨hfb, hsb, ht⟩ =>
    refine assembled_lift hw (hw.circuit.wired_same s t) ?_ rfl fun v => ?_
    · simp [fault?, hfa, hfb, hsa, hsb]
    · simp [holds, hsa, hsb, hs, ht]
  | .flag l, .str t, ⟨hfa, hsa, _⟩, ⟨hfb, hsb, _⟩
  | .str s, .flag m, ⟨hfa, hsa, _⟩, ⟨hfb, hsb, _⟩ =>
    refine ⟨hw, .refl _, ?_⟩
    show fault? _ = some EncodingFault.sortMismatch
    simp [fault?, hfa, hfb, hsa, hsb]

end Assembly

/-! ### Terms -/

namespace Term

variable {c : Circuit} {ls : List Literal}

section

variable (h : Forall₂ (HasLiteral c) as ls)

include h

theorem bound_of_forall₂ : ∀ l ∈ ls, l.index < c.gates.size := by
  induction h with
  | nil => simp
  | cons hl _ ih => exact forall_mem_cons.mpr ⟨hl.bound, ih⟩

theorem all_holds_of_forall₂ (v : Valuation StringValue) :
    ls.all (Literal.holds (c.value v)) = allHold ofText v.known as := by
  induction h with
  | nil => rfl
  | cons hl _ ih => rw [all_cons, hl.holds, ih, allHold]

theorem any_holds_of_forall₂ (v : Valuation StringValue) :
    ls.any (Literal.holds (c.value v)) = anyHolds ofText v.known as := by
  induction h with
  | nil => rfl
  | cons hl _ ih => rw [any_cons, hl.holds, ih, anyHolds]

theorem countP_holds_of_forall₂ (v : Valuation StringValue) :
    ls.countP (Literal.holds (c.value v)) = countHolding ofText v.known as := by
  induction h with
  | nil => rfl
  | cons hl _ ih => rw [countP_cons, hl.holds, ih, countHolding, Nat.add_comm]

end

theorem assembled_connective {a : Term} {w : Workbench} (hw : w.Sound)
    (has : w.Assembled ((wireAll as).run w) fun c => RepresentsAll c as)
    {step : List Literal → Wiring Literal} (hfault : a.fault? = faultAll? as)
    (hsort : a.sort = .bool) (hstep : ∀ {c : Circuit} {ls}, c.Sound → Forall₂ (HasLiteral c) as ls →
      c.Wired ((step ls).run c) fun v => a.holds ofText v.known) :
    w.Assembled ((Assembly.remembered a do Assembly.onAll step (← wireAll as)).run w) fun c =>
      a.Represents c := by
  refine Assembly.assembled_remembered hw (has.bind fun r w' hw' _ hr => ?_)
  exact Assembly.assembled_onAll hw' hr hfault hsort fun ls hls => hstep hw'.circuit hls

mutual

theorem assembled_wire : ∀ (a : Term) {w : Workbench}, w.Sound →
    w.Assembled ((wire a).run w) fun c => a.Represents c
  | .bool b, w, hw => by
    have hconst := hw.circuit.wired_constant b
    exact ⟨hw, .refl _, rfl, rfl, hconst.bound, hconst.holds⟩
  | .text s, w, hw => ⟨hw, .refl _, rfl, rfl, fun _ => rfl⟩
  | .symbol s, w, hw => Assembly.assembled_unknown hw s
  | .not a, w, hw => by
    rw [wire]
    refine (assembled_wire a hw).bind fun r w' hw' _ ha => ⟨hw', .refl _, ?_⟩
    show (not a).Represents w'.circuit ((r.bind Signal.literal).map fun l => .flag l.opposite)
    obtain ⟨fault, hlit, hfault⟩ | ⟨l, hlit, hfault, hl⟩ := ha.literal
    · rw [hlit]
      exact hfault
    · rw [hlit]
      refine ⟨hfault, rfl, ?_, fun v => ?_⟩
      · rw [Literal.index_opposite]
        exact hl.bound
      · rw [Literal.holds_opposite, hl.holds]
        rfl
  | .and as, w, hw => by
    refine assembled_connective hw (assembled_wireAll as hw) rfl rfl fun hc hls => ?_
    have hwired := hc.wired_conjunction (bound_of_forall₂ hls)
    simpa only [all_holds_of_forall₂ hls, holds] using hwired
  | .or as, w, hw => by
    refine assembled_connective hw (assembled_wireAll as hw) rfl rfl fun hc hls => ?_
    have hwired := hc.wired_disjunction (bound_of_forall₂ hls)
    simpa only [any_holds_of_forall₂ hls, holds] using hwired
  | .eq a b, w, hw => by
    refine Assembly.assembled_remembered hw ((assembled_wire a hw).bind fun r w₁ hw₁ _ ha => ?_)
    match r, ha with
    | .error fault, ha =>
      refine ⟨hw₁, .refl _, ?_⟩
      show (eq a b).fault? = some fault
      rw [fault?, show a.fault? = some fault from ha]
      rfl
    | .ok s, ha =>
      refine (assembled_wire b hw₁).bind fun q w₂ hw₂ hgrows hb => ?_
      match q, hb with
      | .error fault, hb =>
        refine ⟨hw₂, .refl _, ?_⟩
        show (eq a b).fault? = some fault
        rw [fault?, ha.fault?_eq_none, show b.fault? = some fault from hb]
        rfl
      | .ok t, hb => exact Assembly.assembled_compare hw₂ (ha.mono hgrows) hb
  | .one as, w, hw => by
    refine assembled_connective hw (assembled_wireAll as hw) rfl rfl fun hc hls => ?_
    have hwired := hc.wired_exactlyOne (bound_of_forall₂ hls)
    simpa only [countP_holds_of_forall₂ hls, holds] using hwired

theorem assembled_wireAll : ∀ (as : List Term) {w : Workbench}, w.Sound →
    w.Assembled ((wireAll as).run w) fun c => RepresentsAll c as
  | [], w, hw => ⟨hw, .refl _, rfl, .nil⟩
  | a :: as, w, hw => by
    rw [wireAll]
    refine (assembled_wire a hw).bind fun r w₁ hw₁ _ ha => ?_
    obtain ⟨fault, hlit, hfault⟩ | ⟨l, hlit, hfault, hl⟩ := ha.literal
    · rw [hlit]
      refine ⟨hw₁, .refl _, ?_⟩
      show faultAll? (a :: as) = some fault
      rw [faultAll?, hfault]
      rfl
    · rw [hlit]
      refine (assembled_wireAll as hw₁).bind fun q w₂ hw₂ hgrows has => ⟨hw₂, .refl _, ?_⟩
      match q, has with
      | .error fault, has =>
        show faultAll? (a :: as) = some fault
        rw [faultAll?, hfault]
        exact has
      | .ok ls, has =>
        refine ⟨?_, .cons (hl.mono hgrows) has.2⟩
        rw [faultAll?, hfault]
        exact has.1

end

end Term

/-! ### Problems -/

/-- The circuit of a problem is sound, and its literals stand for gates. -/
structure Problem.Sound (p : Problem) : Prop where
  circuit : p.circuit.Sound
  roots : ∀ l ∈ p.roots, l.index < p.circuit.gates.size

namespace Problem

/-- Terms have a fault, or their problem is satisfied by the values that make them hold. -/
theorem ofTerms_spec (terms : List Term) : match ofTerms terms with
    | .error fault => faultAll? terms = some fault
    | .ok p => p.Sound ∧ faultAll? terms = none ∧
        ∀ v, p.holds v = allHold ofText v.known terms := by
  have hall := assembled_wireAll terms Workbench.sound_initial
  unfold ofTerms
  obtain ⟨⟨r, w⟩, hr⟩ : ∃ r, (wireAll terms).run ⟨.initial, ∅⟩ = r := ⟨_, rfl⟩
  rw [show ShareCommon.shareCommon' terms = terms from rfl, hr]
  rw [hr] at hall
  match r, hall with
  | .error _, hall => exact hall.means
  | .ok roots, hall =>
    obtain ⟨hfault, hroots⟩ := hall.means
    exact ⟨⟨hall.sound.circuit, bound_of_forall₂ hroots⟩, hfault,
      fun v => all_holds_of_forall₂ hroots v⟩

theorem ofTerms_eq_error (h : ofTerms terms = .error fault) :
    faultAll? terms = some fault := by simpa only [h] using ofTerms_spec terms

theorem ofTerms_eq_ok (h : ofTerms terms = .ok p) : p.Sound ∧ faultAll? terms = none ∧
      ∀ v, p.holds v = allHold ofText v.known terms := by
  simpa only [h] using ofTerms_spec terms

theorem exists_ofTerms_eq_ok (h : faultAll? terms = none) : ∃ p, ofTerms terms = .ok p := by
  match hp : ofTerms terms with
  | .ok p => exact ⟨p, rfl⟩
  | .error fault =>
    have hfault := ofTerms_eq_error hp
    rw [h] at hfault
    cases hfault

end Problem

end ControlReach
