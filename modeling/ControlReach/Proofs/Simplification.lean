import ControlReach.Proofs.ExactVerdict
import ControlReach.Proofs.Spelling

/-!
# Simplification

What the constructors put together says what the connective says, and has no other unknowns. So a
query keeps its verdict when equalities are not simplified, as long as no two of its constants stand
for one string.
-/

namespace ControlReach

open List StringValue

namespace Term

variable {as : List Term} {a b t : Term} {P : Symbol → Prop}

/-! ### The constructors -/

theorem Formula.mkOne (h : ∀ a ∈ as, Formula a) : Formula (mkOne as) := by
  fun_cases Term.mkOne as with
  | case1 => exact formula_bool _
  | case2 a => exact h a mem_cons_self
  | case3 => exact ⟨rfl, wellSortedAll_iff.2 h⟩

theorem Over.mkOne (h : ∀ a ∈ as, Over P a) : Over P (mkOne as) := by
  fun_cases Term.mkOne as with
  | case1 => exact over_bool _
  | case2 a => exact h a mem_cons_self
  | case3 => exact over_and.2 h

/-- A formula that has a truth value and no unknowns but those of some terms. -/
structure Says (v : Valuation String) (as : List Term) (value : Bool) (t : Term) : Prop where
  holds : t.holds id v = value
  formula : t.Formula
  symbols : t.symbols ⊆ symbolsList as

/-- What the constructors put together means what the connective means. -/
theorem says_constructors (v : Valuation String) :
    (∀ a, Formula a → Says v [a] (!a.holds id v) (mkNot a)) ∧
    (∀ as, (∀ a ∈ as, Formula a) → Says v as (as.all (holds id v)) (mkAnd as) ∧
      Says v as (as.any (holds id v)) (mkOr as) ∧
      Says v as (as.countP (holds id v) == 1) (mkOne as)) ∧
    ∀ a b, a.WellSorted → b.WellSorted → a.sort = b.sort →
      Says v [a, b] (decide (a.datum v = b.datum v)) (mkEq a b) := by
  refine ⟨fun a ha => ⟨holds_mkNot a, ha.mkNot, (over_symbolsList mem_cons_self).mkNot⟩,
    fun as has => ?_, fun a b ha hb hsorts => ?_⟩
  · have hover : ∀ a ∈ as, Over (· ∈ symbolsList as) a := fun a => over_symbolsList
    refine ⟨⟨?_, .mkAnd has, Over.mkAnd hover⟩, ⟨?_, .mkOr has, Over.mkOr hover⟩,
      ⟨holds_mkOne as, .mkOne has, Over.mkOne hover⟩⟩
    · rw [Bool.eq_iff_iff, holds_mkAnd, all_eq_true]
    · rw [Bool.eq_iff_iff, holds_mkOr, any_eq_true]
  · refine ⟨?_, .mkEq hsorts ha hb, Over.mkEq (over_symbolsList mem_cons_self)
      (over_symbolsList (mem_cons_of_mem a mem_cons_self))⟩
    rw [Bool.eq_iff_iff, holds_mkEq_iff hsorts, decide_eq_true_eq]

/-- A conjunction inside a conjunction, with a flag that occurs twice and a constant. -/
def nested : List Term := [.flag "x", .and [.flag "y", .flag "x"], tt, .not (.flag "z")]

theorem says_constructors_nested : (∀ a ∈ nested, Formula a) ∧
    Says ⟨(· = "x"), id⟩ nested false (mkAnd nested) ∧
    Says ⟨(· = "x"), id⟩ nested true (mkOr nested) ∧
    Says ⟨(· = "x"), id⟩ nested false (mkOne nested) := by
  have hnested : ∀ a ∈ nested, Formula a := wellSortedAll_iff.1
    ⟨rfl, trivial, rfl, ⟨rfl, trivial, rfl, trivial, trivial⟩, rfl, trivial, rfl, ⟨rfl, trivial⟩,
      trivial⟩
  exact ⟨hnested, (says_constructors _).2.1 nested hnested⟩

/-! ### Terms put together anew -/

mutual

/-- Put a term together by the simplifying constructors, with equalities built by `eq`. -/
def rebuild (eq : Term → Term → Term) : Term → Term
  | .bool b => .bool b
  | .text s => .text s
  | .symbol s => .symbol s
  | .not a => mkNot (rebuild eq a)
  | .and as => mkAnd (rebuildAll eq as)
  | .or as => mkOr (rebuildAll eq as)
  | .eq a b => eq (rebuild eq a) (rebuild eq b)
  | .one as => mkOne (rebuildAll eq as)

def rebuildAll (eq : Term → Term → Term) : List Term → List Term
  | [] => []
  | a :: as => rebuild eq a :: rebuildAll eq as

end

mutual

def texts : Term → List String
  | .bool _ | .symbol _ => []
  | .text s => [s]
  | .not a => texts a
  | .and as | .or as | .one as => textsAll as
  | .eq a b => texts a ++ texts b

def textsAll : List Term → List String
  | [] => []
  | a :: as => texts a ++ textsAll as

end

variable {δ : Type} [DecidableEq δ] {denote : String → δ} {l : List String}
  {eq : Term → Term → Term}

/-- Built equalities of terms of one sort, with constants out of a list, hold if the terms are
equal. -/
structure Equates (denote : String → δ) (l : List String) (eq : Term → Term → Term) : Prop where
  formula : ∀ {a b}, a.sort = b.sort → a.WellSorted → b.WellSorted → Formula (eq a b)
  holds : ∀ {a b}, a.sort = b.sort → (∀ s, a = .text s → s ∈ l) → (∀ s, b = .text s → s ∈ l) →
    ∀ v, (eq a b).holds denote v = (Term.eq a b).holds denote v
  free : ∀ {a b} {P : Symbol → Prop}, Over P a → Over P b → Over P (eq a b)

theorem equates_eq : Equates denote l .eq :=
  ⟨fun hs ha hb => ⟨rfl, hs, ha, hb⟩, fun _ _ _ _ => rfl, fun ha hb => over_eq.2 ⟨ha, hb⟩⟩

theorem equates_mkEq (hl : ∀ s ∈ l, ∀ s' ∈ l, denote s = denote s' → s = s') :
    Equates denote l mkEq :=
  ⟨.mkEq, fun hs ha hb _ => holds_mkEq (fun s t h h' => hl s (ha s h) t (hb t h')) hs, .mkEq⟩

/-- A term means the same as another one; strings are not changed at all. -/
structure Alike (denote : String → δ) (t u : Term) : Prop where
  sort : u.sort = t.sort
  sorted : u.WellSorted
  holds : ∀ v, u.holds denote v = t.holds denote v
  string : t.sort = .string → u = t
  free : ∀ {P : Symbol → Prop}, Over P t → Over P u

/-- Formulas that hold like others and have no other symbols. -/
structure AlikeAll (denote : String → δ) (as bs : List Term) : Prop where
  formula : ∀ b ∈ bs, Formula b
  holds : ∀ v, bs.map (Term.holds denote v) = as.map (Term.holds denote v)
  free : ∀ {P : Symbol → Prop}, (∀ a ∈ as, Over P a) → ∀ b ∈ bs, Over P b

namespace AlikeAll

variable (h : AlikeAll denote as bs)

include h

theorem allHold_eq (v : Valuation δ) : allHold denote v bs = allHold denote v as := by
  have hall : bs.all (Term.holds denote v) = as.all (Term.holds denote v) := by
    simpa [all_map] using congrArg (List.all · id) (h.holds v)
  rw [Bool.eq_iff_iff, allHold_iff, allHold_iff, ← all_eq_true, hall, all_eq_true]

theorem and : Alike denote (.and as) (mkAnd bs) where
  sort := (Formula.mkAnd h.formula).1
  sorted := (Formula.mkAnd h.formula).2
  holds v := by
    rw [Bool.eq_iff_iff, holds_mkAnd, ← allHold_iff, h.allHold_eq]
    rfl
  string := nofun
  free hP := .mkAnd (h.free (over_and.1 hP))

theorem or : Alike denote (.or as) (mkOr bs) where
  sort := (Formula.mkOr h.formula).1
  sorted := (Formula.mkOr h.formula).2
  holds v := by
    have hany : bs.any (Term.holds denote v) = as.any (Term.holds denote v) := by
      simpa [any_map] using congrArg (List.any · id) (h.holds v)
    rw [Bool.eq_iff_iff, holds_mkOr, Term.holds, anyHolds_iff, ← any_eq_true, hany, any_eq_true]
  string := nofun
  free hP := .mkOr (h.free (over_or.1 hP))

theorem one : Alike denote (.one as) (mkOne bs) where
  sort := (Formula.mkOne h.formula).1
  sorted := (Formula.mkOne h.formula).2
  holds v := by
    have hcount : bs.countP (Term.holds denote v) = as.countP (Term.holds denote v) := by
      simpa [countP_map] using congrArg (List.countP id) (h.holds v)
    rw [holds_mkOne, Term.holds, countHolding_eq, hcount]
  string := nofun
  free hP := .mkOne (h.free (over_and.1 hP))

end AlikeAll

theorem Alike.mem (h : Alike denote t a) (hl : t.texts ⊆ l) (s : String) (hs : a = .text s) :
    s ∈ l := by
  have hsort : t.sort = .string := by
    rw [← h.sort, hs]
    rfl
  rw [← h.string hsort, hs] at hl
  exact hl mem_cons_self

mutual

theorem alike_rebuild (heq : Equates denote l eq) : ∀ t : Term, t.WellSorted → t.texts ⊆ l →
    Alike denote t (rebuild eq t)
  | .bool _, _, _ | .text _, _, _ | .symbol _, _, _ =>
    ⟨rfl, trivial, fun _ => rfl, fun _ => rfl, fun hP => hP⟩
  | .not a, ⟨hsort, hsorted⟩, hl => by
    have ha := alike_rebuild heq a hsorted hl
    have hnot := Formula.mkNot ⟨ha.sort.trans hsort, ha.sorted⟩
    exact ⟨hnot.1, hnot.2, fun v => by rw [rebuild, holds_mkNot, ha.holds, holds], nofun,
      fun hP => (ha.free hP).mkNot⟩
  | .and as, h, hl => (alikeAll_rebuild heq as h hl).and
  | .or as, h, hl => (alikeAll_rebuild heq as h hl).or
  | .one as, h, hl => (alikeAll_rebuild heq as h hl).one
  | .eq a b, ⟨hsorts, hsa, hsb⟩, hl => by
    obtain ⟨hla, hlb⟩ := append_subset.1 hl
    have ha := alike_rebuild heq a hsa hla
    have hb := alike_rebuild heq b hsb hlb
    have hsorts' := ha.sort.trans (hsorts.trans hb.sort.symm)
    have hformula := heq.formula hsorts' ha.sorted hb.sorted
    refine ⟨hformula.1, hformula.2, fun v => ?_, nofun, fun hP => ?_⟩
    · rw [rebuild, heq.holds hsorts' (ha.mem hla) (hb.mem hlb), holds, holds, ha.sort, hb.sort,
        ha.holds, hb.holds, hsorts]
      cases hstring : b.sort with
      | bool => rfl
      | string => rw [ha.string (hsorts.trans hstring), hb.string hstring]
    · exact heq.free (ha.free (over_eq.1 hP).1) (hb.free (over_eq.1 hP).2)

theorem alikeAll_rebuild (heq : Equates denote l eq) : ∀ as : List Term, WellSortedAll as →
    textsAll as ⊆ l → AlikeAll denote as (rebuildAll eq as)
  | [], _, _ => ⟨nofun, fun _ => rfl, fun _ => nofun⟩
  | a :: as, ⟨hsort, hsorted, hrest⟩, hl => by
    obtain ⟨hla, hlas⟩ := append_subset.1 hl
    have ha := alike_rebuild heq a hsorted hla
    have has := alikeAll_rebuild heq as hrest hlas
    refine ⟨forall_mem_cons.2 ⟨⟨ha.sort.trans hsort, ha.sorted⟩, has.formula⟩, fun v => ?_,
      fun hP => ?_⟩
    · rw [rebuildAll, map_cons, map_cons, ha.holds, has.holds]
    · obtain ⟨hPa, hPas⟩ := forall_mem_cons.1 hP
      exact forall_mem_cons.2 ⟨ha.free hPa, has.free hPas⟩

end

end Term

/-! ### Verdicts -/

theorem Problem.Sound.solve_eq_none_iff {p : Problem} (h : p.Sound) :
    p.solve none = none ↔ ∀ v, p.holds v = false := by
  refine ⟨fun hs => h.not_holds_of_solve hs, fun hnone => ?_⟩
  cases hs : p.solve none with
  | none => rfl
  | some c =>
    have hc : p.holds c.valuation = true := satisfies_of_solve hs
    rw [hnone] at hc
    cases hc

theorem Problem.Sound.verdict_eq {p p' : Problem} (h : p.Sound) (h' : p'.Sound)
    (hsame : ∀ v, p.holds v = p'.holds v) {keys : List (String × Symbol)}
    (hkeys : (keys.map Prod.fst).Nodup) : p.verdict keys = p'.verdict keys := by
  have hnone : p.solve none = none ↔ p'.solve none = none := by
    rw [h.solve_eq_none_iff, h'.solve_eq_none_iff]
    simp only [hsame]
  unfold verdict
  cases hs : p.solve none with
  | none => rw [hnone.1 hs]
  | some c =>
    cases hs' : p'.solve none with
    | none =>
      rw [hnone.2 hs'] at hs
      cases hs
    | some c' =>
      have hc := satisfies_of_solve hs
      have hc' := satisfies_of_solve hs'
      refine congrArg Verdict.reachable ?_
      rw [h.witness_eq hc hkeys, h'.witness_eq hc' hkeys]
      refine map_congr_left fun k _ => congrArg (Prod.mk k.1) ?_
      by_cases hf : p.Forces c k.2
      · have hvalue : c'.value k.2 = c.value k.2 := hf c'.valuation ((hsame _).trans hc')
        have hf' : p'.Forces c' k.2 := fun v hv =>
          (hf v ((hsame v).trans hv)).trans hvalue.symm
        rw [if_pos hf, if_pos hf', hvalue]
      · have hf' : ¬ p'.Forces c' k.2 := fun hf' => hf fun v hv =>
          (hf' v (hsame v ▸ hv)).trans (hf' c.valuation (hsame _ ▸ hc)).symm
        rw [if_neg hf, if_neg hf']

namespace Query

/-- The query with its assertions put together anew. -/
def rebuild (eq : Term → Term → Term) (q : Query) : Query :=
  { q with formula := q.formula.rebuild eq, side := Term.rebuildAll eq q.side }

def texts (q : Query) : List String := Term.textsAll q.assertions

variable {q : Query}

theorem exists_problem (hsorted : Term.WellSortedAll q.assertions)
    (hnames : Term.Encodable (Term.symbolsList q.assertions))
    (heq : Term.Equates ofText q.texts eq) : ∃ p, Problem.ofTerms (q.rebuild eq).assertions = .ok p ∧
      p.Sound ∧ ∀ v, p.holds v = Term.allHold ofText v.known q.assertions := by
  have halike : Term.AlikeAll ofText q.assertions (q.rebuild eq).assertions :=
    Term.alikeAll_rebuild heq q.assertions hsorted (Subset.refl _)
  have hover : Term.Encodable (Term.symbolsList (q.rebuild eq).assertions) := by
    rw [Term.symbolsList_eq]
    refine forall_mem_flatMap.2 (halike.free fun a ha s hs => hnames s ?_)
    exact Term.over_symbolsList ha s hs
  obtain ⟨p, hp⟩ := Problem.exists_ofTerms_eq_ok ((Term.faultAll?_eq_none_iff _).2
    ⟨Term.wellSortedAll_iff.2 halike.formula, hover⟩)
  obtain ⟨hsound, -, hholds⟩ := Problem.ofTerms_eq_ok hp
  exact ⟨p, hp, hsound, fun v => (hholds v).trans (halike.allHold_eq v.known)⟩

/-- Different texts denote one string exactly if both spell it. If constants of a query do not, its
verdict does not depend on simplifying equalities. -/
theorem check_rebuild (a b : String) (q : Query) :
    (Plain a → Plain b → a ≠ b → ofText a ≠ ofText b) ∧
    (ofText a = ofText b ↔
      ∃ v, Spells (Text.codes a.toList) v ∧ Spells (Text.codes b.toList) v) ∧
    (q.Keyed → Term.WellSortedAll q.assertions →
      Term.Encodable (Term.symbolsList q.assertions) →
      (∀ a ∈ q.texts, ∀ b ∈ q.texts, ofText a = ofText b → a = b) →
      (q.rebuild Term.mkEq).check .never = (q.rebuild .eq).check .never) := by
  refine ⟨fun ha hb hne h => hne (ha.eq hb h), ?_, fun hq hsorted hnames hapart => ?_⟩
  · refine ⟨fun h => ⟨_, ofText_eq_iff.1 rfl, ofText_eq_iff.1 h.symm⟩, ?_⟩
    rintro ⟨v, ha, hb⟩
    rw [ofText_eq_iff.2 ha, ofText_eq_iff.2 hb]
  · obtain ⟨p, hp, hsound, hholds⟩ := exists_problem hsorted hnames (Term.equates_mkEq hapart)
    obtain ⟨p', hp', hsound', hholds'⟩ := exists_problem hsorted hnames Term.equates_eq
    have hsame : p.verdict q.keys = p'.verdict q.keys :=
      hsound.verdict_eq hsound' (fun v => (hholds v).trans (hholds' v).symm) hq.nodup_keys
    have hconclude : q.conclude (.ok p) = q.conclude (.ok p') := by simp only [conclude, hsame]
    rw [check_never, check_never, Query.decide, Query.decide, hp, hp']
    exact congrArg (·, Token.never) hconclude

/-- A string is compared with constants, one with an escape, and constants with each other. -/
def compared : Query :=
  ofParts (.not (.eq (.text "b") (.text "c")))
    [.or [.eq (.symbol ⟨"s", .string⟩) (.text "\\u0041"), .eq (.text "b") (.symbol ⟨"s", .string⟩)]]
    [("s", ⟨"s", .string⟩)] []

theorem check_rebuild_compared : compared.Keyed ∧ Term.WellSortedAll compared.assertions ∧
    Term.Encodable (Term.symbolsList compared.assertions) ∧
    (∀ a ∈ compared.texts, ∀ b ∈ compared.texts, ofText a = ofText b → a = b) ∧
    (compared.rebuild Term.mkEq).check .never = (compared.rebuild .eq).check .never := by
  have hkeyed : compared.Keyed := ⟨by decide, by decide⟩
  have hsorted : Term.WellSortedAll compared.assertions :=
    ⟨rfl, ⟨rfl, rfl, trivial, trivial⟩, rfl,
      ⟨rfl, ⟨rfl, trivial, trivial⟩, rfl, ⟨rfl, trivial, trivial⟩, trivial⟩, trivial⟩
  have hnames : Term.Encodable (Term.symbolsList compared.assertions) := fun s hs => by
    have hall : ∀ s ∈ Term.symbolsList compared.assertions, s.name = "s" := by decide
    rw [hall s hs]
    exact ⟨_, rfl⟩
  have hapart : ∀ a ∈ compared.texts, ∀ b ∈ compared.texts, ofText a = ofText b → a = b := by
    decide
  exact ⟨hkeyed, hsorted, hnames, hapart, (check_rebuild "" "" _).2.2 hkeyed hsorted hnames hapart⟩

/-- Different texts may denote one string. -/
theorem not_forall_ofText_ne : ¬ ∀ a b : String, a ≠ b → ofText a ≠ ofText b := fun h =>
  h "A" "\\u\x7b41\x7d" (by decide) (by decide)

end Query

end ControlReach
