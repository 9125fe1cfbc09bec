import ControlReach.Proofs.DataTerm
import ControlReach.Proofs.ForcedValue

/-!
# Verdicts are exact

A query is reachable if some values make its assertions hold, and unreachable if none do; the
witness shows the values that are forced. Unknowns whose names agree up to the first null character
have one value.
-/

namespace ControlReach

open List Problem

/-! ### Keys -/

namespace Assoc

variable {κ β : Type} [DecidableEq κ]

theorem lookup_perm {l : List (κ × β)} (h : l.Perm m) (hm : (m.map Prod.fst).Nodup) (key : κ) :
    l.lookup key = m.lookup key := by
  have hl : (l.map Prod.fst).Nodup := (h.map Prod.fst).nodup_iff.mpr hm
  cases hkey : m.lookup key with
  | some v => exact lookup_of_mem hl (h.mem_iff.mpr (mem_of_lookup hkey))
  | none =>
    rw [lookup_eq_none_iff] at hkey ⊢
    rwa [(h.map Prod.fst).mem_iff]

theorem nodup_foldl_set (m : List (κ × β)) {l : List (κ × β)} (hl : (l.map Prod.fst).Nodup) :
    ((m.foldl (fun l p => set p.1 p.2 l) l).map Prod.fst).Nodup :=
  foldlRecOn (motive := fun l : List (κ × β) => (l.map Prod.fst).Nodup) m _ hl fun _ hl p _ =>
    nodup_keys_set p.2 hl

end Assoc

namespace Query

variable {q : Query}

/-- Every key stands for one unknown among the observations, and for one among the guards. -/
structure Keyed (q : Query) : Prop where
  observations : (q.observations.map Prod.fst).Nodup
  guards : (q.guards.map Prod.fst).Nodup

def symbol? (q : Query) (key : String) : Option Symbol :=
  (q.guards.lookup key).or (q.observations.lookup key)

def symbols (q : Query) : List Symbol :=
  Term.symbolsList q.assertions ++ (q.observations ++ q.guards).map Prod.snd

variable {s : Symbol}

theorem mem_symbols_of_symbol? (q : Query) (h : q.symbol? key = some s) : s ∈ q.symbols := by
  refine mem_append_right _ (mem_map.mpr ⟨(key, s), ?_, rfl⟩)
  obtain h | ⟨-, h⟩ := Option.or_eq_some_iff.mp h
  · exact mem_append_right _ (Assoc.mem_of_lookup h)
  · exact mem_append_left _ (Assoc.mem_of_lookup h)

theorem Keyed.nodup_keys (h : q.Keyed) : (q.keys.map Prod.fst).Nodup :=
  Assoc.nodup_foldl_set _
    (((Order.sort_perm _ q.observations).map Prod.fst).nodup_iff.mpr h.observations)

theorem Keyed.lookup_keys (h : q.Keyed) (key : String) : q.keys.lookup key = q.symbol? key := by
  have hguards := Order.sort_perm (fun a b : String × Symbol => Order.textLe a.1 b.1) q.guards
  have hobs := Order.sort_perm (fun a b : String × Symbol => Order.textLe a.1 b.1) q.observations
  refine (Assoc.lookup_foldl_set key _ _).trans ?_
  rw [Assoc.lookup_perm ((reverse_perm _).trans hguards) h.guards,
    Assoc.lookup_perm hobs h.observations]
  rfl

theorem Keyed.symbol?_of_mem (h : q.Keyed) (hs : (key, s) ∈ q.keys) : q.symbol? key = some s :=
  (h.lookup_keys key).symm.trans (Assoc.lookup_of_mem h.nodup_keys hs)

/-! ### Unknowns -/

variable {v : Valuation StringValue}

/-- Unknowns that the solver does not tell apart have one value. -/
def Uniform (q : Query) (v : Valuation StringValue) : Prop :=
  ∀ s ∈ q.symbols, ∀ t ∈ q.symbols, s.sort = t.sort → knownName s.name = knownName t.name →
    v.denotation s = v.denotation t

def atKnown (q : Query) (v : Valuation StringValue) : Valuation StringValue where
  flag y := ((q.symbols.find? fun s => s.sort = .bool ∧ knownName s.name = y).map
    fun s => v.flag s.name).getD false
  text y := ((q.symbols.find? fun s => s.sort = .string ∧ knownName s.name = y).map
    fun s => v.text s.name).getD []

theorem Uniform.denotation_atKnown (h : q.Uniform v) (hs : s ∈ q.symbols) :
    (q.atKnown v).known.denotation s = v.denotation s := by
  obtain ⟨t, ht⟩ : ∃ t, q.symbols.find? (fun t => t.sort = s.sort ∧
      knownName t.name = knownName s.name) = some t :=
    Option.isSome_iff_exists.mp (find?_isSome.mpr ⟨s, hs, by simp⟩)
  have hfound := find?_some ht
  simp only [decide_eq_true_eq] at hfound
  have hsame := h t (mem_of_find?_eq_some ht) s hs hfound.1 hfound.2
  rw [← hsame]
  obtain ⟨name, sort⟩ := s
  obtain ⟨name', sort'⟩ := t
  obtain rfl : sort' = sort := hfound.1
  cases sort' with
  | bool =>
    exact congrArg (fun r : Option Symbol => Denotation.flag ((r.map (v.flag ·.name)).getD false)) ht
  | string =>
    exact congrArg (fun r : Option Symbol => Denotation.text ((r.map (v.text ·.name)).getD [])) ht

theorem uniform_known (q : Query) (v : Valuation StringValue) : q.Uniform v.known := by
  rintro ⟨name, sort⟩ - ⟨name', sort'⟩ - hsort hname
  obtain rfl : sort = sort' := hsort
  cases sort with
  | bool => exact congrArg (fun y => Denotation.flag (v.flag y)) hname
  | string => exact congrArg (fun y => Denotation.text (v.text y)) hname

/-! ### Verdicts -/

/-- Values of the unknowns under which all assertions of a query hold. -/
structure Models (q : Query) (v : Valuation StringValue) : Prop where
  uniform : q.Uniform v
  holds : ∀ a ∈ q.assertions, a.holds StringValue.ofText v = true

/-- A witness has one entry for each key, with the value that the query forces if there is one. -/
structure Shows (q : Query) (w : Witness) : Prop where
  nodup : (w.map Prod.fst).Nodup
  keys : ∀ key, key ∈ w.map Prod.fst ↔
    key ∈ q.observations.map Prod.fst ∨ key ∈ q.guards.map Prod.fst
  forced : ∀ key value s d, (key, value) ∈ w → q.symbol? key = some s →
    (∀ v, q.Models v → v.denotation s = d) → value = d.witness
  free : ∀ key value s v v', (key, value) ∈ w → q.symbol? key = some s →
    q.Models v → q.Models v' → v.denotation s ≠ v'.denotation s → value = .any

/-- A verdict tells the truth about a query. -/
def Exact (q : Query) : Verdict → Prop
  | .reachable w => Term.WellSortedAll q.assertions ∧ (∃ v, q.Models v) ∧ q.Shows w
  | .unreachable => Term.WellSortedAll q.assertions ∧ ¬ ∃ v, q.Models v
  | .unknown reason =>
    ¬ Term.WellSortedAll q.assertions ∧ reason.text = "solver error: sort mismatch"

theorem models_known (hp : ofTerms q.assertions = .ok p) (hv : p.holds v = true) :
    q.Models v.known := by
  rw [(ofTerms_eq_ok hp).2.2 v, Term.allHold_iff] at hv
  exact ⟨q.uniform_known v, hv⟩

/-- Values that satisfy a query are those of a solution of its problem. -/
theorem Models.holds_atKnown (h : q.Models v) (hp : ofTerms q.assertions = .ok p) :
    p.holds (q.atKnown v) = true := by
  have hsame : (q.atKnown v).known.Same (· ∈ q.symbols) v :=
    ⟨fun name hs => Denotation.flag.inj (h.uniform.denotation_atKnown hs),
      fun name hs => Denotation.text.inj (h.uniform.denotation_atKnown hs)⟩
  rw [(ofTerms_eq_ok hp).2.2, Term.allHold_iff]
  intro a ha
  have hover : a.Over (· ∈ q.symbols) := fun s hs =>
    mem_append_left _ (Term.over_symbolsList ha s hs)
  rw [hover.holds_eq hsame]
  exact h.holds a ha

theorem wellSortedAll_of_ofTerms (hp : ofTerms q.assertions = .ok p) :
    Term.WellSortedAll q.assertions :=
  ((Term.faultAll?_eq_none_iff q.assertions).mp (ofTerms_eq_ok hp).2.1).1

theorem Keyed.shows_witness (h : q.Keyed) (hp : ofTerms q.assertions = .ok p) {c : Choice}
    (hc : c.satisfies p = true) : q.Shows (witness p c q.keys) := by
  have hsound := (ofTerms_eq_ok hp).1
  have hmodel : q.Models c.valuation.known := models_known hp hc
  refine ⟨?_, fun key => ?_, ?_, ?_⟩
  · rw [keys_witness]
    exact h.nodup_keys
  · rw [keys_witness, ← not_iff_not, ← Assoc.lookup_eq_none_iff, h.lookup_keys, symbol?,
      Option.or_eq_none_iff, Assoc.lookup_eq_none_iff, Assoc.lookup_eq_none_iff, not_or, and_comm]
  · intro key value s d hmem hs hforced
    obtain ⟨s', hs', hvalue⟩ := (hsound.mem_witness_iff hc h.nodup_keys).mp hmem
    obtain rfl := Option.some.inj (hs.symm.trans (h.symbol?_of_mem hs'))
    have hd : c.value s = d := hforced _ hmodel
    obtain ⟨-, hvalue⟩ | ⟨hnot, -⟩ := hvalue
    · rw [hvalue, hd]
    · refine absurd (fun v hv => ?_) hnot
      rw [hd]
      exact hforced _ (models_known hp hv)
  · intro key value s v v' hmem hs hv hv' hne
    obtain ⟨s', hs', hvalue⟩ := (hsound.mem_witness_iff hc h.nodup_keys).mp hmem
    obtain rfl := Option.some.inj (hs.symm.trans (h.symbol?_of_mem hs'))
    obtain ⟨hforces, -⟩ | ⟨-, hvalue⟩ := hvalue
    · have heq := (hforces _ (hv.holds_atKnown hp)).trans (hforces _ (hv'.holds_atKnown hp)).symm
      have hsym := q.mem_symbols_of_symbol? hs
      rw [hv.uniform.denotation_atKnown hsym, hv'.uniform.denotation_atKnown hsym] at heq
      exact absurd heq hne
    · exact hvalue

/-- A name is at fault only if some key stands for an unknown of that name. -/
theorem exists_of_nameFault? (h : q.nameFault? = some run) :
    ∃ s ∈ q.symbols, Text.encode s.name = .error run := by
  obtain ⟨⟨key, s⟩, hmem, hrun⟩ := exists_of_findSome?_eq_some h
  refine ⟨s, mem_append_right _ (mem_map.mpr ⟨(key, s), ?_, rfl⟩), ?_⟩
  · simpa using hmem
  · dsimp only at hrun
    split at hrun
    · rename_i r hr
      cases hrun
      exact hr
    · cases hrun

/-- A query that cannot be asked has an unknown whose name has no encoding. -/
theorem exists_of_decide_eq_error (h : q.decide = .error run) :
    ∃ s ∈ q.symbols, Text.encode s.name = .error run := by
  rw [Query.decide] at h
  cases hp : ofTerms q.assertions with
  | error fault =>
    rw [hp] at h
    cases fault with
    | badName run' =>
      cases h
      obtain ⟨s, hs, hrun⟩ := Term.faulty_faultAll? _ (ofTerms_eq_error hp)
      exact ⟨s, mem_append_left _ hs, hrun⟩
    | sortMismatch => cases h
  | ok p =>
    rw [hp, conclude] at h
    split at h
    · rename_i hname
      cases h
      exact q.exists_of_nameFault? hname
    · cases h

theorem check_never (q : Query) : q.check .never = (q.decide, .never) := by
  unfold check Query.decide
  rw [Token.poll_never]
  match hp : ofTerms q.assertions with
  | .error (.badName run) | .error .sortMismatch | .ok p => rfl

theorem check_of_not_models (hp : ofTerms q.assertions = .ok p)
    (hnone : ¬ ∃ v, q.Models v) : q.check .never = (.ok .unreachable, .never) := by
  have hsolve : p.solve none = none := by
    cases hs : p.solve none with
    | none => rfl
    | some c => exact absurd ⟨_, models_known hp (satisfies_of_solve hs)⟩ hnone
  rw [check_never, Query.decide, hp]
  simp only [conclude, verdict, hsolve]

/-- Without cancellation, a query has an exact verdict, unless the name of one of its unknowns has
no encoding. -/
theorem check_exact (q : Query) (h : q.Keyed) :
    (∃ run, q.check .never = (.error run, .never) ∧
      ∃ s ∈ q.symbols, Text.encode s.name = .error run) ∨
    ∃ verdict, q.check .never = (.ok verdict, .never) ∧ q.Exact verdict := by
  rw [check_never]
  cases hq : q.decide with
  | error run => exact .inl ⟨run, rfl, exists_of_decide_eq_error hq⟩
  | ok verdict =>
    refine .inr ⟨verdict, rfl, ?_⟩
    rw [Query.decide] at hq
    cases hp : Problem.ofTerms q.assertions with
    | error fault =>
      rw [hp] at hq
      cases fault with
      | badName => cases hq
      | sortMismatch =>
        cases hq
        exact ⟨Term.faulty_faultAll? _ (Problem.ofTerms_eq_error hp), rfl⟩
    | ok p =>
      have hsorts := wellSortedAll_of_ofTerms hp
      rw [hp] at hq
      cases hs : p.solve none with
      | none =>
        simp only [conclude, Problem.verdict, hs] at hq
        cases hq
        refine ⟨hsorts, fun ⟨v, hv⟩ => ?_⟩
        have hfails := (Problem.ofTerms_eq_ok hp).1.not_holds_of_solve hs (q.atKnown v)
        rw [hv.holds_atKnown hp] at hfails
        cases hfails
      | some c =>
        have hc := Problem.satisfies_of_solve hs
        simp only [conclude, Problem.verdict, hs] at hq
        split at hq
        · cases hq
        · cases hq
          exact ⟨hsorts, ⟨_, models_known hp hc⟩, h.shows_witness hp hc⟩

def ofParts (formula : Term) (side : List Term) (observations guards : List (String × Symbol)) :
    Query :=
  ⟨⟨"C", 0, .bug, 0, "", none, []⟩, formula, side, observations, guards⟩

/-- Exactly one of three places holds, a constant has an escape, and the key of a guard hides that
of an observation. -/
def once : Query :=
  ofParts (.one [.flag "x", .flag "x", .flag "y"])
    [.eq (.symbol ⟨"s", .string⟩) (.text "\\u0041")]
    [("s", ⟨"s", .string⟩), ("y", ⟨"t", .string⟩)] [("x", ⟨"x", .bool⟩), ("y", ⟨"y", .bool⟩)]

theorem check_exact_once : once.Keyed ∧
    ∃ verdict, once.check .never = (.ok verdict, .never) ∧ once.Exact verdict := by
  have hkeyed : once.Keyed := ⟨by decide, by decide⟩
  refine ⟨hkeyed, (check_exact once hkeyed).resolve_left ?_⟩
  rintro ⟨run, -, s, hs, hrun⟩
  have hnames : ∀ s ∈ once.symbols, (Text.encode s.name).toBool = true := by decide
  have hname := hnames s hs
  rw [hrun] at hname
  cases hname

/-- One flag holds and another does not; their names agree up to a null character. -/
def cutShort : Query := ofParts (.flag "a\x00b") [.not (.flag "a\x00c")] [] []

/-- A query may be unreachable though values satisfy it that tell apart what the solver does not. -/
theorem not_forall_reachable_of_holds : ¬ ∀ (q : Query) (v : Valuation StringValue), q.Keyed →
    Term.WellSortedAll q.assertions →
    (∀ a ∈ q.assertions, a.holds StringValue.ofText v = true) →
    ∃ w, q.check .never = (.ok (.reachable w), .never) := by
  intro h
  obtain ⟨w, hw⟩ := h cutShort ⟨fun x => x = "a\x00b", fun _ => []⟩ ⟨by decide, by decide⟩
    ⟨rfl, trivial, ⟨rfl, ⟨rfl, trivial⟩, trivial⟩⟩ (by decide)
  have hfault : Term.faultAll? cutShort.assertions = none := by decide
  obtain ⟨p, hp⟩ := Problem.exists_ofTerms_eq_ok hfault
  have hnone : ¬ ∃ v, cutShort.Models v := by
    rintro ⟨v, huniform, hholds⟩
    have hsame := huniform ⟨"a\x00b", .bool⟩ (by decide) ⟨"a\x00c", .bool⟩ (by decide) rfl
      (by decide)
    have hb : v.flag "a\x00b" = true := hholds (.flag "a\x00b") (by decide)
    have hc : (!v.flag "a\x00c") = true := hholds (.not (.flag "a\x00c")) (by decide)
    rw [← Denotation.flag.inj hsame, hb] at hc
    cases hc
  rw [check_of_not_models hp hnone] at hw
  cases hw

end Query

end ControlReach
