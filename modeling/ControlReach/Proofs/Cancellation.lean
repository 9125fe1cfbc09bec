import ControlReach.Proofs.ReportCoverage

/-!
# Cancellation hides answers

What is computed under a token is what is computed without it, or it is given up. So a report under
a token differs from the one without it only in verdicts that it withholds.
-/

namespace ControlReach

open List

/-! ### One computation -/

/-- A computation under a token ends as it does without, or it is given up. -/
def Hides {α : Type} (full stopped found : α) : Prop := found = full ∨ found = stopped

theorem Hides.map {α β : Type} (f : α → β) {full stopped found : α} (h : Hides full stopped found) :
    Hides (f full) (f stopped) (f found) := h.imp (congrArg f) (congrArg f)

variable (g : FlowGraph)

theorem visitBlocks_hides (target : Target) (relevant order : List BlockId)
    (token : Token) (p : Progress) :
    Hides (visitBlocks g target relevant order .never p).1 (.error (.canceled target.id))
      (visitBlocks g target relevant order token p).1 := by
  induction order generalizing token p with
  | nil => exact .inl rfl
  | cons i order ih =>
    rw [visitBlocks, visitBlocks, Token.poll_never]
    rcases token.poll with ⟨_ | _, token'⟩
    · dsimp only
      rw [if_neg (by decide)]
      split
      · exact .inl rfl
      · exact .inl rfl
      · exact ih token' _
    · exact .inr rfl

namespace FlowGraph

variable (g : FlowGraph) (exclusive : Bool)

/-- The query of an error location is the one without a token, or it is not finished. -/
theorem generate_hides (t : Target) (token : Token) :
    Hides (g.generate exclusive t .never).1 (.error (.canceled t.id))
      (g.generate exclusive t token).1 := by
  rw [generate_eq, generate_eq]
  split_ifs
  · exact .inl rfl
  · exact (visitBlocks_hides _ _ _ _ _ _).map (Except.map (g.queryOf exclusive t))
  · exact .inl rfl

end FlowGraph

/-- The verdict on a query is the one without a token, or it is withheld. -/
theorem Query.check_hides (q : Query) (token : Token) :
    Hides q.decide (.ok (.unknown .canceled)) (q.check token).1 := by
  unfold Query.check Query.decide
  rcases token.poll with ⟨_ | _, token'⟩
  · dsimp only
    rw [if_neg (by decide)]
    split
    · rename_i hproblem
      rw [hproblem]
      exact .inl rfl
    · rcases token'.poll with ⟨_ | _, token''⟩
      · exact .inl rfl
      · exact .inr rfl
  · exact .inr rfl

theorem Session.ask_hides {s : Session} (h : s.timeless = false) (q : Query) (token : Token) :
    Hides (q.decide.mapError .badName) (.ok (.unknown .canceled)) (s.ask q token).1 := by
  rw [Session.ask_eq h]
  exact (q.check_hides token).map (Except.mapError AnalysisFault.badName)

def TargetOutcome.stopped (t : Target) : TargetOutcome := .answered ⟨t, .unknown .canceled⟩

def FlowGraph.HidesAll (exclusive : Bool) (targets : List Target)
    (outcomes : List TargetOutcome) : Prop :=
  Forall₂ (fun t => Hides (g.outcome exclusive t) (.stopped t)) targets outcomes

namespace FlowGraph

variable (g : FlowGraph) (exclusive : Bool)

/-- What becomes of an error location is the same without a token, or is not asked. -/
theorem solve_hides (h : s.timeless = false) (t : Target) :
    Hides (g.outcome exclusive t) (.stopped t) (g.solve exclusive t s).1 ∧
      (g.solve exclusive t s).2.timeless = false := by
  unfold solve outcome
  rcases s.token.poll with ⟨_ | _, token⟩
  · dsimp only
    rw [if_neg (by decide)]
    have hgenerate := g.generate_hides exclusive t token
    generalize (g.generate exclusive t .never).1 = full at hgenerate ⊢
    generalize g.generate exclusive t token = found at hgenerate ⊢
    obtain ⟨found, token'⟩ := found
    obtain rfl | rfl : found = full ∨ found = .error (.canceled t.id) := hgenerate
    · cases found with
      | error fault => exact ⟨.inl rfl, h⟩
      | ok q =>
        have hask := Session.ask_hides h q token'
        dsimp only
        generalize s.ask q token' = asked at hask ⊢
        obtain ⟨answer, token''⟩ := asked
        obtain rfl | rfl : answer = q.decide.mapError .badName ∨ answer = .ok (.unknown .canceled) :=
          hask
        · cases q.decide <;> exact ⟨.inl rfl, h⟩
        · exact ⟨.inr rfl, h⟩
    · exact ⟨.inr rfl, h⟩
  · exact ⟨.inr rfl, h⟩

theorem solveAll_hides (h : s.timeless = false) (targets : List Target) :
    g.HidesAll exclusive targets (g.solveAll exclusive targets s).1 ∧
      (g.solveAll exclusive targets s).2.timeless = false := by
  induction targets generalizing s with
  | nil => exact ⟨.nil, h⟩
  | cons t rest ih =>
    obtain ⟨hfirst, htimeless⟩ := g.solve_hides exclusive h t
    obtain ⟨hrest, htimeless⟩ := ih htimeless
    exact ⟨.cons hfirst hrest, htimeless⟩

end FlowGraph

def BuiltControl.HidesIn (exclusive : Bool) (c : BuiltControl)
    (y : BuiltControl × List TargetOutcome) : Prop :=
  y.1 = c ∧ c.graph.HidesAll exclusive c.jobs y.2

theorem solveControls_hides (exclusive : Bool) {s : Session} (h : s.timeless = false)
    (cs : List BuiltControl) :
    Forall₂ (BuiltControl.HidesIn exclusive) cs (solveControls exclusive cs s).1 := by
  induction cs generalizing s with
  | nil => exact .nil
  | cons c rest ih =>
    obtain ⟨hfirst, htimeless⟩ := c.graph.solveAll_hides exclusive h c.jobs
    exact .cons ⟨rfl, hfirst⟩ (ih htimeless)

/-! ### Reports -/

/-- A verdict that a run under a token gives: that of the query, or none. -/
def FlowGraph.MayGive (exclusive : Bool) (t : Target) (v : Verdict) : Prop :=
  v = .unknown .canceled ∨ g.Verdicts exclusive t v

/-- A result is kept or withheld. -/
structure TargetResult.Withheld (r r' : TargetResult) : Prop where
  target : r'.target = r.target
  verdict : r'.verdict = r.verdict ∨ r'.verdict = .unknown .canceled

/-- The results of a control are kept or withheld, and nothing else changes. -/
structure ControlReport.Withheld (c c' : ControlReport) : Prop where
  name : c'.name = c.name
  blocks : c'.blocks = c.blocks
  errors : c'.errors = c.errors
  results : Forall₂ TargetResult.Withheld c.results c'.results

theorem FlowGraph.Verdicts.unique {g : FlowGraph} (h : g.Verdicts exclusive t v)
    (h' : g.Verdicts exclusive t v') : v' = v := by
  obtain ⟨q, hq, hcheck⟩ := h
  obtain ⟨q', hq', hcheck'⟩ := h'
  rw [hq] at hq'
  cases hq'
  rw [hcheck] at hcheck'
  cases hcheck'
  rfl

theorem FlowGraph.disjoint_prune (targets : List Target) :
    (g.prune targets).targets.Disjoint (g.prune targets).deadTargets := by
  intro t ht hdead
  simp_all [prune]

/-- The entry of a run under a token keeps or withholds the results of the entry without. -/
theorem ControlReport.Accounts.withheld (h : Accounts p ((p.graph d).Verdicts exclusive) d c)
    (h' : Accounts p ((p.graph d).MayGive exclusive) d c') : c.Withheld c' := by
  refine ⟨h'.name.trans h.name.symm, h'.blocks.trans h.blocks.symm,
    h'.errors.trans h.errors.symm, ?_⟩
  by_cases herrors : p.rejections d = []
  · have htargets : c.results.map TargetResult.target = c'.results.map TargetResult.target :=
      (h.targets (h.errors.trans herrors)).trans (h'.targets (h'.errors.trans herrors)).symm
    rw [← forall₂_eq_eq_eq, forall₂_map_left_iff, forall₂_map_right_iff,
      forall₂_iff_zip] at htargets
    refine forall₂_iff_zip.2 ⟨htargets.1, fun {r r'} hzip => ?_⟩
    have htarget : r.target = r'.target := htargets.2 hzip
    obtain ⟨hr, hr'⟩ := of_mem_zip hzip
    refine ⟨htarget.symm, ?_⟩
    obtain ⟨hdead, hv⟩ | ⟨hlive, hv⟩ := h.verdict r hr
    · obtain ⟨-, hv'⟩ | ⟨hlive', -⟩ := h'.verdict r' hr'
      · exact .inl (hv'.trans hv.symm)
      · exact absurd (htarget ▸ hdead) (FlowGraph.disjoint_prune _ _ hlive')
    · obtain ⟨hdead', -⟩ | ⟨-, hv' | hv'⟩ := h'.verdict r' hr'
      · exact absurd hdead' (FlowGraph.disjoint_prune _ _ (htarget ▸ hlive))
      · exact .inr hv'
      · exact .inl (hv.unique (htarget ▸ hv'))
  · rw [h.rejected (h.errors ▸ herrors), h'.rejected (h'.errors ▸ herrors)]
    exact .nil

/-- The results of a program are kept or withheld, and nothing else changes. -/
structure Report.Withheld (r r' : Report) : Prop where
  source : r'.source = r.source
  errors : r'.errors = r.errors
  controls : Forall₂ ControlReport.Withheld r.controls r'.controls

namespace Program

variable (p : Program) (settings : AnalysisSettings)

/-- There is a report if the work can be shared out and no question fails. -/
theorem analyze_eq_ok : (∀ token r, p.analyze settings token ≠ .ok r) ∨
    ∀ token r, p.analyze settings token = .ok r ↔
      let x := solveControls settings.exclusiveTableActions p.builtControls
        ⟨token, Statistics.empty, false⟩
      (∀ o ∈ x.1.flatMap Prod.snd, o.fault? = none) ∧ p.reportOn x = r := by
  unfold analyze
  dsimp only
  split
  · exact .inl fun _ _ h => nomatch h
  · refine .inr fun token r => ?_
    rw [← findSome?_eq_none_iff]
    split
    · rename_i hfault
      simp [hfault]
    · rename_i hnone
      rw [Except.ok.injEq]
      exact (and_iff_right hnone).symm

variable {p} {d : ControlDecl}

theorem answers_hides (h : p.rejections d = [])
    (hhides : (p.graph d).HidesAll exclusive (p.graph d).targets outcomes)
    (hclear : ∀ o ∈ outcomes, o.fault? = none) :
    Forall₂ (TargetOutcome.Answers ((p.graph d).MayGive exclusive)) (p.graph d).targets
      outcomes := by
  obtain ⟨hlength, hall⟩ := forall₂_iff_zip.1 hhides
  refine forall₂_iff_zip.2 ⟨hlength, fun {t o} hzip => ?_⟩
  obtain ⟨ht, ho⟩ := of_mem_zip hzip
  obtain rfl | rfl := hall hzip
  · obtain ⟨verdict, hout, hv⟩ := answers_of_clear exclusive h ht (hclear _ ho)
    exact ⟨verdict, hout, .inr hv⟩
  · exact ⟨.unknown .canceled, rfl, .inl rfl⟩

theorem accounts_hides (hhides : (p.graph d).HidesAll exclusive (p.built d).jobs outcomes)
    (hclear : ∀ o ∈ outcomes, o.fault? = none) :
    ControlReport.Accounts p ((p.graph d).MayGive exclusive) d ((p.built d).report outcomes) := by
  by_cases h : p.rejections d = []
  · have hjobs : (p.built d).jobs = (p.graph d).targets := if_pos (by simp [built, h])
    exact accounts_accepted h (answers_hides h (hjobs ▸ hhides) hclear)
  · have hjobs : (p.built d).jobs = [] := if_neg (by simpa [built] using h)
    rw [hjobs] at hhides
    rw [forall₂_nil_left_iff.1 hhides]
    exact accounts_rejected _ h

theorem entries_hides {ds : List ControlDecl}
    (h : Forall₂ (BuiltControl.HidesIn exclusive) (ds.map p.built) cut)
    (hclear : ∀ o ∈ cut.flatMap Prod.snd, o.fault? = none) :
    Forall₂ (fun d c => ControlReport.Accounts p ((p.graph d).MayGive exclusive) d c) ds
      (cut.map fun y => y.1.report y.2) := by
  rw [forall₂_map_left_iff] at h
  induction h with
  | nil => exact .nil
  | @cons d y ds cut hd _ ih =>
    obtain ⟨c, outcomes⟩ := y
    obtain ⟨rfl, hhides⟩ : c = p.built d ∧ _ := hd
    rw [flatMap_cons, forall_mem_append] at hclear
    exact .cons (accounts_hides hhides hclear.1) (ih hclear.2)

/-- The entries of a run under a token only withhold results. -/
theorem entries_withheld
    (h : Forall₂ (fun d c => ControlReport.Accounts p ((p.graph d).MayGive exclusive) d c) ds cs)
    (hclear : ∀ d ∈ ds, ∀ o ∈ (p.built d).outcomes exclusive, o.fault? = none) :
    Forall₂ ControlReport.Withheld
      (ds.map fun d => (p.built d).report ((p.built d).outcomes exclusive)) cs := by
  rw [forall₂_map_left_iff]
  have hboth := (forall₂_and_left _ _).2 ⟨fun d hd => accounts_outcomes (hclear d hd), h⟩
  exact hboth.imp fun d c h => h.1.withheld h.2

theorem clear_hides (h : Forall₂ (BuiltControl.HidesIn exclusive) cs cut)
    (hclear : ∀ c ∈ cs, ∀ o ∈ c.outcomes exclusive, o.fault? = none) :
    ∀ o ∈ cut.flatMap Prod.snd, o.fault? = none := by
  intro o ho
  obtain ⟨y, hy, ho⟩ := mem_flatMap.1 ho
  obtain ⟨c, hc, -, hhides⟩ := exists_of_forall₂ h.flip hy
  obtain ⟨t, ht, rfl | rfl⟩ := exists_of_forall₂ (Forall₂.flip hhides) ho
  · exact hclear c hc _ (mem_map_of_mem ht)
  · rfl

/-- Under a token a run has the report that it has without, except for verdicts that it withholds,
and the report is complete. -/
theorem analyze_after (p : Program) (settings : AnalysisSettings) (n : Nat) :
    (∀ r, p.analyze settings .never = .ok r →
      ∃ r', p.analyze settings (.after n) = .ok r' ∧ r.Withheld r') ∧
    ∀ r', p.analyze settings (.after n) = .ok r' →
      ∃ cs, cs.Perm r'.controls ∧ Forall₂ (fun d c => ControlReport.Accounts p
        ((p.graph d).MayGive settings.exclusiveTableActions) d c) p.owners cs := by
  obtain hnone | hanalyze := p.analyze_eq_ok settings
  · exact ⟨fun r hr => absurd hr (hnone _ r), fun r hr => absurd hr (hnone _ r)⟩
  rw [builtControls_eq] at hanalyze
  simp only [hanalyze]
  set exclusive := settings.exclusiveTableActions
  obtain ⟨hfull, -⟩ := solveControls_calm exclusive
    (s := ⟨.never, Statistics.empty, false⟩) ⟨rfl, rfl⟩ (p.owners.map p.built)
  have hcut := solveControls_hides exclusive
    (s := ⟨.after n, Statistics.empty, false⟩) rfl (p.owners.map p.built)
  refine ⟨?_, ?_⟩
  · rintro r ⟨hclear, rfl⟩
    rw [hfull, flatMap_map] at hclear
    have hbuilt : ∀ c ∈ p.owners.map p.built, ∀ o ∈ c.outcomes exclusive, o.fault? = none :=
      fun c hc o ho => hclear o (mem_flatMap.2 ⟨c, hc, ho⟩)
    have hcalm := clear_hides hcut hbuilt
    have hentries := entries_withheld (entries_hides hcut hcalm)
      fun d hd => hbuilt _ (mem_map_of_mem hd)
    refine ⟨_, ⟨hcalm, rfl⟩, rfl, rfl, ?_⟩
    rw [reportOn, hfull, map_map, map_map]
    refine Order.forall₂_sort ?_ hentries
    intro a b a' b' ha hb
    rw [ha.name, hb.name]
  · rintro r' ⟨hclear, rfl⟩
    exact ⟨_, (Order.sort_perm _ _).symm, entries_hides hcut hclear⟩

end Program

end ControlReach
