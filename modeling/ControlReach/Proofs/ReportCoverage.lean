import ControlReach.Proofs.ExactVerdict
import ControlReach.Proofs.Freshness
import ControlReach.Proofs.Generation
import ControlReach.Proofs.Ownership
import ControlReach.Proofs.SortedOrder
import ControlReach.Report.Analysis

/-!
# Reports are complete

Unless it is canceled, the report has one entry for each control that owns its name and a rejection
for every other, and in each entry one result for each error location. Only an unknown whose name
has no encoding keeps an analysis from its report.
-/

namespace ControlReach

open List ControlReport

/-! ### Error locations -/

namespace Build

variable (h : (FlowGraph.ofControl globals calls d).2 = [])

include h

theorem index_targets : (ofControl globals calls d).targets.map Target.index =
      List.range (ofControl globals calls d).targets.length := by
  obtain ⟨a, helab, hdetaches⟩ := ofControl_spec h
  exact (hdetaches.counted helab.counted).target

theorem control_targets : ∀ t ∈ (ofControl globals calls d).targets, t.control = d.name := by
  obtain ⟨a, helab, hdetaches⟩ := ofControl_spec h
  rw [← Context.control_initial calls d]
  exact (hdetaches.counted helab.counted).owner

theorem id_targets : (ofControl globals calls d).targets.map Target.id =
      (List.range (ofControl globals calls d).targets.length).map
        fun i => d.name ++ "#" ++ toString i := by
  rw [← index_targets h, map_map]
  refine map_congr_left fun t ht => ?_
  rw [Target.id, control_targets h t ht]
  rfl

end Build

theorem FlowGraph.perm_targets_prune (g : FlowGraph) (targets : List Target) :
    ((g.prune targets).deadTargets ++ (g.prune targets).targets).Perm targets := by
  refine perm_append_comm.trans ?_
  simpa [prune] using filter_append_perm (fun t : Target => t.block ∈ g.reachable) targets

/-! ### The order of error locations -/

theorem digitValue?_digitChar : ∀ n < 10, Text.digitValue? n.digitChar = some n := by
  decide

theorem readDigits_toDigits (n : Nat) : readDigits (Nat.toDigits 10 n).reverse = some n := by
  induction n using Nat.strongRecOn with
  | ind n ih =>
    rw [Nat.toDigits_eq_if (by decide)]
    split
    · rename_i h
      simp [readDigits, digitValue?_digitChar n h]
    · rename_i h
      rw [reverse_append, reverse_singleton, singleton_append, readDigits,
        digitValue?_digitChar _ (Nat.mod_lt n (by decide)), ih (n / 10) (by omega)]
      exact congrArg some (Nat.mod_add_div n 10)

@[simp] theorem Target.number_eq_index (t : Target) : t.number = t.index := by
  have hdigits : t.id.toList.reverse.takeWhile (· != '#') = (Nat.toDigits 10 t.index).reverse := by
    have hplain : ∀ c ∈ (Nat.toDigits 10 t.index).reverse, (c != '#') = true := by
      intro c hc
      have := Nat.isDigit_of_mem_toDigits (by decide) (by decide) (mem_reverse.1 hc)
      simp only [bne_iff_ne, ne_eq]
      rintro rfl
      exact absurd this (by decide)
    have hid : t.id.toList.reverse =
        (Nat.toDigits 10 t.index).reverse ++ '#' :: t.control.toList.reverse := by
      simp [Target.id, String.toList_append]
    rw [hid, takeWhile_append_of_pos hplain, takeWhile_cons_of_neg (by decide), append_nil]
  rw [number, hdigits, readDigits_toDigits]
  rfl

theorem Target.le_eq_index {a b : Target} (h : a.control = b.control) :
    a.le b = decide (a.index ≤ b.index) := by
  by_cases hindex : a.index = b.index
  · have hid : a.id = b.id := by rw [Target.id, Target.id, h, hindex]
    have hle : Order.textLe b.id b.id = true := (or_self_iff).1 (Order.codesLe_total _ _)
    simp [le, h, hindex, hid, hle]
  · simp [le, h, hindex, Nat.lt_iff_le_and_ne]

theorem ControlReport.results_ordered {c : ControlReport} {name : String}
    (h : ∀ r ∈ c.results, r.target.control = name) :
    c.ordered.results = Order.sort (fun a b => decide (a.target.index ≤ b.target.index)) c.results :=
  Order.sort_congr fun a ha b hb => Target.le_eq_index ((h a ha).trans (h b hb).symm)

/-! ### What a report has to say -/

variable (p : Program)

def Program.graph (d : ControlDecl) : FlowGraph :=
  (FlowGraph.ofControl p.globals.scope (some p.callGraph) d).1

def Program.rejections (d : ControlDecl) : List Diagnostic :=
  (FlowGraph.ofControl p.globals.scope (some p.callGraph) d).2

def Program.targets (p : Program) (d : ControlDecl) : List Target :=
  (Build.ofControl p.globals.scope (some p.callGraph) d).targets

/-- A verdict of the query of an error location, if nothing is canceled. -/
def FlowGraph.Verdicts (g : FlowGraph) (exclusive : Bool) (t : Target) (v : Verdict) : Prop :=
  ∃ q, (g.generate exclusive t .never).1 = .ok q ∧ q.check .never = (.ok v, .never)

/-- A rejected control has no results. An accepted one has one for each error location, unreachable
if no path leads there and otherwise with a good verdict. -/
structure ControlReport.Accounts (p : Program) (good : Target → Verdict → Prop) (d : ControlDecl)
    (c : ControlReport) : Prop where
  name : c.name = d.name
  blocks : c.blocks = (p.graph d).blocks.length
  errors : c.errors = p.rejections d
  rejected : c.errors ≠ [] → c.results = []
  targets : c.errors = [] → c.results.map TargetResult.target = p.targets d
  ids : c.errors = [] → c.results.map (fun r => r.target.id) =
    (List.range (p.targets d).length).map fun i => d.name ++ "#" ++ toString i
  verdict : ∀ r ∈ c.results,
    r.target ∈ (p.graph d).deadTargets ∧ r.verdict = .unreachable ∨
    r.target ∈ (p.graph d).targets ∧ good r.target r.verdict

/-- The entry of a control whose queries were all decided. -/
def ControlReport.Covers (exclusive : Bool) (d : ControlDecl) : ControlReport → Prop :=
  Accounts p ((p.graph d).Verdicts exclusive) d

/-- One entry for each control that owns its name, in order, and a rejection for every other one. -/
structure Report.Covers (p : Program) (exclusive : Bool) (r : Report) : Prop where
  controls : ∃ cs, cs.Perm r.controls ∧
    Forall₂ (ControlReport.Covers p exclusive) p.owners cs
  sorted : (r.controls.map name).Pairwise
    fun x y => Order.textLe x y = true ∧ x ≠ y
  repeated : (p.repeated.map fun q => Diagnostic.of (.declaredTwice q.1.name q.2) q.1.loc).Sublist
    r.errors
  uncanceled : r.canceled = false

/-! ### The analysis without its bookkeeping -/

theorem visitBlocks_never (g : FlowGraph) (target : Target) (relevant order : List BlockId)
    (p : Progress) : (visitBlocks g target relevant order .never p).2 = .never := by
  induction order generalizing p with
  | nil => rfl
  | cons i order ih =>
    rw [visitBlocks, Token.poll_never]
    dsimp only
    rw [if_neg (by decide)]
    split <;> first | rfl | exact ih _

theorem FlowGraph.generate_never (g : FlowGraph) (exclusive : Bool) (t : Target) :
    (g.generate exclusive t .never).2 = .never := by
  rw [generate_eq]
  split_ifs
  · rfl
  · exact visitBlocks_never _ _ _ _ _
  · rfl

def FlowGraph.outcome (g : FlowGraph) (exclusive : Bool) (t : Target) : TargetOutcome :=
  match (g.generate exclusive t .never).1 with
  | .error fault => .ofFault t fault
  | .ok q =>
    match q.decide with
    | .error run => .failed (.badName run)
    | .ok verdict => .answered ⟨t, verdict⟩

/-- Nothing is canceled, and there is a time for a question. -/
def Session.Calm (s : Session) : Prop := s.token = .never ∧ s.timeless = false

theorem Session.ask_eq {s : Session} (h : s.timeless = false) (q : Query) (token : Token) :
    s.ask q token = ((q.check token).1.mapError .badName, (q.check token).2) := by
  unfold Session.ask
  rw [h]
  rcases q.check token with ⟨run | verdict, token'⟩
  · rfl
  · cases verdict with
    | unknown reason => cases reason <;> rfl
    | _ => rfl

namespace FlowGraph

variable (g : FlowGraph) (exclusive : Bool)

theorem solve_calm (h : s.Calm) (t : Target) :
    (g.solve exclusive t s).1 = g.outcome exclusive t ∧ (g.solve exclusive t s).2.Calm := by
  unfold solve outcome
  rw [h.1, Token.poll_never]
  dsimp only
  rw [if_neg (by decide)]
  have htoken := g.generate_never exclusive t
  generalize g.generate exclusive t .never = generated at htoken ⊢
  obtain ⟨fault | q, token⟩ := generated
  · exact ⟨rfl, htoken, h.2⟩
  · obtain rfl : token = .never := htoken
    dsimp only
    rw [Session.ask_eq h.2, q.check_never]
    cases q.decide with
    | error run | ok verdict => exact ⟨rfl, rfl, h.2⟩

theorem solveAll_calm (h : s.Calm) (targets : List Target) :
    (g.solveAll exclusive targets s).1 = targets.map (g.outcome exclusive) ∧
      (g.solveAll exclusive targets s).2.Calm := by
  induction targets generalizing s with
  | nil => exact ⟨rfl, h⟩
  | cons t rest ih =>
    obtain ⟨houtcome, hcalm⟩ := g.solve_calm exclusive h t
    obtain ⟨hrest, hcalm'⟩ := ih hcalm
    rw [solveAll, map_cons, ← houtcome, ← hrest]
    exact ⟨rfl, hcalm'⟩

end FlowGraph

def BuiltControl.outcomes (exclusive : Bool) (c : BuiltControl) : List TargetOutcome :=
  c.jobs.map (c.graph.outcome exclusive)

theorem solveControls_calm (exclusive : Bool) {s : Session} (h : s.Calm) (cs : List BuiltControl) :
    (solveControls exclusive cs s).1 = cs.map (fun c => (c, c.outcomes exclusive)) ∧
      (solveControls exclusive cs s).2.Calm := by
  induction cs generalizing s with
  | nil => exact ⟨rfl, h⟩
  | cons c rest ih =>
    obtain ⟨houtcomes, hcalm⟩ := c.graph.solveAll_calm exclusive h c.jobs
    obtain ⟨hrest, hcalm'⟩ := ih hcalm
    rw [solveControls, map_cons, BuiltControl.outcomes, ← houtcomes, ← hrest]
    exact ⟨rfl, hcalm'⟩

theorem AnalysisSettings.sharingFault?_eq_none {settings : AnalysisSettings}
    (h : 0 < settings.maxWorkers) (items : Nat) : settings.sharingFault? {} items = none := by
  unfold sharingFault?
  split
  · rfl
  · rw [if_neg (by decide), if_neg (by omega)]

def Program.reportOn (x : List (BuiltControl × List TargetOutcome) × Session) : Report where
  source := p.source
  controls := Order.sort (fun a b => Order.textLe a.name b.name) (x.1.map fun y => y.1.report y.2)
  errors := p.globals.errors
  canceled := x.2.token.poll.1
  statistics := x.2.statistics

def Program.concludeOn (x : List (BuiltControl × List TargetOutcome) × Session) :
    Except AnalysisFault Report :=
  match (x.1.flatMap Prod.snd).findSome? TargetOutcome.fault? with
  | some fault => .error fault
  | none => .ok (p.reportOn x)

theorem Program.analyze_eq {settings : AnalysisSettings}
    (h : 0 < settings.maxWorkers) (token : Token) : p.analyze settings token =
      p.concludeOn (solveControls settings.exclusiveTableActions p.builtControls
        ⟨token, Statistics.empty, false⟩) := by
  unfold analyze
  dsimp only
  rw [settings.sharingFault?_eq_none h, settings.sharingFault?_eq_none h]
  rfl

/-! ### The entries -/

/-- What became of an error location is that it has a verdict that is allowed. -/
def TargetOutcome.Answers (good : Target → Verdict → Prop) (t : Target) (o : TargetOutcome) :
    Prop :=
  ∃ verdict, o = .answered ⟨t, verdict⟩ ∧ good t verdict

section Answers

theorem TargetOutcome.exists_results (h : Forall₂ (Answers good) targets outcomes) :
    ∃ results : List TargetResult, outcomes = results.map .answered ∧
      results.map TargetResult.target = targets ∧ ∀ r ∈ results, good r.target r.verdict := by
  induction h with
  | nil => exact ⟨[], rfl, rfl, forall_mem_nil _⟩
  | cons hanswer _ ih =>
    obtain ⟨verdict, rfl, hgood⟩ := hanswer
    obtain ⟨results, rfl, rfl, hall⟩ := ih
    exact ⟨⟨_, verdict⟩ :: results, rfl, rfl, forall_mem_cons.2 ⟨hgood, hall⟩⟩

end Answers

namespace Program

variable {p : Program} {d : ControlDecl} (exclusive : Bool)

def built (p : Program) (d : ControlDecl) : BuiltControl := ⟨d.name, p.graph d, p.rejections d⟩

theorem builtControls_eq (p : Program) : p.builtControls = p.owners.map p.built := by
  rw [← p.ownedControls_eq]
  rfl

variable {t : Target}

theorem exists_generate (h : p.rejections d = []) (ht : t ∈ (p.graph d).targets) :
    ∃ q, ((p.graph d).generate exclusive t .never).1 = .ok q := by
  obtain ⟨⟨b⟩, hback⟩ := FlowGraph.ofControl_built (g := p.graph d) (Prod.ext rfl h)
  obtain ⟨known, n, A, hmade, hg⟩ := b.exists_assigned p.fits_globals
  obtain ⟨types, hd, htypes⟩ := hmade.exists_types
  obtain ⟨q, hq, -⟩ := hg.generate_eq hd htypes hback (b.mem_ids_of_mem_targets ht) exclusive
  exact ⟨q, hq⟩

theorem outcome_graph (h : p.rejections d = []) (ht : t ∈ (p.graph d).targets) :
    ∃ q, ((p.graph d).generate exclusive t .never).1 = .ok q ∧
      ((∃ verdict, q.check .never = (.ok verdict, .never) ∧
          (p.graph d).outcome exclusive t = .answered ⟨t, verdict⟩) ∨
        ∃ run, q.check .never = (.error run, .never) ∧
          (p.graph d).outcome exclusive t = .failed (.badName run)) := by
  obtain ⟨q, hq⟩ := exists_generate exclusive h ht
  refine ⟨q, hq, ?_⟩
  rw [FlowGraph.outcome, hq, q.check_never]
  dsimp only
  cases q.decide with
  | ok verdict => exact .inl ⟨verdict, rfl, rfl⟩
  | error run => exact .inr ⟨run, rfl, rfl⟩

theorem outcomes_rejected (h : p.rejections d ≠ []) : (p.built d).outcomes exclusive = [] := by
  have hjobs : (p.built d).jobs = [] := if_neg (by simpa [built] using h)
  rw [BuiltControl.outcomes, hjobs]
  rfl

section

variable (h : p.rejections d = [])

include h

theorem outcomes_accepted :
    (p.built d).outcomes exclusive = (p.graph d).targets.map ((p.graph d).outcome exclusive) := by
  have hjobs : (p.built d).jobs = (p.graph d).targets := if_pos (by simp [built, h])
  rw [BuiltControl.outcomes, hjobs]
  rfl

theorem answers_of_clear (ht : t ∈ (p.graph d).targets)
    (hclear : ((p.graph d).outcome exclusive t).fault? = none) :
    ((p.graph d).outcome exclusive t).Answers ((p.graph d).Verdicts exclusive) t := by
  obtain ⟨q, hq, ⟨verdict, hcheck, hout⟩ | ⟨run, -, hout⟩⟩ := outcome_graph exclusive h ht
  · exact ⟨verdict, hout, q, hq, hcheck⟩
  · rw [hout] at hclear
    cases hclear

theorem accounts_accepted {good : Target → Verdict → Prop}
    (houtcomes : Forall₂ (TargetOutcome.Answers good) (p.graph d).targets outcomes) :
    ControlReport.Accounts p good d ((p.built d).report outcomes) := by
  obtain ⟨results, rfl, hlive, hgood⟩ := TargetOutcome.exists_results houtcomes
  have herrors : ((p.built d).report (results.map .answered)).errors = [] := by
    have hnone : (results.map .answered).filterMap TargetOutcome.error? = [] := by
      simp [TargetOutcome.error?]
    rw [BuiltControl.report, ordered, hnone]
    exact (append_nil _).trans h
  have hperm : (((p.graph d).deadResults ++ results).map TargetResult.target).Perm
      (p.targets d) := by
    have hdead : (p.graph d).deadResults.map TargetResult.target = (p.graph d).deadTargets := by
      rw [FlowGraph.deadResults, map_map]
      exact map_id _
    rw [map_append, hdead, hlive]
    exact FlowGraph.perm_targets_prune _ _
  have hresults : ((p.built d).report (results.map .answered)).results =
      Order.sort (fun a b => decide (a.target.index ≤ b.target.index))
        ((p.graph d).deadResults ++ results) := by
    have hsome : (results.map .answered).filterMap TargetOutcome.result? = results := by
      rw [filterMap_map]
      exact filterMap_some
    have hlist : (if (p.built d).errors.isEmpty then (p.graph d).deadResults ++ results else []) =
        (p.graph d).deadResults ++ results := if_pos (by simp [built, h])
    rw [BuiltControl.report, hsome, ← hlist]
    refine results_ordered fun r hr => Build.control_targets h _ ?_
    exact hperm.mem_iff.1 (mem_map_of_mem (hlist ▸ hr))
  have htargets : ((p.built d).report (results.map .answered)).results.map TargetResult.target =
      p.targets d := by
    rw [hresults]
    refine Order.map_sort_eq_of_perm TargetResult.target Target.index hperm ?_
    rw [targets, Build.index_targets h]
    exact pairwise_lt_range
  refine ⟨rfl, rfl, herrors.trans h.symm, fun hne => absurd herrors hne, fun _ => htargets,
    fun _ => ?_, fun r hr => ?_⟩
  · have hids := congrArg (List.map Target.id) htargets
    rw [map_map] at hids
    exact hids.trans (Build.id_targets h)
  · rw [hresults, Order.mem_sort, mem_append] at hr
    obtain hdead | hr := hr
    · obtain ⟨t, ht, rfl⟩ := mem_map.1 hdead
      exact .inl ⟨ht, rfl⟩
    · exact .inr ⟨hlive ▸ mem_map_of_mem hr, hgood r hr⟩

end

theorem accounts_rejected (good : Target → Verdict → Prop) (h : p.rejections d ≠ []) :
    ControlReport.Accounts p good d ((p.built d).report []) := by
  have herrors : ((p.built d).report []).errors = p.rejections d := append_nil _
  have hresults : ((p.built d).report []).results = [] := by
    rw [BuiltControl.report, ordered]
    exact congrArg _ (if_neg (by simpa [built] using h))
  have hne : ((p.built d).report []).errors ≠ [] := herrors ▸ h
  refine ⟨rfl, rfl, herrors, fun _ => hresults, fun h' => absurd h' hne, fun h' => absurd h' hne,
    fun r hr => ?_⟩
  rw [hresults] at hr
  cases hr

theorem accounts_outcomes {exclusive : Bool}
    (hclear : ∀ o ∈ (p.built d).outcomes exclusive, o.fault? = none) :
    ControlReport.Accounts p ((p.graph d).Verdicts exclusive) d
      ((p.built d).report ((p.built d).outcomes exclusive)) := by
  by_cases h : p.rejections d = []
  · rw [outcomes_accepted exclusive h] at hclear ⊢
    refine accounts_accepted h ?_
    rw [forall₂_map_right_iff, forall₂_same]
    exact fun t ht => answers_of_clear exclusive h ht (hclear _ (mem_map_of_mem ht))
  · rw [outcomes_rejected exclusive h]
    exact accounts_rejected _ h

theorem sorted_entries (p : Program) {entry : ControlDecl → ControlReport}
    (hentry : ∀ d, (entry d).name = d.name) :
    ((Order.sort (fun a b => Order.textLe a.name b.name) (p.owners.map entry)).map
      name).Pairwise fun x y => Order.textLe x y = true ∧ x ≠ y := by
  have hnames : (p.owners.map entry).map name = p.owners.map ControlDecl.name := by
    rw [map_map]
    exact map_congr_left fun d _ => hentry d
  have hnodup : ((Order.sort (fun a b => Order.textLe a.name b.name) (p.owners.map entry)).map
      name).Nodup := by
    rw [((Order.sort_perm _ _).map name).nodup_iff, hnames, ← p.ownedControls_eq]
    exact p.nodup_ownedControls
  have hsorted := Order.pairwise_sort_textLe name (p.owners.map entry)
  exact (pairwise_map.2 hsorted).and hnodup

/-- The analysis ends with a report that covers the program, unless the name of an unknown has no
encoding. -/
theorem analyze_covers (p : Program) (settings : AnalysisSettings) (h : 0 < settings.maxWorkers) :
    (∃ r, p.analyze settings .never = .ok r ∧ r.Covers p settings.exclusiveTableActions) ∨
    ∃ run, p.analyze settings .never = .error (.badName run) ∧
      ∃ d ∈ p.owners, p.rejections d = [] ∧ ∃ t ∈ (p.graph d).targets, ∃ q,
        ((p.graph d).generate settings.exclusiveTableActions t .never).1 = .ok q ∧
        q.check .never = (.error run, .never) ∧
        ∃ s ∈ q.symbols, Text.encode s.name = .error run := by
  rw [p.analyze_eq h, Program.concludeOn, builtControls_eq]
  set exclusive := settings.exclusiveTableActions
  obtain ⟨hsolved, htoken, -⟩ := solveControls_calm exclusive
    (s := ⟨.never, Statistics.empty, false⟩) ⟨rfl, rfl⟩ (p.owners.map p.built)
  rw [hsolved, flatMap_map, flatMap_map]
  dsimp only
  cases hfault : (p.owners.flatMap fun d => (p.built d).outcomes exclusive).findSome?
      TargetOutcome.fault? with
  | none =>
    refine .inl ⟨_, rfl, ?_⟩
    have hclear : ∀ d ∈ p.owners, ∀ o ∈ (p.built d).outcomes exclusive, o.fault? = none :=
      fun d hd o ho => findSome?_eq_none_iff.1 hfault o (mem_flatMap.2 ⟨d, hd, ho⟩)
    refine ⟨⟨_, (Order.sort_perm _ _).symm, ?_⟩, ?_, p.sublist_errors, ?_⟩
    · rw [hsolved, map_map, map_map, forall₂_map_right_iff, forall₂_same]
      exact fun d hd => accounts_outcomes (hclear d hd)
    · rw [reportOn, hsolved, map_map, map_map]
      exact p.sorted_entries fun _ => rfl
    · rw [reportOn, htoken]
      rfl
  | some fault =>
    obtain ⟨o, ho, hfault⟩ := exists_of_findSome?_eq_some hfault
    obtain ⟨d, hd, ho⟩ := mem_flatMap.1 ho
    have haccepted : p.rejections d = [] := by
      by_contra hrejected
      rw [outcomes_rejected exclusive hrejected] at ho
      cases ho
    rw [outcomes_accepted exclusive haccepted] at ho
    obtain ⟨t, ht, rfl⟩ := mem_map.1 ho
    obtain ⟨q, hq, ⟨verdict, -, hout⟩ | ⟨run, hcheck, hout⟩⟩ := outcome_graph exclusive haccepted ht
    · rw [hout] at hfault
      cases hfault
    · rw [hout] at hfault
      cases hfault
      have herror : q.decide = .error run := by
        rw [q.check_never] at hcheck
        exact congrArg Prod.fst hcheck
      exact .inr ⟨run, rfl, d, hd, haccepted, t, ht, q, hq, hcheck,
        q.exists_of_decide_eq_error herror⟩

end Program

namespace Twice

def call (x : String) : Stmt := .call (.var x none) [] none none

/-- Nothing comes to the second error location. -/
def control : ControlDecl where
  name := "B"
  params := [⟨.input, .bool none, "x", none⟩]
  locals := []
  body := .mk [call "bug", call "bug"] none
  loc := none

def rejected : ControlDecl := ⟨"A", [], [], .mk [call "missing"] none, none⟩

def program : Program := ⟨[.control control, .control rejected, .control rejected], ""⟩

theorem encode_symbols : (program.graph control).targets.all (fun t =>
    ((program.graph control).generate true t .never).1.toOption.all fun q =>
      q.symbols.all fun s => (Text.encode s.name).toBool) = true := by
  decide +kernel

end Twice

theorem Program.analyze_covers_twice : 0 < ({} : AnalysisSettings).maxWorkers ∧
    Twice.program.repeated.length = 1 ∧
    ∃ r, Twice.program.analyze {} .never = .ok r ∧ r.Covers Twice.program true := by
  refine ⟨by decide, rfl, (analyze_covers Twice.program {} (by decide)).resolve_right ?_⟩
  rintro ⟨run, -, d, hd, haccepted, t, ht, q, hq, -, s, hs, hrun⟩
  have howners : Twice.program.owners = [Twice.control, Twice.rejected] := rfl
  rw [howners, List.mem_cons, List.mem_singleton] at hd
  obtain rfl | rfl := hd
  · have hnames := List.all_eq_true.1 Twice.encode_symbols t ht
    have hgen : ((Twice.program.graph Twice.control).generate true t .never).1 = .ok q := hq
    rw [hgen] at hnames
    have hname := List.all_eq_true.1 hnames s hs
    rw [hrun] at hname
    cases hname
  · have hne : (Twice.program.rejections Twice.rejected).isEmpty = false := by decide +kernel
    rw [haccepted] at hne
    cases hne

/-- The name of the parameter is half of a pair of code units. -/
def Half.control : ControlDecl where
  name := "C"
  params := [⟨.input, .bool none, String.ofList (Text.ofCode 0xd800), none⟩]
  locals := []
  body := .mk [.call (.var "bug" none) [] none none] none
  loc := none

def Half.program : Program := ⟨[.control control], ""⟩

/-- An analysis can end without a report: the name of an unknown need not have an encoding. -/
theorem Program.not_forall_exists_report : ¬ ∀ (p : Program) (settings : AnalysisSettings),
    0 < settings.solverTimeoutMs → 0 < settings.maxWorkers →
    ∃ r, p.analyze settings .never = .ok r := by
  intro h
  obtain ⟨r, hr⟩ := h Half.program {} (by decide) (by decide)
  have hfails : (Half.program.analyze {} .never).toBool = false := by decide +kernel
  rw [hr] at hfails
  cases hfails

end ControlReach
