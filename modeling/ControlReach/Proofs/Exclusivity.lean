import ControlReach.Proofs.Freshness

/-!
# Exclusive table actions

Whether a query has a solution does not depend on asking that each table application selects exactly
one label. A solution follows a way to the error location, and selectors and labels off that way
occur in no stored value, so they can be made false.
-/

namespace ControlReach

open List Term FlowGraph NameShape

/-- The assertions of a query have a common solution. -/
def Query.Satisfiable {δ : Type} [DecidableEq δ] (denote : String → δ) (q : Query) : Prop :=
  ∃ v : Valuation δ, ∀ t ∈ q.assertions, t.holds denote v = true

/-! ### Unknowns of values -/

def Symbol.IsData (s : Symbol) : Prop :=
  match read s.name.toList with
  | some (.edge _ _) | some (.guard _ _ _) => False
  | _ => True

theorem freshIn_isData (hknown : ∀ x ∈ known, x.Named) : FreshIn Symbol.IsData known := by
  intro x hx n path hpath sort
  simp only [Symbol.IsData, read_freshName (hknown x hx).display n hpath]

theorem joinsIn_isData (hknown : ∀ x ∈ known, x.Named) (block : BlockId) :
    JoinsIn Symbol.IsData known block := by
  intro x hx path hpath sort
  simp only [Symbol.IsData, read_joinName (hknown x hx).display block path]

/-! ### Routes -/

/-- A way through a graph: an incoming edge for each block, and a label for each table site. -/
structure Route where
  edge : BlockId → Option Nat
  label : Nat → String

variable {n : Nat} {s : TableSite} {t : Term}

namespace Route

def GoesOn (g : FlowGraph) (visited : List BlockId) (r r' : Route) : Prop :=
  ∀ i ∈ visited, r'.edge i = r.edge i ∧ ∀ n ∈ g.choices i, r'.label n = r.label n

def Labels (g : FlowGraph) (r : Route) : Prop :=
  ∀ n s, g.site? n = some s → s.labels ≠ [] → r.label n ∈ s.labels

def enter (r : Route) (i : BlockId) (k : Option Nat) : Route :=
  { r with edge := Function.update r.edge i k }

def choose (r : Route) (n : Nat) (label : String) : Route :=
  { r with label := Function.update r.label n label }

variable {g : FlowGraph} {r : Route}

theorem goesOn_refl (g : FlowGraph) (visited : List BlockId) (r : Route) : r.GoesOn g visited r :=
  fun _ _ => ⟨rfl, fun _ _ => rfl⟩

theorem GoesOn.of_enter (hi : i ∉ visited) (h : (r.enter i k).GoesOn g visited r') :
    r.GoesOn g visited r' := by
  intro j hj
  refine ⟨(h j hj).1.trans ?_, (h j hj).2⟩
  exact Function.update_of_ne (ne_of_mem_of_not_mem hj hi) _ _

theorem GoesOn.of_choose (hn : ∀ j ∈ visited, n ∉ g.choices j) {label : String}
    (h : (r.choose n label).GoesOn g visited r') : r.GoesOn g visited r' := by
  intro j hj
  refine ⟨(h j hj).1, fun m hm => ((h j hj).2 m hm).trans ?_⟩
  refine Function.update_of_ne ?_ _ _
  rintro rfl
  exact hn j hj hm

theorem Labels.choose (h : r.Labels g) {label : String} (hs : g.site? n = some s)
    (hlabel : label ∈ s.labels) : (r.choose n label).Labels g := by
  intro m s' hs' hne
  by_cases hm : m = n
  · subst hm
    obtain rfl := Option.some.inj (hs.symm.trans hs')
    simpa [Route.choose] using hlabel
  · simpa [Route.choose, hm] using h m s' hs' hne

def still (g : FlowGraph) : Route where
  edge _ := none
  label n := (((g.site? n).map TableSite.labels).getD []).headD ""

theorem labels_still (g : FlowGraph) : (still g).Labels g := by
  intro n s hs hne
  obtain ⟨label, rest, hlabels⟩ := exists_cons_of_ne_nil hne
  simp [still, hs, hlabels]

end Route

section Along

variable {δ : Type} (v : Valuation δ) (r : Route)

open Classical in
/-- The valuation that takes only the edges and the labels of a route. -/
noncomputable def Valuation.along : Valuation δ where
  flag name :=
    match read name.toList with
    | some (.edge block index) => decide (∃ (i : BlockId) (k : Nat), block = (toString i).toList ∧
        index = (toString k).toList ∧ r.edge i = some k)
    | some (.guard _ site label) =>
      decide (∃ n : Nat, site = (toString n).toList ∧ label = (r.label n).toList)
    | _ => v.flag name
  text := v.text

theorem Valuation.same_along : v.Same Symbol.IsData (v.along r) := by
  refine ⟨fun name h => ?_, fun name _ => rfl⟩
  simp only [Symbol.IsData] at h
  simp only [Valuation.along]
  revert h
  rcases read name.toList with _ | ⟨_ | _ | _ | _ | _⟩ <;> simp

theorem flag_along_guardName (hs : IsDotted s.table) (label : String) :
    (v.along r).flag (s.guardName label) = true ↔ r.label s.id = label := by
  rw [Valuation.along]
  simp only [read_guardName hs, decide_eq_true_eq]
  constructor
  · rintro ⟨n, hn, hlabel⟩
    rw [toString_nat_inj hn]
    exact (String.toList_inj.1 hlabel).symm
  · rintro rfl
    exact ⟨s.id, rfl, rfl⟩

variable [DecidableEq δ]

theorem holds_along_selector (i : BlockId) (k : Nat) :
    (selector i k).holds denote (v.along r) = true ↔ r.edge i = some k := by
  rw [selector, holds_flag, Valuation.along]
  simp only [read_edgeName, decide_eq_true_eq]
  constructor
  · rintro ⟨i', k', hi, hk, h⟩
    rwa [toString_int_inj hi, toString_nat_inj hk]
  · intro h
    exact ⟨i, k, rfl, rfl, h⟩

theorem Term.Over.holds_along (h : t.Over Symbol.IsData) :
    t.holds denote (v.along r) = t.holds denote v :=
  (h.holds_eq (v.same_along r)).symm

end Along

/-! ### Arrivals -/

section Visit

variable {δ : Type} [DecidableEq δ] {denote : String → δ} {v : Valuation δ} {g : FlowGraph}
  {visited : List BlockId} {p : Progress}

/-- Under all routes that go on from some route at the given blocks, the terms hold. -/
def Routed (g : FlowGraph) (denote : String → δ) (v : Valuation δ) (visited : List BlockId)
    (terms : List Term) : Prop :=
  ∃ r : Route, r.Labels g ∧ ∀ r', r.GoesOn g visited r' →
    ∀ t ∈ terms, t.holds denote (v.along r') = true

/-- What has come in under a true condition has come along a route. -/
structure Progress.Routed (g : FlowGraph) (denote : String → δ) (v : Valuation δ)
    (visited : List BlockId) (p : Progress) : Prop where
  store : g.ArrivalsOver Symbol.IsData p
  route : ∀ j, ∀ a ∈ p.arrivals j, a.condition.holds denote v = true →
    ControlReach.Routed g denote v visited (a.condition :: p.definitions)

theorem FlowGraph.start_routed (g : FlowGraph) (denote : String → δ) (v : Valuation δ) :
    g.start.Routed g denote v [] := by
  refine ⟨g.arrivalsOver_start, fun j a ha _ => ?_⟩
  obtain ⟨-, rfl⟩ := mem_arrivals_start ha
  exact ⟨.still g, Route.labels_still g, fun r' _ => forall_mem_singleton.2 rfl⟩

variable (hg : g.Named)

include hg

/-- Entering a block that is on no route yet keeps the routes to other blocks. -/
theorem FlowGraph.pass_aside (hp : p.Routed g denote v visited) (hi : i ∉ visited)
    (h : g.pass i p = .ok (some c)) (hb : b ∈ p.arrivals j)
    (hcond : b.condition.holds denote v = true) :
    Routed g denote v (i :: visited) (b.condition :: c.definitions) := by
  obtain ⟨a, defs, assumed, -, hc, -, -, -, hcases⟩ := hg.over_pass (freshIn_isData hg.named)
    (joinsIn_isData hg.named i) hp.store h
  rw [hc]
  obtain ⟨r, hlabels, hr⟩ := hp.route j b hb hcond
  refine ⟨r.enter i none, hlabels, fun r' hr' => ?_⟩
  obtain ⟨⟨hedge, -⟩, hr'⟩ := forall_mem_cons.1 hr'
  obtain ⟨hb, hdefs⟩ := forall_mem_cons.1 (hr r' (Route.GoesOn.of_enter hi hr'))
  have hnone : r'.edge i = none := hedge.trans (Function.update_self ..)
  refine forall_mem_cons.2 ⟨hb, forall_mem_append.2 ⟨hdefs, fun t ht => ?_⟩⟩
  obtain ⟨k, -, body, rfl, -⟩ := hcases.defined t ht
  rw [holds_selected, holds_along_selector, hnone]
  nofun

/-- Entering a block under a true condition goes on along a route into it. -/
theorem FlowGraph.pass_into (hp : p.Routed g denote v visited) (hi : i ∉ visited)
    (h : g.pass i p = .ok (some c)) (hdefs : ∀ t ∈ c.definitions, t.holds denote v = true)
    (hcond : c.condition.holds denote v = true) :
    ∃ r : Route, r.Labels g ∧ ∀ r', r.GoesOn g visited r' → r'.edge i = r.edge i →
      ∀ t ∈ c.condition :: c.definitions, t.holds denote (v.along r') = true := by
  obtain ⟨a, defs, assumed, -, hc, hcondition, -, hassumed, hcases⟩ :=
    hg.over_pass (freshIn_isData hg.named) (joinsIn_isData hg.named i) hp.store h
  rw [hcondition] at hcond ⊢
  rw [hc] at hdefs ⊢
  obtain ⟨ha, hnew⟩ := forall_mem_cons.1 (holds_mkAnd.1 hcond)
  obtain ⟨-, hdefs⟩ := forall_mem_append.1 hdefs
  -- It is enough to find a route to the joined arrival.
  suffices hroute : ∃ r : Route, r.Labels g ∧ ∀ r', r.GoesOn g visited r' → r'.edge i = r.edge i →
      a.condition.holds denote (v.along r') = true ∧
        ∀ t ∈ p.definitions ++ defs, t.holds denote (v.along r') = true by
    obtain ⟨r, hlabels, hr⟩ := hroute
    refine ⟨r, hlabels, fun r' hr' hedge => ?_⟩
    obtain ⟨hcond', hdefs'⟩ := hr r' hr' hedge
    refine forall_mem_cons.2 ⟨holds_mkAnd.2 ?_, hdefs'⟩
    refine forall_mem_cons.2 ⟨hcond', fun t ht => ?_⟩
    rw [(hassumed t ht).holds_along v r']
    exact hnew t ht
  have hdefined := hcases.defined
  rcases hcases with ⟨harr, rfl⟩ | ⟨values, hor, rfl, -⟩
  · obtain ⟨r, hlabels, hr⟩ := hp.route i a (by rw [harr]; exact mem_cons_self) ha
    refine ⟨r, hlabels, fun r' hr' _ => ?_⟩
    rw [append_nil]
    exact forall_mem_cons.1 (hr r' hr')
  · rw [hor, holds_mkOr] at ha
    obtain ⟨sel, hsel, htrue⟩ := ha
    obtain ⟨k, hk, rfl⟩ := mem_map.1 hsel
    rw [mem_range] at hk
    have hcond' : (p.arrivals i)[k].condition.holds denote v = true := by
      refine holds_selected.1 (hdefs _ (mem_append_left _ (mem_iff_getElem.2 ⟨k, ?_, ?_⟩))) htrue
      all_goals simp [selectors, hk]
    obtain ⟨r, hlabels, hr⟩ := hp.route i _ (getElem_mem hk) hcond'
    refine ⟨r.enter i (some k), hlabels, fun r' hr' hedge => ?_⟩
    have hedge : r'.edge i = some k := hedge.trans (Function.update_self ..)
    obtain ⟨hthere, hbefore⟩ := forall_mem_cons.1 (hr r' (Route.GoesOn.of_enter hi hr'))
    refine ⟨?_, forall_mem_append.2 ⟨hbefore, fun t ht => ?_⟩⟩
    · rw [hor, holds_mkOr]
      exact ⟨_, hsel, (holds_along_selector v r' i k).2 hedge⟩
    · obtain ⟨m, hm, body, rfl, hbody⟩ := hdefined t ht
      refine holds_selected.2 fun hsel => ?_
      obtain rfl := Option.some.inj (hedge.symm.trans ((holds_along_selector v r' i m).1 hsel))
      rcases hbody with rfl | hbody
      · exact hthere
      · rw [hbody.holds_along v r']
        exact holds_selected.1 (hdefs _ ht) htrue

/-- The condition of an edge holds along all routes, or along those that take its label. -/
theorem FlowGraph.Named.condition_along (he : e ∈ g.edgesOf i) {s : Store}
    (hs : s.Over g.stored Symbol.IsData) (ht : e.condition s = .ok t)
    (htrue : t.holds denote v = true) :
    (∀ r, t.holds denote (v.along r) = true) ∨ ∃ site label, g.NamedSite site ∧
      label ∈ site.labels ∧ site.id ∈ g.choices i ∧
      ∀ r : Route, r.label site.id = label → t.holds denote (v.along r) = true := by
  rw [Edge.condition] at ht
  cases hguard : e.guard with
  | none =>
    rw [hguard] at ht
    cases ht
    exact .inl fun r => rfl
  | some guard =>
    rw [hguard] at ht
    rcases hg.guardOf he hguard with hplain | ⟨site, label, hsite, hlabel, rfl⟩
    · refine .inl fun r => ?_
      rw [(Rvalue.over_condition hs hplain ht).holds_along v r]
      exact htrue
    · cases ht
      refine .inr ⟨site, label, hsite, hlabel, mem_filterMap.2 ⟨e, he, ?_⟩, fun r hr => ?_⟩
      · rw [hguard]
        rfl
      · rw [holds_flag]
        exact (flag_along_guardName v r hsite.table label).2 hr

theorem visitBlock_routed (hunique : ∀ {i j : BlockId} {n : Nat}, n ∈ g.choices i →
    n ∈ g.choices j → i = j)
    (hp : p.Routed g denote v visited) (hi : i ∉ visited)
    (h : visitBlock g target relevant i p = .ok (.inr p'))
    (hdefs : ∀ t ∈ p'.definitions, t.holds denote v = true) :
    p'.Routed g denote v (i :: visited) := by
  have hstores := hp.store.visitBlock hg (freshIn_isData hg.named) (joinsIn_isData hg.named i) h
  rcases visitBlock_inr h with ⟨-, rfl⟩ | ⟨-, c, hpass, hfollow⟩
  · refine ⟨hstores, fun j a ha hcond => ?_⟩
    obtain ⟨r, hlabels, hr⟩ := hp.route j a ha hcond
    exact ⟨r, hlabels, fun r' hr' => hr r' (forall_mem_cons.1 hr').2⟩
  obtain ⟨-, -, -, -, -, -, hstore, -⟩ := hg.over_pass (freshIn_isData hg.named)
    (joinsIn_isData hg.named i) hp.store hpass
  have hsame : p'.definitions = c.definitions := (follow_spec hfollow).1
  rw [hsame] at hdefs
  refine ⟨hstores, fun j b hb hcond => ?_⟩
  rw [hsame]
  rcases mem_arrivals_follow hfollow hb with hb | ⟨e, he, -, t, ht, rfl⟩
  · exact pass_aside hg hp hi hpass hb hcond
  · rw [holds_mkAnd_pair, Bool.and_eq_true] at hcond
    obtain ⟨r, hlabels, hr⟩ := pass_into hg hp hi hpass hdefs hcond.1
    -- The new arrival holds along a route that goes on through the edge.
    have hnew : ∀ r' : Route, r.GoesOn g visited r' → r'.edge i = r.edge i →
        t.holds denote (v.along r') = true → ∀ u ∈ mkAnd [c.condition, t] :: c.definitions,
          u.holds denote (v.along r') = true := by
      intro r' hr' hedge ht
      obtain ⟨hcond', hdefs'⟩ := forall_mem_cons.1 (hr r' hr' hedge)
      refine forall_mem_cons.2 ⟨?_, hdefs'⟩
      rw [holds_mkAnd_pair, hcond', ht]
      rfl
    rcases hg.condition_along he hstore ht hcond.2 with hall | ⟨site, label, hsite, hlabel, hn, hall⟩
    · refine ⟨r, hlabels, fun r' hr' => ?_⟩
      obtain ⟨⟨hedge, -⟩, hr'⟩ := forall_mem_cons.1 hr'
      exact hnew r' hr' hedge (hall r')
    · refine ⟨r.choose site.id label, hlabels.choose hsite.found hlabel, fun r' hr' => ?_⟩
      obtain ⟨⟨hedge, hlabel'⟩, hr'⟩ := forall_mem_cons.1 hr'
      refine hnew r' (Route.GoesOn.of_choose (fun j hj hnj => ?_) hr') hedge (hall r' ?_)
      · exact hi (hunique hn hnj ▸ hj)
      · exact (hlabel' _ hn).trans (Function.update_self ..)

end Visit

/-! ### Whole traversals -/

section Traversal

variable {δ : Type} [DecidableEq δ] {denote : String → δ} {v : Valuation δ} {g : FlowGraph}
  {target : Target} {relevant order visited : List BlockId} {p : Progress} {out : Outcome}

theorem Visits.unique (h : Visits g target relevant order p out)
    (h' : Visits g target relevant order p out') : out = out' := by
  induction h <;> cases h' <;> grind

theorem over_observe (htarget : IsDotted target.control) {c : Passage}
    (hs : c.store.Over g.stored Symbol.IsData) :
    ∀ t ∈ (observe target c.store [] target.observed).2, t.Over Symbol.IsData := by
  have hbound := c.keysBound target
  intro t ht
  obtain ⟨key, u, sym, hmem, hsym, rfl⟩ := hbound.term t ht
  obtain ⟨x, y, w, path, -, hw, hleaf, -⟩ := Store.mem_reported.1 hmem
  refine .mkEq (over_symbol.2 ?_) ((hs.value hw).leaves [] _ hleaf)
  rcases hbound.origin key sym hsym with h | ⟨u, -, rfl⟩
  · cases h
  · simp only [Symbol.IsData, read_observedName htarget key]

/-- A solution can be changed to one that takes a single way. -/
theorem Visits.exists_route (h : Visits g target relevant order p out) (hg : g.Named)
    (hunique : ∀ {i j : BlockId} {n : Nat}, n ∈ g.choices i → n ∈ g.choices j → i = j)
    (htarget : IsDotted target.control) (hp : p.Routed g denote v visited) (hnodup : order.Nodup)
    (hnew : ∀ i ∈ order, i ∉ visited) (hv : out.1.holds denote v = true) :
    ∃ r : Route, r.Labels g ∧ out.1.holds denote (v.along r) = true := by
  induction h generalizing visited with
  | nil => cases hv
  | @found i rest p out hvisit =>
    obtain ⟨-, c, hpass, rfl⟩ := visitBlock_inl hvisit
    obtain ⟨-, -, -, -, -, -, hstore, -⟩ := hg.over_pass (freshIn_isData hg.named)
      (joinsIn_isData hg.named i) hp.store hpass
    have hall := holds_mkAnd.1 hv
    obtain ⟨hdefs, hrest⟩ := forall_mem_append.1 hall
    obtain ⟨hcond, hequations⟩ := forall_mem_cons.1 hrest
    obtain ⟨r, hlabels, hr⟩ :=
      pass_into hg hp (hnew i mem_cons_self) hpass hdefs hcond
    obtain ⟨hcond', hdefs'⟩ := forall_mem_cons.1 (hr r (Route.goesOn_refl g visited r) rfl)
    refine ⟨r, hlabels, holds_mkAnd.2 ?_⟩
    refine forall_mem_append.2 ⟨hdefs', forall_mem_cons.2 ⟨hcond', fun t ht => ?_⟩⟩
    rw [(over_observe htarget hstore t ht).holds_along v r]
    exact hequations t ht
  | @next i rest p p' out hvisit hrest ih =>
    obtain ⟨hi, hnodup⟩ := nodup_cons.1 hnodup
    obtain ⟨hiv, hnew⟩ := forall_mem_cons.1 hnew
    refine ih (visitBlock_routed hg hunique hp hiv hvisit (hrest.holds_definitions hv)) hnodup ?_ hv
    intro j hj hmem
    rcases mem_cons.1 hmem with rfl | hmem
    · exact hi hj
    · exact hnew j hj hmem

end Traversal

namespace FlowGraph

variable {δ : Type} [DecidableEq δ] {denote : String → δ} {g : FlowGraph}

theorem NamedSite.exclusivity_along (hs : g.NamedSite s) (hne : s.labels ≠ []) (v : Valuation δ)
    {r : Route} (hr : r.Labels g) : (exclusivity s).holds denote (v.along r) = true := by
  rw [exclusivity, holds_mkOne, beq_iff_eq, TableSite.guardNames, map_map, countP_map]
  have hcount : s.labels.countP ((holds denote (v.along r)) ∘ flag ∘ s.guardName) =
      s.labels.count (r.label s.id) := by
    rw [count]
    refine countP_congr fun label _ => ?_
    simp only [Function.comp_apply, holds_flag, flag_along_guardName v r hs.table, beq_iff_eq]
    exact eq_comm
  exact hcount.trans (count_eq_one_of_mem hs.nodup (hr s.id s hs.found hne))

/-- Whether a query has a solution does not depend on whether table actions are exclusive. -/
theorem satisfiable_exclusive_iff (denote : String → δ) {p : Program} (hp : Identifiers p.names)
    {calls : Option CallGraph} {d : ControlDecl} (hd : d ∈ p.controls)
    (hok : ofControl p.globals.scope calls d = (g, [])) {t : Target} (ht : t ∈ g.targets)
    {token token' : Token} {q q' : Query} (hq : (g.generate true t token).1 = .ok q)
    (hq' : (g.generate false t token').1 = .ok q') :
    q.Satisfiable denote ↔ q'.Satisfiable denote := by
  obtain ⟨⟨b⟩, -⟩ := ofControl_built hok
  have hg : g.Named := b.named hp hd
  obtain ⟨-, hvisits, hside⟩ := generate_eq_ok hq
  obtain ⟨-, hvisits', hside'⟩ := generate_eq_ok hq'
  rw [if_pos rfl] at hside
  rw [if_neg Bool.false_ne_true] at hside'
  have hformula : q.formula = q'.formula := congrArg Prod.fst (hvisits.unique hvisits')
  constructor
  · rintro ⟨v, hv⟩
    refine ⟨v, fun u hu => ?_⟩
    rw [Query.assertions, hside', mem_singleton] at hu
    rw [hu, ← hformula]
    exact hv _ mem_cons_self
  · rintro ⟨v, hv⟩
    have hholds : q.formula.holds denote v = true := by
      rw [hformula]
      exact hv _ mem_cons_self
    obtain ⟨r, hlabels, hr⟩ := hvisits.exists_route hg (fun hi hj => b.choice_unique hp hd hi hj)
      (hg.target t ht).control (g.start_routed denote v)
      (topological_nodup fun a ha => reaching_subset_ids ha) (by simp) hholds
    refine ⟨v.along r, forall_mem_cons.2 ⟨hr, ?_⟩⟩
    rw [hside, forall_mem_map]
    exact fun s hs => (hg.site hs).1.exclusivity_along (hg.site hs).2 v hlabels

end FlowGraph

/-! ### A table with two actions -/

namespace Switch

def control : ControlDecl where
  name := "c"
  params := [⟨.inout, .bool none, "x", none⟩]
  locals := [
    .action ⟨"on", [], .mk [.assign (.var "x" none) (.bool true none) none] none, none⟩,
    .action ⟨"off", [], .mk [.assign (.var "x" none) (.bool false none) none] none, none⟩,
    .table ⟨"t", [], [⟨"on", [], none⟩, ⟨"off", [], none⟩], none, none⟩]
  body := .mk [
    .call (.var "t" none) [] none none,
    .call (.var "assert" none) [.given (.var "x" none) none none] none none] none
  loc := none

def program : Program := ⟨[.control control], ""⟩

theorem mem_controls : control ∈ program.controls := mem_cons_self

def graph : FlowGraph := (ofControl program.globals.scope none control).1

def goal : Target := graph.targets.headD ⟨"", 0, .bug, 0, "", none, []⟩

def query (exclusive : Bool) : Query :=
  match (graph.generate exclusive goal .never).1 with
  | .ok q => q
  | .error _ => ⟨goal, ff, [], [], []⟩

def solution : Valuation String where
  flag name := name ∈ ["c.t#0.on", "c.t#0.off", "c.t#0.$miss", "edge@1.1"]
  text _ := ""

theorem evaluated : Identifiers program.names ∧
    (ofControl program.globals.scope none control).2 = [] ∧
    graph.targets.isEmpty = false ∧
    (∀ exclusive, (graph.generate exclusive goal .never).1.isOk = true) ∧
    (∀ t ∈ (query false).assertions, t.holds id solution = true) ∧
    ¬ ∀ t ∈ (query true).assertions, t.holds id solution = true := by
  decide +kernel

theorem identifiers : Identifiers program.names := evaluated.1

theorem ofControl_eq : ofControl program.globals.scope none control = (graph, []) := by
  rw [graph, ← evaluated.2.1]

theorem mem_targets : goal ∈ graph.targets := headD_mem evaluated.2.2.1

theorem generate_eq (exclusive : Bool) :
    (graph.generate exclusive goal .never).1 = .ok (query exclusive) := by
  obtain ⟨q, hq⟩ := exists_ok (evaluated.2.2.2.1 exclusive)
  rw [query, hq]

end Switch

/-- A solution that takes two labels does not solve the exclusive query, but there is one that does.
-/
theorem FlowGraph.satisfiable_exclusive_iff_switch :
    (¬ ∀ t ∈ (Switch.query true).assertions, t.holds id Switch.solution = true) ∧
      (Switch.query true).Satisfiable id := by
  obtain ⟨-, -, -, -, hsolution, hnot⟩ := Switch.evaluated
  refine ⟨hnot, ?_⟩
  exact (FlowGraph.satisfiable_exclusive_iff id Switch.identifiers Switch.mem_controls
    Switch.ofControl_eq Switch.mem_targets (Switch.generate_eq true) (Switch.generate_eq false)).2
    ⟨Switch.solution, hsolution⟩

end ControlReach
