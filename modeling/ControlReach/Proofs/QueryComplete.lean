import ControlReach.Proofs.QuerySound

/-!
# Executions are solutions

An execution gives a valuation that satisfies the query: along it the unknowns have the values of
what they stand for, and away from it no edge is selected, so no definition says anything.
-/

namespace ControlReach

open List Relation FlowGraph Datum

variable {g : FlowGraph} {types : Nat → Ty} {target : Target} {v : Valuation String}
  {m : Assignment} {select : Selection}

/-! ### Drawn values -/

mutual

theorem Ty.Distinct.of_bare : ∀ {ty : Ty}, ty.bare.Distinct → ty.Distinct
  | .bool, _ | .string, _ => trivial
  | .struct _ fields, h => by
    refine ⟨?_, Ty.DistinctFields.of_bare h.2⟩
    rw [← Ty.names_bareFields]
    exact h.1

theorem Ty.DistinctFields.of_bare : ∀ {fields},
    Ty.DistinctFields (Ty.bareFields fields) → Ty.DistinctFields fields
  | [], _ => trivial
  | (_, _) :: _, h => ⟨Ty.Distinct.of_bare h.1, Ty.DistinctFields.of_bare h.2⟩

end

theorem Op.Step.exists_draw {op : Op} (h : op.Step (.free select) σ τ) :
    ∃ d : Datum, (∀ x n loc, op = .havoc x n loc → d.HasType x.ty) ∧
      ∀ v, (∀ x n loc, op = .havoc x n loc → x.drawn n v = d) → op.Step (.of select v) σ τ := by
  cases h with
  | assign hd hτ => exact ⟨default, nofun, fun _ _ => .assign hd hτ⟩
  | @havoc x n loc _ d hd =>
    refine ⟨d, ?_, fun v hv => .havoc (hv x n loc rfl).symm⟩
    rintro _ _ _ ⟨⟩
    exact hd
  | assume ht => exact ⟨default, nofun, fun _ _ => .assume ht⟩

/-- A valuation with the values that the `havoc`s of an execution store has the same execution. -/
theorem Op.Steps.exists_draws (h : Op.Steps (.free select) ops σ τ) :
    ∃ draws : Nat → Datum, (∀ k x n loc, ops[k]? = some (.havoc x n loc) → (draws k).HasType x.ty) ∧
      ∀ v, (∀ k x n loc, ops[k]? = some (.havoc x n loc) → x.drawn n v = draws k) →
        Op.Steps (.of select v) ops σ τ := by
  induction h with
  | nil => exact ⟨fun _ => default, by simp, fun v _ => .nil⟩
  | cons hstep _ ih =>
    obtain ⟨d, hd, hfirst⟩ := hstep.exists_draw
    obtain ⟨draws, htype, hsteps⟩ := ih
    refine ⟨fun k => k.casesOn d draws, fun k x n loc hk => ?_, fun v hv =>
      .cons (hfirst v fun x n loc hop => hv 0 x n loc (congrArg some hop))
        (hsteps v fun k => hv (k + 1))⟩
    cases k with
    | zero => exact hd x n loc (Option.some.inj hk)
    | succ k => exact htype k x n loc hk

theorem drawn_of_agrees {d : Datum} (hk : ops[k]? = some (.havoc x n loc)) (hd : x.ty.Distinct)
    (hty : d.HasType x.ty) (hm : ∀ path, m (.havoc i k path) = d.at? path)
    (hv : v.Agrees m (havocUnknowns i ops)) : x.drawn n v = d := by
  refine SymValue.datum_fresh x.ty (freshName x n) [] d hd hty (show d.at? [] = some d from rfl)
    fun p hp leaf hleaf hsort => ?_
  refine hv ⟨.havoc i k p.1, p.2⟩ ?_ leaf (by rw [hm]; exact hleaf) hsort
  rw [havocUnknowns, mem_flatMap]
  refine ⟨(.havoc x n loc, k), mem_zipIdx_iff_getElem?.2 hk, ?_⟩
  exact mem_map_of_mem hp

/-! ### Distinct unknowns -/

theorem Unknown.exists_agrees (h : Unknown.Distinct l) (m : Assignment) :
    ∃ v : Valuation String, v.Agrees m l := by
  classical
  have hchoice : ∀ s : Symbol, ∃ d : Datum, ∀ a ∈ l, a.symbol = s → ∀ leaf, m a.origin = some leaf →
      d = leaf := by
    intro s
    by_cases hs : ∃ a ∈ l, a.symbol = s ∧ ∃ leaf, m a.origin = some leaf
    · obtain ⟨a, ha, rfl, leaf, hleaf⟩ := hs
      refine ⟨leaf, fun b hb hsym leaf' hleaf' => ?_⟩
      rw [h b hb a ha hsym, hleaf, Option.some.injEq] at hleaf'
      exact hleaf'
    · exact ⟨default, fun a ha hsym leaf hleaf => (hs ⟨a, ha, hsym, leaf, hleaf⟩).elim⟩
  choose value hvalue using hchoice
  refine ⟨⟨fun x => ((value ⟨x, .bool⟩).bool?).getD false,
    fun x => ((value ⟨x, .string⟩).text?).getD ""⟩, fun a ha leaf hleaf hsort => ?_⟩
  have hval := hvalue a.symbol a ha rfl leaf hleaf
  obtain ⟨origin, ⟨name, sort⟩⟩ := a
  cases sort with
  | bool =>
    cases leaf with
    | bool b =>
      show bool ((value ⟨name, .bool⟩).bool?.getD false) = .bool b
      rw [hval]
      rfl
    | text | struct => simp [sort?] at hsort
  | string =>
    cases leaf with
    | text t =>
      show text ((value ⟨name, .string⟩).text?.getD "") = .text t
      rw [hval]
      rfl
    | bool | struct => simp [sort?] at hsort

/-! ### Joins -/

section Joins

variable {c : Passage} {arrivals : List Arrival}

theorem edgeUnknown_mem_joinUnknowns (h : 2 ≤ arrivals.length) (hk : k < arrivals.length) :
    edgeUnknown i k ∈ joinUnknowns i arrivals := by
  match arrivals, h with
  | first :: second :: others, _ =>
    refine mem_append_left _ (mem_map_of_mem ?_)
    exact mem_range.2 hk

theorem holds_selector (h : 2 ≤ arrivals.length) (hk : k < arrivals.length)
    (hm : m (.edge i k) = some (.bool b)) (hv : v.Agrees m (joinUnknowns i arrivals)) :
    (selector i k).holds id v = b := by
  have hdatum := hv _ (edgeUnknown_mem_joinUnknowns h hk) (.bool b) hm rfl
  exact bool.inj hdatum

theorem mem_zip_selectors (h : q ∈ (selectors i arrivals.length).zip arrivals) :
    ∃ k, k < arrivals.length ∧ q.1 = selector i k ∧ arrivals[k]? = some q.2 := by
  obtain ⟨k, hk⟩ := mem_iff_getElem?.1 h
  rw [getElem?_zip_eq_some] at hk
  obtain ⟨hsel, harr⟩ := hk
  have hlt : k < arrivals.length := (List.getElem?_eq_some_iff.1 harr).1
  refine ⟨k, hlt, ?_, harr⟩
  rw [selectors, getElem?_map, getElem?_range hlt] at hsel
  exact (Option.some.inj hsel).symm

theorem Passage.Enters.off_path (hc : c.Enters types g i p a defs new)
    (hm : ∀ k, m (.edge i k) = some (.bool false))
    (hv : v.Agrees m (joinUnknowns i (p.arrivals i))) : ∀ t ∈ defs, t.holds id v = true := by
  rcases hc.cases with ⟨-, rfl⟩ | hj
  · simp
  · refine (hj.holds_iff v).2 fun q hq hsel => ?_
    obtain ⟨k, hk, hqk, -⟩ := mem_zip_selectors hq
    rw [hqk, holds_selector hj.two_le hk (hm k) hv] at hsel
    cases hsel

/-- Where an arrival is selected, the definitions hold and the joined store describes its state. -/
theorem Passage.Enters.on_path (hc : c.Enters types g i p a defs new)
    (harr : (p.arrivals i)[k]? = some arr)
    (hedge : ∀ j, m (.edge i j) = some (.bool (decide (j = k))))
    (hjoined : ∀ uid path, m (.joined i uid path) = (σ uid).bind fun d => d.at? path)
    (hv : v.Agrees m (joinUnknowns i (p.arrivals i))) (hcond : arr.condition.holds id v = true)
    (hσ : arr.store.Describes v σ) :
    (∀ t ∈ defs, t.holds id v = true) ∧ a.condition.holds id v = true ∧ a.store.Describes v σ := by
  have hmem := mem_of_getElem? harr
  rcases hc.cases with ⟨hone, rfl⟩ | hj
  · rw [hone, mem_singleton] at hmem
    exact ⟨by simp, hmem ▸ hcond, hmem ▸ hσ⟩
  · have hstore := hj.determined v m σ hjoined hv arr hmem hσ
    have hlt : k < (p.arrivals i).length := (List.getElem?_eq_some_iff.1 harr).1
    refine ⟨(hj.holds_iff v).2 fun q hq hsel => ?_, ?_, hstore⟩
    · obtain ⟨j, hjlt, hqj, hqarr⟩ := mem_zip_selectors hq
      rw [hqj, holds_selector hj.two_le hjlt (hedge j) hv, decide_eq_true_iff] at hsel
      subst hsel
      obtain rfl : arr = q.2 := Option.some.inj (harr.symm.trans hqarr)
      exact ⟨hcond, hstore.matches hσ (hj.held _ hmem)⟩
    · rw [hj.condition, Term.holds_mkOr]
      refine ⟨selector i k, mem_map_of_mem (mem_range.2 hlt), ?_⟩
      rw [holds_selector hj.two_le hlt (hedge k) hv, decide_eq_true_iff]

end Joins

/-! ### Guards -/

def FlowGraph.guardValue (g : FlowGraph) (select : Selection) (n k : Nat) : Option Datum :=
  (g.site? n).bind fun s => s.labels[k]?.map fun label => .bool (select n label)

theorem flag_of_agrees {guard : Nat × String × String} (hs : g.site? guard.1 = some s)
    (hlabel : guard.2.1 ∈ s.labels) (hm : ∀ n k, m (.guard n k) = g.guardValue select n k)
    (hv : v.Agrees m [g.guardUnknown guard]) : select guard.1 guard.2.1 = v.flag guard.2.2 := by
  have hidx : s.labels[s.labels.idxOf guard.2.1]? = some guard.2.1 := by
    rw [List.getElem?_eq_some_iff]
    exact ⟨idxOf_lt_length_of_mem hlabel, getElem_idxOf _⟩
  have hdatum := hv _ mem_cons_self (.bool (select guard.1 guard.2.1)) (by
    simp [guardUnknown, hs, hm, guardValue, hidx]) rfl
  exact (bool.inj hdatum).symm

section Guards

variable (hg : g.WellTyped types) (hm : ∀ n k, m (.guard n k) = g.guardValue select n k)
  (hv : v.Agrees m ((g.guardsRead target relevant i).map g.guardUnknown))

include hg hm hv

theorem ops_selected_of_agrees : ∀ op ∈ g.opsOf i, op.Selected select v := by
  intro op hop guard hguard
  have hmem : guard ∈ g.guardsRead target relevant i :=
    mem_append_left _ (mem_flatMap.2 ⟨op, hop, hguard⟩)
  have hv : v.Agrees m [g.guardUnknown guard] :=
    hv.mono (by simpa using ⟨guard.1, guard.2.1, guard.2.2, hmem, rfl⟩)
  have hwt := hg.opsOf i op hop
  cases op with
  | assign x path e loc =>
    obtain ⟨-, ty, -, hty⟩ := hwt
    obtain ⟨s, hs, hlabel, -⟩ := Rvalue.guards_spec e ty hty guard hguard
    exact flag_of_agrees hs hlabel hm hv
  | havoc => simp [Op.guards] at hguard
  | assume e loc =>
    obtain ⟨s, hs, hlabel, -⟩ := Rvalue.guards_spec e _ hwt guard hguard
    exact flag_of_agrees hs hlabel hm hv

theorem edge_selected_of_agrees (hi : i ≠ target.block) (he : e ∈ g.edgesOf i)
    (hrel : e.target ∈ relevant) : e.Selected select v := by
  intro guard hguard p hp
  have hmem : p ∈ g.guardsRead target relevant i := by
    refine mem_append_right _ ?_
    rw [if_neg hi, mem_flatMap]
    exact ⟨e, by simpa using ⟨he, hrel⟩, by simpa [hguard] using hp⟩
  obtain ⟨s, hs, hlabel, -⟩ :=
    Rvalue.guards_spec guard _ (hg.guardsOf i e he guard hguard) p hp
  exact flag_of_agrees hs hlabel hm
    (hv.mono (by simpa using ⟨p.1, p.2.1, p.2.2, hmem, rfl⟩))

end Guards

/-! ### Paths -/

namespace FlowGraph

theorem successor_of_move (h : g.Move o a b) : b.1 ∈ g.successors a.1 := by
  cases h with
  | mk hb _ _ he _ =>
    rw [successors, edgesOf_of_block hb]
    exact mem_map_of_mem he

theorem move_spec (h : g.Move o (i, σ) (j, τ)) :
    ∃ e ∈ g.edgesOf i, e.target = j ∧ e.Open o.select τ ∧ Op.Steps o (g.opsOf i) σ τ := by
  cases h with
  | mk hb hsteps _ he hopen =>
    refine ⟨_, ?_, rfl, hopen, ?_⟩
    · rw [edgesOf_of_block hb]
      exact he
    · rw [opsOf, hb]
      exact hsteps

theorem path_of_moves (h : ReflTransGen (g.Move o) a b) : g.Walk a.1 b.1 :=
  h.lift Prod.fst fun _ _ hm => successor_of_move hm

theorem mem_of_path {relevant order : List BlockId}
    (hsucc : ∀ before i after, order = before ++ i :: after → ∀ j ∈ g.successors i,
      j ∈ relevant → j ∈ after) {b : BlockId}
    (hrel : ∀ i, g.Walk i t → i ∈ relevant)
    (h : g.Walk b t) (hb : b ∈ order) : t ∈ order := by
  induction h using ReflTransGen.head_induction_on with
  | refl => exact hb
  | @head i j hij hjt ih =>
    obtain ⟨before, after, rfl⟩ := append_of_mem hb
    have hj := hsucc before i after rfl j hij (hrel j hjt)
    exact ih (by simp [hj])

end FlowGraph

/-! ### Values along an execution -/

namespace Assignment

/-- The values at a block away from the execution: no edge into it is selected. -/
def away : Assignment
  | .edge _ _ => some (.bool false)
  | _ => none

/-- The values at a block that is entered in state `σ` along edge `k`. -/
def along (σ : State) (k : Nat) (draws : Nat → Datum) : Assignment
  | .edge _ j => some (.bool (decide (j = k)))
  | .joined _ uid path => (σ uid).bind fun d => d.at? path
  | .havoc _ position path => (draws position).at? path
  | _ => none

def extend (m : Assignment) (i : BlockId) (here : Assignment) : Assignment := fun o =>
  if o.block? = some i then here o else m o

theorem extend_of_block {o : Origin} (h : o.block? = some i) : m.extend i here o = here o :=
  if_pos h

theorem extend_of_ne {o : Origin} (h : o.block? ≠ some i) : m.extend i here o = m o := if_neg h

theorem agrees_of_extend (hi : i ∉ rest)
    (hv : v.Agrees (m.extend i here) (g.unknownsFrom target relevant rest p)) :
    v.Agrees m (g.unknownsFrom target relevant rest p) := by
  intro a ha leaf hleaf
  refine hv a ha leaf ?_
  rwa [extend_of_ne fun hblock => hi (block?_unknownsFrom ha hblock)]

end Assignment

/-- An execution goes on from the start of a block to the end of the block `t`. -/
def FlowGraph.Completes (g : FlowGraph) (select : Selection) (t : BlockId) (b : BlockId)
    (σ τ : State) : Prop :=
  ∃ ρ, ReflTransGen (g.Move (.free select)) (b, σ) (t, ρ) ∧
    Op.Steps (.free select) (g.opsOf t) ρ τ

section Suffix

variable {relevant : List BlockId} {i : BlockId} {p : Progress} {out : Outcome}

/-- The last passage satisfies its formula and describes the end of the execution. -/
def Reached (g : FlowGraph) (types : Nat → Ty) (target : Target) (relevant order : List BlockId)
    (p : Progress) (out : Outcome) (v : Valuation String) (τ : State) : Prop :=
  ∃ c, (g.passages relevant order p).lookup target.block = some c ∧ out = c.outcome target ∧
    (∀ t ∈ c.definitions, t.holds id v = true) ∧ c.condition.holds id v = true ∧
    c.store.Typed types ∧ c.store.Describes v τ

variable {σ τ : State} {c : Passage} {k : Nat} {arr : Arrival}

theorem Reached.next (hvisit : visitBlock g target relevant i p = .ok (.inr p'))
    (h : Reached g types target relevant rest p' out v τ) :
    Reached g types target relevant (i :: rest) p out v τ := by
  obtain ⟨c, hlast, hc⟩ := h
  exact ⟨c, (lookup_passages_inr hvisit).trans hlast, hc⟩

theorem unknownsFrom_next (hvisit : visitBlock g target relevant i p = .ok (.inr p')) :
    g.unknownsFrom target relevant (i :: rest) p =
      g.unknownsAt target relevant i p ++ g.unknownsFrom target relevant rest p' := by
  rw [unknownsFrom, hvisit]

theorem unknownsAt_of_pass (hpass : g.pass i p = .ok (some c)) :
    g.unknownsAt target relevant i p = joinUnknowns i (p.arrivals i) ++ havocUnknowns i (g.opsOf i) ++
      (g.guardsRead target relevant i).map g.guardUnknown := by
  rw [unknownsAt, hpass]

/-- With the values of the execution the definitions and the condition of a block hold. -/
theorem pass_along (target : Target) (relevant : List BlockId) (hg : g.WellTyped types)
    (hp : p.Typed types) (hpass : g.pass i p = .ok (some c)) (harr : (p.arrivals i)[k]? = some arr)
    (hsteps : Op.Steps (.free select) (g.opsOf i) σ τ) :
    ∃ draws, ∀ m v, (∀ o : Origin, o.block? = some i → m o = Assignment.along σ k draws o) →
      (∀ n k, m (.guard n k) = g.guardValue select n k) →
      v.Agrees m (g.unknownsAt target relevant i p) → (∀ t ∈ p.definitions, t.holds id v = true) →
      arr.condition.holds id v = true → arr.store.Describes v σ →
      (∀ t ∈ c.definitions, t.holds id v = true) ∧ c.condition.holds id v = true ∧
        c.store.Describes v τ := by
  obtain ⟨a, defs, new, hc⟩ := pass_spec hg hp hpass
  obtain ⟨draws, htype, hdraws⟩ := hsteps.exists_draws
  refine ⟨draws, fun m v hhere hguard hv hdefs hcond hσ => ?_⟩
  rw [unknownsAt_of_pass hpass] at hv
  obtain ⟨hv, hvguard⟩ := forall_mem_append.1 hv
  obtain ⟨hvjoin, hvhavoc⟩ := forall_mem_append.1 hv
  obtain ⟨hnew, ha, hstore⟩ := hc.on_path harr (fun j => hhere (.edge i j) rfl)
    (fun uid path => hhere (.joined i uid path) rfl) hvjoin hcond hσ
  have hsteps : Op.Steps (.of select v) (g.opsOf i) σ τ := by
    refine hdraws v fun j x n loc hj => ?_
    have hx : types x.uid = x.ty.bare := hg.opsOf i _ (mem_of_getElem? hj)
    exact drawn_of_agrees hj (.of_bare (hx ▸ hg.distinct x.uid)) (htype j x n loc hj)
      (fun path => hhere (.havoc i j path) rfl) hvhavoc
  obtain ⟨hassumed, hτ⟩ := hc.faithful.describes hstore
    (ops_selected_of_agrees hg hguard hvguard) hsteps
  refine ⟨?_, (hc.holds_condition_iff v).2 ⟨ha, hassumed⟩, hτ⟩
  rw [hc.definitions]
  exact forall_mem_append.2 ⟨hdefs, hnew⟩

section

variable (hg : g.WellTyped types) (hp : p.Typed types) (hpass : g.pass i p = .ok (some c))

include hg hp hpass

/-- A block away from the execution: with no edge selected its definitions hold. -/
theorem pass_away (hhere : ∀ k, m (.edge i k) = some (.bool false))
    (hv : v.Agrees m (g.unknownsAt target relevant i p))
    (hdefs : ∀ t ∈ p.definitions, t.holds id v = true) :
    ∀ t ∈ c.definitions, t.holds id v = true := by
  obtain ⟨a, defs, new, hc⟩ := pass_spec hg hp hpass
  rw [unknownsAt_of_pass hpass] at hv
  obtain ⟨hv, -⟩ := forall_mem_append.1 hv
  rw [hc.definitions]
  exact forall_mem_append.2 ⟨hdefs, hc.off_path hhere (forall_mem_append.1 hv).1⟩

theorem pass_typed : c.store.Typed types := by
  obtain ⟨a, defs, new, hc⟩ := pass_spec hg hp hpass
  exact hc.faithful.typed

/-- With the values of the execution, what comes in along its edge holds. -/
theorem follow_along (hvisit : visitBlock g target relevant i p = .ok (.inr p')) (hi : i ∉ rest)
    (hne : i ≠ target.block) (hsame : p'.definitions = c.definitions)
    (harr : (p.arrivals i)[k]? = some arr) (hsteps : Op.Steps (.free select) (g.opsOf i) σ τ)
    (he : e ∈ g.edgesOf i) (hrel : e.target ∈ relevant) (ht : e.condition c.store = .ok t)
    (hopen : e.Open select τ) :
    ∃ draws, ∀ m : Assignment, (∀ n l, m (.guard n l) = g.guardValue select n l) → ∀ v,
      v.Agrees (m.extend i (.along σ k draws)) (g.unknownsFrom target relevant (i :: rest) p) →
      (∀ t ∈ p.definitions, t.holds id v = true) → arr.condition.holds id v = true →
      arr.store.Describes v σ → v.Agrees m (g.unknownsFrom target relevant rest p') ∧
        (∀ t ∈ p'.definitions, t.holds id v = true) ∧
        (Term.mkAnd [c.condition, t]).holds id v = true ∧ t.holds id v = true ∧
        c.store.Describes v τ := by
  obtain ⟨draws, hpassed⟩ := pass_along target relevant hg hp hpass harr hsteps
  refine ⟨draws, fun m hm v hv hdefs hcond hσ => ?_⟩
  rw [unknownsFrom_next hvisit] at hv
  obtain ⟨hhere, hthere⟩ := forall_mem_append.1 hv
  have hguard : ∀ n l, m.extend i (.along σ k draws) (.guard n l) = g.guardValue select n l :=
    fun n l => by rw [Assignment.extend_of_ne (by simp [Origin.block?]), hm]
  obtain ⟨hdefs, hcond, hτ⟩ := hpassed _ v (fun o ho => Assignment.extend_of_block ho) hguard hhere
    hdefs hcond hσ
  rw [unknownsAt_of_pass hpass] at hhere
  have hsel := edge_selected_of_agrees hg hguard (forall_mem_append.1 hhere).2 hne he hrel
  obtain ⟨-, hholds⟩ := Edge.condition_spec hg.distinct (pass_typed hg hp hpass)
    (hg.guardsOf i e he) ht
  have ht := (hholds v τ select hτ hsel).2 hopen
  refine ⟨Assignment.agrees_of_extend hi hthere, hsame ▸ hdefs, ?_, ht, hτ⟩
  rw [Term.holds_mkAnd_pair, hcond, ht]
  rfl

end

/-- **The values along the rest of an execution** about to enter the block `b`; it waits there while
other blocks are visited. -/
theorem Visits.exists_assignment (hg : g.WellTyped types) (hacyclic : g.Acyclic)
    (hrel : ∀ i, g.Walk i target.block → i ∈ relevant)
    (base : Assignment) (hbase : ∀ n k, base (.guard n k) = g.guardValue select n k)
    (h : Visits g target relevant order p out) (hp : p.Typed types) (hnodup : order.Nodup)
    (hsucc : ∀ before i after, order = before ++ i :: after → ∀ j ∈ g.successors i,
      j ∈ relevant → j ∈ after) {b : BlockId} (hb : b ∈ order)
    (harr : (p.arrivals b)[k]? = some arr) (hrun : g.Completes select target.block b σ τ) :
    ∃ m : Assignment, (∀ o : Origin, o.block? = none → m o = base o) ∧
      ∀ v, v.Agrees m (g.unknownsFrom target relevant order p) →
        (∀ t ∈ p.definitions, t.holds id v = true) → arr.condition.holds id v = true →
        arr.store.Describes v σ → Reached g types target relevant order p out v τ := by
  induction h generalizing b σ k arr with
  | nil => cases hb
  | @found i rest p out hvisit =>
    obtain ⟨rfl, c, hpass, rfl⟩ := visitBlock_inl hvisit
    obtain ⟨ρ, hmoves, hsteps⟩ := hrun
    have hhead : b = target.block := by
      refine (mem_cons.1 hb).resolve_right fun hb => (nodup_cons.1 hnodup).1 ?_
      refine mem_of_path (fun before i after h => ?_) hrel
        (path_of_moves hmoves) hb
      exact hsucc (target.block :: before) i after (by rw [h]; rfl)
    subst hhead
    -- no cycle leads back to the error location, so the execution is at its last block
    obtain rfl : σ = ρ := by
      rcases hmoves.cases_head with h | ⟨next, hmove, hmoves⟩
      · exact congrArg Prod.snd h
      · exact absurd (TransGen.head' (successor_of_move hmove)
          (path_of_moves hmoves)) (hacyclic _)
    obtain ⟨draws, hpassed⟩ := pass_along target relevant hg hp hpass harr hsteps
    refine ⟨base.extend target.block (.along σ k draws), fun o ho => ?_,
      fun v hv hdefs hcond hσ => ?_⟩
    · exact Assignment.extend_of_ne (by rw [ho]; simp)
    · obtain ⟨hv, -⟩ := forall_mem_append.1 hv
      obtain ⟨hdefs, hcond, hτ⟩ := hpassed _ v (fun o ho => Assignment.extend_of_block ho)
        (fun n k => hbase n k) hv hdefs hcond hσ
      exact ⟨c, lookup_passages_self hpass, rfl, hdefs, hcond, pass_typed hg hp hpass, hτ⟩
  | @next i rest p p' out hvisit hrest ih =>
    obtain ⟨hi, hnodup'⟩ := nodup_cons.1 hnodup
    have hp' := visitBlock_typed hg hp hvisit
    have hafter := hsucc [] i rest rfl
    have hsucc' : ∀ before j after, rest = before ++ j :: after → ∀ l ∈ g.successors j,
        l ∈ relevant → l ∈ after := fun before j after h =>
      hsucc (i :: before) j after (by rw [h]; rfl)
    rcases visitBlock_inr hvisit with ⟨hnone, rfl⟩ | ⟨hne, c, hpass, hfollow⟩
    · have hb : b ∈ rest := by
        refine (mem_cons.1 hb).resolve_left ?_
        rintro rfl
        rw [pass_eq_none hnone] at harr
        cases harr
      obtain ⟨m, hm, hreach⟩ := ih hp hnodup' hsucc' hb harr hrun
      refine ⟨m, hm, fun v hv hdefs hcond hσ => .next hvisit (hreach v ?_ hdefs hcond hσ)⟩
      rw [unknownsFrom_next hvisit] at hv
      exact (forall_mem_append.1 hv).2
    · obtain ⟨hsame, hok, harrive⟩ := follow_spec hfollow
      have hsame : p'.definitions = c.definitions := hsame
      rcases mem_cons.1 hb with rfl | hb
      · -- the execution runs this block and goes on along one of its edges
        obtain ⟨ρ, hmoves, hlast⟩ := hrun
        rcases hmoves.cases_head with h | ⟨⟨j, σ'⟩, hmove, hmoves⟩
        · exact absurd (congrArg Prod.fst h) hne
        · have hjrel := hrel j (path_of_moves hmoves)
          have hj : j ∈ rest := hafter j (successor_of_move hmove) hjrel
          obtain ⟨e, he, rfl, hopen, hsteps⟩ := move_spec hmove
          obtain ⟨t, ht⟩ := hok e he hjrel
          obtain ⟨draws, hgo⟩ := follow_along hg hp hpass hvisit hi hne hsame harr hsteps he hjrel ht
            hopen
          by_cases hff : t = Term.ff
          · -- an edge that is never open is not followed, and no valuation comes this far
            refine ⟨base.extend b (.along σ k draws), fun o ho => ?_, fun v hv hdefs hcond hσ => ?_⟩
            · exact Assignment.extend_of_ne (by rw [ho]; simp)
            · have ht := (hgo base hbase v hv hdefs hcond hσ).2.2.2.1
              simp [hff, Term.holds] at ht
          · obtain ⟨more, hmore, hmem⟩ := harrive e.target
            have hnew := (hmem _).2 ⟨e, he, rfl, hjrel, t, ht, hff, rfl⟩
            obtain ⟨l, hl⟩ := mem_iff_getElem?.1 (mem_append_right (p.arrivals e.target) hnew)
            have hl : (p'.arrivals e.target)[l]? = some ⟨Term.mkAnd [c.condition, t], c.store⟩ := by
              rw [hmore]
              exact hl
            obtain ⟨m, hm, hreach⟩ := ih hp' hnodup' hsucc' hj hl ⟨ρ, hmoves, hlast⟩
            refine ⟨m.extend b (.along σ k draws), fun o ho => ?_, fun v hv hdefs hcond hσ => ?_⟩
            · rw [Assignment.extend_of_ne (by rw [ho]; simp), hm o ho]
            · obtain ⟨hv, hdefs, hcond, -, hσ'⟩ := hgo m
                (fun n l => (hm _ rfl).trans (hbase n l)) v hv hdefs hcond hσ
              exact .next hvisit (hreach v hv hdefs hcond hσ')
      · -- the execution waits at a later block
        obtain ⟨more, hmore, -⟩ := harrive b
        have harr' : (p'.arrivals b)[k]? = some arr := by
          rw [hmore]
          exact (getElem?_append_left (List.getElem?_eq_some_iff.1 harr).1).trans harr
        obtain ⟨m, hm, hreach⟩ := ih hp' hnodup' hsucc' hb harr' hrun
        refine ⟨m.extend i .away, fun o ho => ?_, fun v hv hdefs hcond hσ => ?_⟩
        · rw [Assignment.extend_of_ne (by rw [ho]; simp), hm o ho]
        · rw [unknownsFrom_next hvisit] at hv
          obtain ⟨hhere, hthere⟩ := forall_mem_append.1 hv
          have hdefs := pass_away hg hp hpass (fun k => Assignment.extend_of_block rfl) hhere hdefs
          rw [← hsame] at hdefs
          exact .next hvisit (hreach v (Assignment.agrees_of_extend hi hthere) hdefs hcond hσ)

end Suffix

/-! ### The solution -/

/-- Leaves of held variables that are observed under one key have one value. -/
def FlowGraph.KeysAgree (g : FlowGraph) (target : Target) (σ : State) : Prop :=
  ∀ x y d path leaf x' y' d' path' leaf', (x, y) ∈ target.observed → y.uid ∈ g.held target →
    σ y.uid = some d → (path, leaf) ∈ d.leaves [] → (x', y') ∈ target.observed →
    y'.uid ∈ g.held target → σ y'.uid = some d' → (path', leaf') ∈ d'.leaves [] →
    observationKey x path = observationKey x' path' → leaf = leaf'

variable {σ : State} {s : TableSite}

theorem FlowGraph.Observed.keysAgree (h : g.Observed target observations v σ) :
    g.KeysAgree target σ := by
  intro x y d path leaf x' y' d' path' leaf' hxy hy hd hleaf hxy' hy' hd' hleaf' hkey
  obtain ⟨_, hd₁, hleaves⟩ := h.leaf x y hxy hy
  obtain ⟨_, hd₂, hleaves'⟩ := h.leaf x' y' hxy' hy'
  obtain rfl := Option.some.inj (hd.symm.trans hd₁)
  obtain rfl := Option.some.inj (hd'.symm.trans hd₂)
  obtain ⟨sym, hsym, rfl⟩ := hleaves path leaf hleaf
  obtain ⟨sym', hsym', rfl⟩ := hleaves' path' leaf' hleaf'
  rw [hkey, hsym', Option.some.injEq] at hsym
  rw [hsym]

def FlowGraph.KeyValue (g : FlowGraph) (target : Target) (σ : State) (key : String)
    (leaf : Datum) : Prop :=
  ∃ x y d path, (x, y) ∈ target.observed ∧ y.uid ∈ g.held target ∧ σ y.uid = some d ∧
    (path, leaf) ∈ d.leaves [] ∧ observationKey x path = key

open Classical in
noncomputable def Assignment.base (g : FlowGraph) (target : Target) (select : Selection)
    (σ : State) : Assignment
  | .guard n k => g.guardValue select n k
  | .observed key =>
    if h : ∃ leaf, g.KeyValue target σ key leaf then some h.choose else none
  | _ => none

theorem Assignment.base_observed (hkeys : g.KeysAgree target σ) (h : g.KeyValue target σ key leaf) :
    Assignment.base g target select σ (.observed key) = some leaf := by
  have hex : ∃ leaf, g.KeyValue target σ key leaf := ⟨leaf, h⟩
  rw [Assignment.base, dif_pos hex, Option.some.injEq]
  obtain ⟨x, y, d, path, hxy, hy, hd, hleaf, hkey⟩ := hex.choose_spec
  obtain ⟨x', y', d', path', hxy', hy', hd', hleaf', hkey'⟩ := h
  exact hkeys x y d path _ x' y' d' path' leaf hxy hy hd hleaf hxy' hy' hd' hleaf'
    (hkey.trans hkey'.symm)

theorem Passage.datum_of_agrees {c : Passage} (hheld : g.held target = c.store.map Prod.fst)
    (hσ : c.store.Describes v σ)
    (hm : ∀ key leaf, g.KeyValue target σ key leaf → m (.observed key) = some leaf)
    (hv : v.Agrees m ((c.outcome target).2.map fun p => ⟨.observed p.1, p.2⟩))
    (ht : (key, t) ∈ c.store.reported target.observed)
    (hsym : (c.outcome target).2.lookup key = some sym) :
    sym.sort = t.sort ∧ (Term.symbol sym).datum v = t.datum v := by
  have hvalue : ∀ t, (key, t) ∈ c.store.reported target.observed →
      m (.observed key) = some (t.datum v) := by
    intro t ht
    obtain ⟨x, y, w, path, hxy, hw, hleaf, hkey⟩ := Store.mem_reported.1 ht
    obtain ⟨z, hz⟩ := Store.mem_of_value hw
    refine hm key _ ⟨x, y, _, path, hxy, ?_, hσ.value hw, ?_, hkey.symm⟩
    · rw [hheld]
      exact mem_map_of_mem hz
    · rw [SymValue.leaves_datum]
      exact mem_map_of_mem hleaf
  have hb := c.keysBound target
  obtain ⟨t₀, ht₀, rfl⟩ := (hb.origin key sym hsym).resolve_left (by simp)
  have hsame : t₀.datum v = t.datum v :=
    Option.some.inj ((hvalue t₀ ht₀).symm.trans (hvalue t ht))
  have hsort : t₀.sort = t.sort := by
    have := congrArg sort? hsame
    rw [Term.sort?_datum, Term.sort?_datum] at this
    exact Option.some.inj this
  refine ⟨hsort, ?_⟩
  refine hv _ (mem_map_of_mem (Assoc.mem_of_lookup hsym)) _ (hvalue t ht) ?_
  rw [Term.sort?_datum, hsort]

theorem FlowGraph.mem_siteUnknowns (h : s.labels[k]? = some label) :
    ⟨.guard s.id k, ⟨s.guardName label, .bool⟩⟩ ∈ siteUnknowns s :=
  mem_map.2 ⟨(label, k), mem_zipIdx_iff_getElem?.2 h, rfl⟩

/-- A site whose labels have different unknowns does not repeat a label. -/
theorem FlowGraph.labels_nodup (h : Unknown.Distinct (siteUnknowns s)) : s.labels.Nodup := by
  rw [Nodup, pairwise_iff_getElem]
  intro i j hi hj hij heq
  have hsame := h _ (mem_siteUnknowns (getElem?_eq_getElem hi)) _
    (mem_siteUnknowns (getElem?_eq_getElem hj)) (by rw [heq])
  have : i = j := (Origin.guard.inj hsame).2
  omega

theorem TableSite.Decided.countP (h : s.Decided select) (hn : s.labels.Nodup) :
    s.labels.countP (select s.id) = 1 := by
  obtain ⟨label, hlabel, hunique⟩ := h
  rw [countP_eq_length_filter]
  have hperm : Perm (s.labels.filter (select s.id)) [label] := by
    rw [perm_ext_iff_of_nodup (hn.filter _) (nodup_singleton label)]
    intro l
    rw [mem_filter, mem_singleton]
    exact ⟨hunique l, fun h => h ▸ hlabel⟩
  rw [hperm.length_eq, length_singleton]

/-- The constraint of a site holds if exactly one of its labels is selected. -/
theorem FlowGraph.exclusivity_of_agrees (hs : g.site? n = some s) (hdecided : s.Decided select)
    (hm : ∀ n k, m (.guard n k) = g.guardValue select n k)
    (hdistinct : Unknown.Distinct (siteUnknowns s)) (hv : v.Agrees m (siteUnknowns s)) :
    (exclusivity s).holds id v = true := by
  have hflag : ∀ label ∈ s.labels, v.flag (s.guardName label) = select s.id label := by
    intro label hlabel
    obtain ⟨k, hk⟩ := mem_iff_getElem?.1 hlabel
    have hvalue : m (.guard s.id k) = some (.bool (select s.id label)) := by
      rw [hm, guardValue, id_of_site hs, hs, Option.bind_some, hk, Option.map_some]
    exact bool.inj (hv _ (mem_siteUnknowns hk) _ hvalue rfl)
  rw [exclusivity, Term.holds_mkOne, beq_iff_eq, TableSite.guardNames, List.map_map,
    countP_map, ← hdecided.countP (labels_nodup hdistinct)]
  refine countP_congr fun label hlabel => ?_
  simp [hflag label hlabel]

theorem FlowGraph.site_of_mem_sitesIn (h : s ∈ g.sitesIn within) : ∃ n, g.site? n = some s := by
  rw [sitesIn, mem_filterMap] at h
  obtain ⟨n, -, hn⟩ := h
  exact ⟨n, hn⟩

/-- **Executions are solutions, if the keys agree**: leaves observed under one key must have one
value at the end. -/
theorem FlowGraph.exists_solution_iff_keysAgree {exclusive : Bool} {token : Token} {q : Query}
    {σ : State} (hg : g.WellTyped types) (hacyclic : g.Acyclic) (hcons : g.Consistent)
    (hq : (g.generate exclusive target token).1 = .ok q)
    (hdistinct : Unknown.Distinct (g.unknowns target q))
    (hsites : ∀ s ∈ g.sites, s.Decided select)
    (hrun : g.Ends (.free select) target.block σ) :
    (∃ v : Valuation String, (∀ a ∈ q.assertions, a.holds id v = true) ∧
      g.Observed target q.observations v σ) ↔ g.KeysAgree target σ := by
  refine ⟨fun ⟨_, _, hobs⟩ => hobs.keysAgree, fun hkeys => ?_⟩
  obtain ⟨hblock, hvisits, hside⟩ := generate_eq_ok hq
  have hwithin : ∀ i ∈ g.reaching target.block, i ∈ g.ids := fun i hi => reaching_subset_ids hi
  have hrel : ∀ i, ReflTransGen (Search.Edge g.successors) i target.block →
      i ∈ g.reaching target.block := fun i => (mem_reaching_iff_path hcons hblock).2
  obtain ⟨b, ρ, hmoves, hb, hsteps⟩ := hrun
  have hentry : g.entry ∈ g.reaching target.block := hrel _ (path_of_moves hmoves)
  have hcomplete : g.Completes select target.block g.entry State.empty σ := by
    refine ⟨ρ, hmoves, ?_⟩
    rw [opsOf, hb]
    exact hsteps
  have hstart : (g.start.arrivals g.entry)[0]? = some ⟨Term.tt, []⟩ := by
    simp [start, Progress.arrivals]
  obtain ⟨m, hm, hreach⟩ := hvisits.exists_assignment hg hacyclic hrel
    (Assignment.base g target select σ) (fun _ _ => rfl) (g.start_typed types)
    (topological_nodup hwithin)
    (fun _ _ _ h _ hj hjw => topological_ordered hwithin (fun a _ => hacyclic a) h hj hjw)
    ((mem_topological_iff hwithin).2 ⟨hentry, .refl⟩) hstart hcomplete
  obtain ⟨v, hv⟩ := Unknown.exists_agrees hdistinct m
  obtain ⟨hv, hvobs⟩ := forall_mem_append.1 hv
  obtain ⟨hvfrom, hvsites⟩ := forall_mem_append.1 hv
  obtain ⟨c, hlast, hout, hdefs, hcond, hty, hσ⟩ := hreach v hvfrom (by simp [start])
    (by simp [Term.holds]) (Store.describes_nil v _)
  have hobs : q.observations = (c.outcome target).2 := congrArg Prod.snd hout
  have hheld := held_of_passage? hlast
  rw [hobs] at hvobs
  have hdatum : ∀ key t sym, (key, t) ∈ c.store.reported target.observed →
      (c.outcome target).2.lookup key = some sym →
      sym.sort = t.sort ∧ (Term.symbol sym).datum v = t.datum v := fun key t sym ht hsym =>
    Passage.datum_of_agrees hheld hσ
      (fun key leaf hleaf => (hm _ rfl).trans (Assignment.base_observed hkeys hleaf)) hvobs ht hsym
  refine ⟨v, forall_mem_cons.2 ⟨?_, ?_⟩, ?_⟩
  · have hformula : q.formula = (c.outcome target).1 := congrArg Prod.fst hout
    rw [hformula]
    refine Term.holds_mkAnd.2 (forall_mem_append.2 ⟨hdefs,
      forall_mem_cons.2 ⟨hcond, fun eq heq => ?_⟩⟩)
    have hkeysBound := bindKeys_spec target [] (c.store.reported target.observed)
    rw [← observe_eq_bindKeys] at hkeysBound
    obtain ⟨key, t, sym, ht, hsym, rfl⟩ := hkeysBound.term eq heq
    obtain ⟨hsort, hsame⟩ := hdatum key t sym ht hsym
    have hsort : (Term.symbol sym).sort = t.sort := hsort
    exact (Term.holds_mkEq_iff hsort).2 hsame
  · rw [hside]
    split
    · rw [forall_mem_map]
      intro s hs
      obtain ⟨n, hn⟩ := site_of_mem_sitesIn hs
      have hsub : ∀ a ∈ siteUnknowns s, a ∈ (g.sitesIn (g.reaching target.block)).flatMap siteUnknowns :=
        fun a ha => mem_flatMap.2 ⟨s, hs, ha⟩
      refine exclusivity_of_agrees hn (hsites s (mem_of_find?_eq_some hn))
        (fun n k => hm (.guard n k) rfl) ?_ fun a ha => hvsites a (hsub a ha)
      intro a ha b hb
      refine hdistinct a ?_ b ?_
      · simp [unknowns, mem_flatMap.1 (hsub a ha)]
      · simp [unknowns, mem_flatMap.1 (hsub b hb)]
    · simp
  · rw [hobs]
    exact c.observed_of_datum hheld hty hσ fun key t sym ht hsym => (hdatum key t sym ht hsym).2

namespace Fork

theorem acyclic : graph.Acyclic := acyclic_of_lt (by decide)

theorem consistent : graph.Consistent := consistent_of_forall (by decide) (by decide)

def selection : Selection := fun _ label => label == "a"

theorem decided : ∀ s ∈ graph.sites, s.Decided selection := by
  simp [graph, site, TableSite.Decided, selection, ExistsUnique]

def final : State :=
  ((State.empty.put (flag 0 "x") (.bool false)).put (flag 1 "y") (.bool false)).put (flag 1 "y")
    (.bool true)

theorem ends : graph.Ends (.free selection) goal.block final := by
  have hsite : ∀ n s, graph.site? n = some s → s.Decided selection := fun n s hs =>
    decided s (mem_of_find?_eq_some hs)
  have hx : (Oracle.free selection).draws (flag 0 "x") 0 (.bool false) := trivial
  have hy : (Oracle.free selection).draws (flag 1 "y") 1 (.bool false) := trivial
  refine ⟨⟨4, "bug", [], [], [3], some goal⟩, final, ?_, rfl, .nil⟩
  refine .head (.mk rfl (.cons (.havoc hx) (.cons (.havoc hy) .nil)) (fun _ _ => hsite _)
    (.head _) ?_) <| .head (.mk rfl (.cons (.assign rfl rfl) .nil) (fun _ _ => hsite _) (.head _) ?_)
    <| .head (.mk rfl (.cons (.assume rfl) .nil) (fun _ _ => hsite _) (.head _) ?_) .refl
  · rintro _ ⟨⟩
    rfl
  · rintro _ ⟨⟩
  · rintro _ ⟨⟩

theorem keysAgree : graph.KeysAgree goal final := by
  intro x y d path leaf x' y' d' path' leaf' hxy _ hd hleaf hxy' _ hd' hleaf' hkey
  have hne : observationKey "x" [] ≠ observationKey "y" [] := by decide
  simp only [goal, mem_cons, Prod.mk.injEq, not_mem_nil, or_false] at hxy hxy'
  obtain ⟨rfl, rfl⟩ | ⟨rfl, rfl⟩ := hxy <;> obtain ⟨rfl, rfl⟩ | ⟨rfl, rfl⟩ := hxy' <;>
    cases hd <;> cases hd' <;>
    simp only [leaves, mem_singleton, Prod.mk.injEq] at hleaf hleaf' <;>
    obtain ⟨rfl, rfl⟩ := hleaf <;> obtain ⟨rfl, rfl⟩ := hleaf'
  · rfl
  · exact absurd hkey hne
  · exact absurd hkey.symm hne
  · rfl

end Fork

/-- The execution of the fork with the action selected belongs to a solution. -/
theorem FlowGraph.exists_solution_iff_keysAgree_fork :
    Unknown.Distinct (Fork.graph.unknowns Fork.goal Fork.query) ∧
    Fork.graph.Ends (.free Fork.selection) Fork.goal.block Fork.final ∧
    ∃ v : Valuation String, (∀ a ∈ Fork.query.assertions, a.holds id v = true) ∧
      Fork.graph.Observed Fork.goal Fork.query.observations v Fork.final := by
  have hdistinct : Unknown.Distinct (Fork.graph.unknowns Fork.goal Fork.query) := by
    unfold Unknown.Distinct
    decide +kernel
  exact ⟨hdistinct, Fork.ends, (exists_solution_iff_keysAgree Fork.wellTyped Fork.acyclic
    Fork.consistent Fork.generate_eq hdistinct Fork.decided Fork.ends).2 Fork.keysAgree⟩

/-! ### Two leaves under one key -/

namespace Clash

def whole : Variable :=
  ⟨0, "s", .struct (some "S") [("n", .bool)], .ordinary, .data, false, "s"⟩

def part : Variable := ⟨1, "s.n", .bool, .ordinary, .data, false, "s.n"⟩

def goal : Target := ⟨"c", 0, .bug, 1, "", none, [("s", whole), ("s.n", part)]⟩

def graph : FlowGraph where
  name := "c"
  blocks := [
    ⟨0, "entry", [.havoc whole 0 none, .havoc part 1 none, .assume (.read part) none,
      .assume (.not (.field (.read whole) "n")) none], [⟨1, .fallthrough, none⟩], [], none⟩,
    ⟨1, "bug", [], [], [0], some goal⟩]
  entry := 0
  targets := [goal]
  deadTargets := []
  sites := []
  inputs := []
  pruned := 0

def typing : Nat → Ty
  | 0 => .struct none [("n", .bool)]
  | _ => .bool

def query : Query :=
  match (graph.generate true goal .never).1 with
  | .ok q => q
  | .error _ => ⟨goal, Term.ff, [], [], []⟩

theorem generate_eq : (graph.generate true goal .never).1 = .ok query := by rfl

theorem wellTyped : graph.WellTyped typing where
  distinct n := by
    unfold typing
    split <;> simp [Ty.Distinct, Ty.DistinctFields]
  ops := by
    simp [graph, Op.WellTyped, whole, part, typing, Ty.bare, Ty.bareFields, Rvalue.HasType]
  guards := by simp [graph]

theorem acyclic : graph.Acyclic := acyclic_of_lt (by decide)

theorem consistent : graph.Consistent := consistent_of_forall (by decide) (by decide)

theorem distinct : Unknown.Distinct (graph.unknowns goal query) := by
  unfold Unknown.Distinct
  decide +kernel

def final : State :=
  (State.empty.put whole (.struct [("n", .bool false)])).put part (.bool true)

theorem ends (select : Selection) : graph.Ends (.free select) goal.block final := by
  have hwhole : (Oracle.free select).draws whole 0 (.struct [("n", .bool false)]) := by
    simp [Oracle.free, whole, Datum.HasType, Datum.HaveTypes]
  have hpart : (Oracle.free select).draws part 1 (.bool true) := trivial
  refine ⟨⟨1, "bug", [], [], [0], some goal⟩, final, ?_, rfl, .nil⟩
  have hnone : ∀ n ∈ graph.choices 0, ∀ s, graph.site? n = some s → s.Decided select := by
    simp [show graph.choices 0 = [] from rfl]
  refine .head (.mk rfl (.cons (.havoc hwhole) (.cons (.havoc hpart) (.cons (.assume rfl)
    (.cons (.assume rfl) .nil)))) hnone (.head _) ?_) .refl
  rintro _ ⟨⟩

theorem not_keysAgree : ¬ graph.KeysAgree goal final := by
  intro h
  have := h "s" whole _ ["n"] (.bool false) "s.n" part _ [] (.bool true) (by simp [goal])
    (by decide +kernel) rfl (by simp [leaves, leavesOf]) (by simp [goal])
    (by decide +kernel) rfl (by simp [leaves]) (by decide)
  simp at this

end Clash

/-- A variable may have the name of a path into another. -/
theorem FlowGraph.not_forall_exists_solution :
    ¬ ∀ (g : FlowGraph) (types : Nat → Ty) (select : Selection) (target : Target)
      (token : Token) (q : Query) (σ : State), g.WellTyped types → g.Acyclic → g.Consistent →
      (g.generate true target token).1 = .ok q → Unknown.Distinct (g.unknowns target q) →
      (∀ s ∈ g.sites, s.Decided select) → g.Ends (.free select) target.block σ →
      ∃ v : Valuation String, (∀ a ∈ q.assertions, a.holds id v = true) ∧
        g.Observed target q.observations v σ := by
  intro h
  obtain ⟨v, -, hv⟩ := h Clash.graph Clash.typing (fun _ _ => false) Clash.goal .never Clash.query
    Clash.final Clash.wellTyped Clash.acyclic Clash.consistent Clash.generate_eq Clash.distinct
    (by simp [Clash.graph]) (Clash.ends _)
  exact Clash.not_keysAgree hv.keysAgree

end ControlReach
