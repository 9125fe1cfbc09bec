import ControlReach.Proofs.Freshness
import ControlReach.Proofs.Generation

/-!
# Read-only variables

In the graph of a control that is accepted one operation stores a read-only variable, and it stores
all of it. On every path from the entry that operation comes before whatever reads the variable, so
no execution changes the value that the variable has got.
-/

namespace ControlReach

open List Relation

/-! ### What is read -/

namespace Rvalue

mutual

def reads : Rvalue → List Variable
  | .bool _ | .text _ | .guard _ _ _ => []
  | .read v => [v]
  | .field base _ => reads base
  | .struct fields => readsOf fields
  | .not operand => reads operand
  | .and left right | .or left right | .equal _ left right => reads left ++ reads right

def readsOf : List (String × Rvalue) → List Variable
  | [] => []
  | (_, e) :: rest => reads e ++ readsOf rest

end

mutual

theorem Fits.reads_subset : ∀ {e : Rvalue} {ty : Ty}, e.Fits defined ty → e.reads ⊆ defined
  | .bool _, _, _ | .text _, _, _ => nil_subset _
  | .read _, _, h => cons_subset.2 ⟨h.1, nil_subset _⟩
  | .field base _, _, ⟨_, hbase, _⟩ => Fits.reads_subset (e := base) hbase
  | .struct _, _, ⟨_, _, _, hfields⟩ => FitFields.reads_subset hfields
  | .not operand, _, h => Fits.reads_subset (e := operand) h.2
  | .and _ _, _, ⟨_, ha, hb⟩ | .or _ _, _, ⟨_, ha, hb⟩ | .equal _ _ _, _, ⟨_, _, ha, hb⟩ =>
    append_subset.2 ⟨Fits.reads_subset ha, Fits.reads_subset hb⟩
  | .guard _ _ _, _, h => h.elim

theorem FitFields.reads_subset : ∀ {fields} {tys},
    FitFields defined fields tys → readsOf fields ⊆ defined
  | [], [], _ => nil_subset _
  | _ :: _, _ :: _, h => append_subset.2 ⟨Fits.reads_subset h.2.1, FitFields.reads_subset h.2.2⟩
  | [], _ :: _, h | _ :: _, [], h => h.elim

end

theorem Guards.reads_subset {r : Rvalue} (h : r.Guards defined) : r.reads ⊆ defined := by
  rcases h with h | ⟨_, _, _, rfl⟩
  · exact h.reads_subset
  · exact nil_subset _

end Rvalue

namespace Op

variable {op : Op}

/-- The variables that an operation reads. Storing at a field of a variable reads the variable. -/
def reads : Op → List Variable
  | .assign v path e _ => if path = [] then e.reads else v :: e.reads
  | .havoc _ _ _ => []
  | .assume e _ => e.reads

theorem Fits.reads_subset (h : op.Fits known defined) : op.reads ⊆ defined := by
  cases op with
  | assign v path e loc =>
    obtain ⟨-, hv, ty, -, he⟩ := h
    rw [reads]
    split
    · exact he.reads_subset
    · exact cons_subset.2 ⟨hv ‹_›, he.reads_subset⟩
  | havoc => exact nil_subset _
  | assume => exact Rvalue.Fits.reads_subset h

theorem Sequence.reads_subset (h : Sequence known defined ops) (hop : ops[k]? = some op) :
    op.reads ⊆ defined ++ (ops.take k).flatMap stores := by
  induction ops generalizing defined k with
  | nil => cases hop
  | cons o ops ih =>
    cases k with
    | zero =>
      cases hop
      simpa using h.1.reads_subset
    | succ k => simpa using ih h.2 hop

theorem Step.frame (h : op.Step o σ τ) (hn : ∀ w ∈ op.stores, w.uid ≠ n) : τ n = σ n := by
  have hput : ∀ {w : Variable} {d : Datum}, w ∈ op.stores → (σ.put w d) n = σ n :=
    fun hw => Function.update_of_ne (hn _ hw).symm _ _
  cases h with
  | @assign w path _ _ _ _ _ _ hassign =>
    cases path with
    | nil =>
      cases hassign
      exact hput mem_cons_self
    | cons f path =>
      simp only [State.assign, Option.bind_eq_bind, Option.bind_eq_some_iff] at hassign
      obtain ⟨-, -, -, -, ⟨⟩⟩ := hassign
      exact hput mem_cons_self
  | havoc => exact hput mem_cons_self
  | assume => rfl

end Op

/-! ### Paths -/

namespace FlowGraph

/-- A path from the entry to a block: the blocks before it, the last one first. -/
inductive Path (g : FlowGraph) : List BlockId → BlockId → Prop
  | entry : Path g [] g.entry
  | step {path i j} : Path g path i → j ∈ g.successors i → Path g (i :: path) j

variable {g : FlowGraph} {v : Variable} {i j : BlockId} {k m : Nat} {path : List BlockId}
  {o : Oracle}

/-- The operation at a place of a block stores a variable. -/
def StoresAt (g : FlowGraph) (v : Variable) (i : BlockId) (k : Nat) : Prop :=
  ∃ op, (g.opsOf i)[k]? = some op ∧ v ∈ op.stores

/-- A variable is read by an operation, or behind all of them by a guard or an error location. -/
def ReadsAt (g : FlowGraph) (v : Variable) (i : BlockId) (k : Nat) : Prop :=
  i ∈ g.ids ∧ ((∃ op, (g.opsOf i)[k]? = some op ∧ v ∈ op.reads) ∨
    k = (g.opsOf i).length ∧ ((∃ e ∈ g.edgesOf i, ∃ r, e.guard = some r ∧ v ∈ r.reads) ∨
      ∃ t ∈ g.targets, t.block = i ∧ ∃ x, (x, v) ∈ t.observed))

theorem exists_path (h : g.Walk g.entry i) : ∃ path, g.Path path i := by
  induction h with
  | refl => exact ⟨[], .entry⟩
  | tail _ hedge ih =>
    obtain ⟨path, hpath⟩ := ih
    exact ⟨_, hpath.step hedge⟩

namespace Assigned

variable (hg : g.Assigned known A)

include hg

theorem stored_before (hpath : g.Path path i) (hv : v ∈ A i) :
    ∃ j ∈ path, v ∈ (g.opsOf j).flatMap Op.stores := by
  induction hpath with
  | entry =>
    rw [hg.entry] at hv
    cases hv
  | step _ hedge ih =>
    obtain ⟨e, he, rfl⟩ := mem_map.1 hedge
    rcases mem_append.1 (hg.edge _ e he hv) with hv | hv
    · obtain ⟨j, hj, hstored⟩ := ih hv
      exact ⟨j, mem_cons_of_mem _ hj, hstored⟩
    · exact ⟨_, mem_cons_self, hv⟩

theorem mem_of_readsAt (h : g.ReadsAt v i k) :
    v ∈ A i ++ ((g.opsOf i).take k).flatMap Op.stores := by
  rcases h.2 with ⟨op, hop, hv⟩ | ⟨rfl, ⟨e, he, r, hr, hv⟩ | ⟨t, ht, rfl, x, hx⟩⟩
  · exact (hg.ops i).reads_subset hop hv
  · rw [take_length]
    exact (hg.guard i e he r hr).reads_subset hv
  · exact mem_append_left _ (hg.target t ht _ hx)

/-- On each path an operation that stores a variable comes before what reads it. -/
theorem dominated (h : g.ReadsAt v i k) (hpath : g.Path path i) :
    ∃ j m, g.StoresAt v j m ∧ (j ∈ path ∨ j = i ∧ m < k) := by
  rcases mem_append.1 (hg.mem_of_readsAt h) with hv | hv
  · obtain ⟨j, hj, hv⟩ := hg.stored_before hpath hv
    obtain ⟨op, hop, hv⟩ := mem_flatMap.1 hv
    obtain ⟨m, hm⟩ := mem_iff_getElem?.1 hop
    exact ⟨j, m, ⟨op, hm, hv⟩, .inl hj⟩
  · obtain ⟨op, hop, hv⟩ := mem_flatMap.1 hv
    obtain ⟨m, hm⟩ := mem_iff_getElem?.1 hop
    rw [getElem?_take, Option.ite_none_right_eq_some] at hm
    exact ⟨i, m, ⟨op, hm.2, hv⟩, .inr ⟨rfl, hm.1⟩⟩

end Assigned

/-! ### Executions -/

/-- One operation of an execution, or the way along an edge, with the operations that are left. -/
inductive Tick (g : FlowGraph) (o : Oracle) :
    BlockId × List Op × State → BlockId × List Op × State → Prop
  | op {i op ops σ τ} : op.Step o σ τ → Tick g o (i, op :: ops, σ) (i, ops, τ)
  | edge {i e σ} : e ∈ g.edgesOf i → e.Open o.select σ →
      Tick g o (i, [], σ) (e.target, g.opsOf e.target, σ)

def Ticks (g : FlowGraph) (o : Oracle) : BlockId × List Op × State → Prop :=
  ReflTransGen (g.Tick o) (g.entry, g.opsOf g.entry, State.empty)

/-- The variable of a number has no value before the operation at a place of a block. -/
def Awaits (g : FlowGraph) (n : Nat) (j : BlockId) (m : Nat) : BlockId × List Op × State → Prop
  | (i, ops, σ) => ∃ before, g.opsOf i = before ++ ops ∧ (σ n ≠ none →
      TransGen (Search.Edge g.successors) j i ∨ j = i ∧ m < before.length)

section Only

variable (hacyclic : g.Acyclic) (honly : ∀ w i k, g.StoresAt w i k → w.uid = n → i = j ∧ k = m)

include hacyclic honly

theorem Awaits.tick (hx : g.Awaits n j m x) (h : g.Tick o x y) :
    g.Awaits n j m y ∧ (x.2.2 n ≠ none → y.2.2 n = x.2.2 n) := by
  cases h with
  | @op i op ops σ τ hstep =>
    obtain ⟨before, hops, hbehind⟩ := hx
    have hat : (g.opsOf i)[before.length]? = some op := by simp [hops]
    by_cases hstores : ∃ w ∈ op.stores, w.uid = n
    · -- The operation is the one that stores the variable, so it is not behind itself.
      obtain ⟨w, hw, huid⟩ := hstores
      obtain ⟨rfl, rfl⟩ := honly w i _ ⟨op, hat, hw⟩ huid
      refine ⟨⟨before ++ [op], by simp [hops], fun _ => .inr ⟨rfl, by simp⟩⟩, fun hσ => ?_⟩
      rcases hbehind hσ with hcycle | ⟨-, hlt⟩
      · exact absurd hcycle (hacyclic i)
      · exact absurd hlt (Nat.lt_irrefl _)
    · have hframe : τ n = σ n := hstep.frame fun w hw huid => hstores ⟨w, hw, huid⟩
      refine ⟨⟨before ++ [op], by simp [hops], fun hτ => ?_⟩, fun _ => hframe⟩
      refine (hbehind (hframe ▸ hτ)).imp_right fun hlt => ⟨hlt.1, ?_⟩
      rw [length_append]
      exact Nat.lt_add_right 1 hlt.2
  | edge he _ =>
    obtain ⟨before, -, hbehind⟩ := hx
    have hedge : Search.Edge g.successors _ _ := mem_map.2 ⟨_, he, rfl⟩
    refine ⟨⟨[], rfl, fun hσ => .inl ?_⟩, fun _ => rfl⟩
    rcases hbehind hσ with hpath | ⟨rfl, -⟩
    · exact hpath.tail hedge
    · exact .single hedge

theorem Ticks.awaits (h : g.Ticks o x) : g.Awaits n j m x := by
  induction h with
  | refl => exact ⟨[], rfl, fun hne => absurd rfl hne⟩
  | tail _ htick ih => exact (ih.tick hacyclic honly htick).1

theorem Ticks.keeps (hx : g.Ticks o x) (h : ReflTransGen (g.Tick o) x y) (hd : x.2.2 n = some d) :
    y.2.2 n = some d := by
  induction h with
  | refl => exact hd
  | tail hxy htick ih =>
    have hb := Ticks.awaits hacyclic honly (hx.trans hxy)
    exact ((hb.tick hacyclic honly htick).2 (ih ▸ Option.some_ne_none d)).trans ih

end Only

/-! ### Graphs of controls -/

/-- The operation at a place gives all of a variable its value: no other one stores it, it comes
first on every path, and no execution changes the value. -/
structure Fixes (g : FlowGraph) (v : Variable) (j : BlockId) (m : Nat) : Prop where
  binds : (∃ n loc, (g.opsOf j)[m]? = some (.havoc v n loc)) ∨
    ∃ e loc, (g.opsOf j)[m]? = some (.assign v [] e loc)
  only : ∀ w i k, g.StoresAt w i k → w.uid = v.uid → i = j ∧ k = m
  dominates : ∀ i k path, g.ReadsAt v i k → g.Path path i → j ∈ path ∨ j = i ∧ m < k
  keeps : ∀ o x y d, g.Ticks o x → ReflTransGen (g.Tick o) x y → x.2.2 v.uid = some d →
    y.2.2 v.uid = some d

namespace Built

variable {p : Program} (b : Built p.globals.scope calls d g)

theorem code_of_op (h : (g.opsOf i)[k]? = some op) :
    ∃ (n : Nat) (c : List Op × List Edge), i = n ∧ b.main.code n = some c ∧ c.1[k]? = some op := by
  cases hblk : g.block? i with
  | none =>
    rw [opsOf, hblk] at h
    cases h
  | some blk =>
    obtain ⟨n, hi, hcode⟩ := b.code_of_block hblk
    rw [opsOf_of_block hblk] at h
    exact ⟨n, _, hi, hcode, h⟩

include b

theorem fixes_unique (h : (g.opsOf i)[k]? = some op) (h' : (g.opsOf j)[m]? = some op')
    (hn : op.fixes? = some n) (hn' : op'.fixes? = some n) : i = j ∧ k = m := by
  obtain ⟨a, c, rfl, hcode, hop⟩ := b.code_of_op h
  obtain ⟨a', c', rfl, hcode', hop'⟩ := b.code_of_op h'
  have hnodup : (b.main.ops.filterMap Op.fixes?).Nodup := by
    obtain ⟨uids, huids, hsub⟩ := b.elaborates.numbered.fixed
    have hperm := (b.plan.ops_lay Layout.valid_initial).filterMap Op.fixes?
    exact hperm.nodup_iff.2 (huids.nodup.sublist hsub)
  obtain ⟨rfl, hk⟩ := Layout.op_unique hnodup hcode hcode' hop hop' hn hn'
  exact ⟨rfl, hk⟩

theorem binds_of_stores (h : (g.opsOf j)[m]? = some op) (hop : v ∈ op.stores)
    (hv : v.readOnly = true) : (∃ n loc, (g.opsOf j)[m]? = some (.havoc v n loc)) ∨
      ∃ e loc, (g.opsOf j)[m]? = some (.assign v [] e loc) := by
  obtain ⟨n, c, -, hcode, hc⟩ := b.code_of_op h
  have hwhole := b.elaborates.numbered.whole op (b.mem_ops hcode (mem_of_getElem? hc))
  cases op with
  | assign w path e loc =>
    obtain rfl := mem_singleton.1 hop
    obtain rfl := hwhole hv
    exact .inr ⟨e, loc, h⟩
  | havoc w n loc =>
    obtain rfl := mem_singleton.1 hop
    exact .inl ⟨n, loc, h⟩
  | assume => cases hop

end Built

/-- A read-only variable that the graph of an accepted control stores or reads is given its value by
one operation, which comes before all that reads it; then it keeps the value. -/
theorem exists_fixes {p : Program} {calls : Option CallGraph} {d : ControlDecl}
    (hok : ofControl p.globals.scope calls d = (g, [])) (hv : v.readOnly = true)
    (huse : (∃ i k, g.StoresAt v i k) ∨ ∃ i k, g.ReadsAt v i k) : ∃ j m, g.Fixes v j m := by
  obtain ⟨⟨b⟩, hback⟩ := ofControl_built hok
  obtain ⟨known, n, A, hmade, hg⟩ := b.exists_assigned p.fits_globals
  obtain ⟨j, m, op, hop, hstores⟩ : ∃ j m, g.StoresAt v j m := by
    rcases huse with huse | ⟨i, k, hread⟩
    · exact huse
    · obtain ⟨path, hpath⟩ := exists_path (b.reachable hread.1)
      obtain ⟨j, m, hstores, -⟩ := hg.dominated hread hpath
      exact ⟨j, m, hstores⟩
  have hknown : ∀ {w i k}, g.StoresAt w i k → w ∈ known := by
    rintro w i k ⟨op, hop, hw⟩
    exact (hg.ops i).stores_subset (mem_flatMap.2 ⟨op, mem_of_getElem? hop, hw⟩)
  have honly : ∀ w i k, g.StoresAt w i k → w.uid = v.uid → i = j ∧ k = m := by
    intro w i k hw huid
    have hnodup : (known.map Variable.uid).Nodup := hmade.uid ▸ nodup_range
    obtain rfl := inj_on_of_nodup_map hnodup (hknown hw) (hknown ⟨op, hop, hstores⟩) huid
    obtain ⟨op', hop', hw⟩ := hw
    have hfixes : ∀ {op : Op}, w ∈ op.stores → op.fixes? = some w.uid := fun hw => by
      rw [Op.fixes?, Op.mem_stores.1 hw, Option.filter_some, hv]
      rfl
    exact b.fixes_unique hop' hop (hfixes hw) (hfixes hstores)
  refine ⟨j, m, b.binds_of_stores hop hstores hv, honly, fun i k path hread hpath => ?_,
    fun o x y d hx hxy hd => hx.keeps (b.acyclic hback) honly hxy hd⟩
  obtain ⟨j', m', hstores', hbefore⟩ := hg.dominated hread hpath
  obtain ⟨rfl, rfl⟩ := honly v j' m' hstores' rfl
  exact hbefore

/-- The input `y` of a control with a branch on it. -/
theorem exists_fixes_shadow : ∃ v, v.readOnly = true ∧ (∃ i k, Shadow.graph.StoresAt v i k) ∧
    ∃ j m, Shadow.graph.Fixes v j m := by
  have hfirst : ((Shadow.graph.opsOf 0)[0]?.any fun op => op.stores.any Variable.readOnly) = true := by
    decide +kernel
  obtain ⟨op, hop, hstores⟩ := (Option.any_eq_true _ _).1 hfirst
  obtain ⟨v, hv, hro⟩ := any_eq_true.1 hstores
  have hat : ∃ i k, Shadow.graph.StoresAt v i k := ⟨0, 0, op, hop, hv⟩
  exact ⟨v, hro, hat, exists_fixes Shadow.ofControl_eq hro (.inl hat)⟩

end FlowGraph

end ControlReach
