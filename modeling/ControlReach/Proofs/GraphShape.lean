import ControlReach.Proofs.Freshness
import ControlReach.Proofs.Generation
import ControlReach.Proofs.MeaningPreservation

/-!
# The shape of the graph of a control

The graph of a control has no cycle and no block that is not reached. Executions end at error
locations and at one more block at most, and go on in exactly one way elsewhere.
-/

namespace ControlReach

open List Relation

/-! ### Values of expressions -/

namespace Datum

mutual

theorem HasType.bare : ∀ {d : Datum} {ty : Ty}, d.HasType ty → d.HasType ty.bare
  | .bool _, .bool, _ | .text _, .string, _ => trivial
  | .struct _, .struct _ _, h => HaveTypes.bare h
  | .bool _, .string, h | .bool _, .struct _ _, h | .text _, .bool, h | .text _, .struct _ _, h
  | .struct _, .bool, h | .struct _, .string, h => h.elim

theorem HaveTypes.bare : ∀ {fields} {tys},
    HaveTypes fields tys → HaveTypes fields (Ty.bareFields tys)
  | [], [], _ => trivial
  | (_, _) :: _, (_, _) :: _, h => ⟨h.1, HasType.bare h.2.1, HaveTypes.bare h.2.2⟩
  | [], _ :: _, h | _ :: _, [], h => h.elim

end

theorem HasType.of_bool {d : Datum} (h : d.HasType .bool) : ∃ b, d = .bool b := by
  cases d with
  | bool b => exact ⟨b, rfl⟩
  | text | struct => exact h.elim

end Datum

/-- Each of the variables has a value of its type. -/
def State.Fits (σ : State) (vars : List Variable) : Prop :=
  ∀ v ∈ vars, ∃ d, σ v.uid = some d ∧ d.HasType v.ty

namespace Rvalue

variable {σ : State}

mutual

theorem Fits.exists_value (hσ : σ.Fits defined) : ∀ {e : Rvalue} {ty : Ty}, e.Fits defined ty →
    ∃ d, e.value select σ = some d ∧ d.HasType ty
  | .bool b, _, h => ⟨.bool b, rfl, by cases h; trivial⟩
  | .text s, _, h => ⟨.text s, rfl, by cases h; trivial⟩
  | .read v, _, h => by
    obtain ⟨hv, rfl⟩ := h
    obtain ⟨d, hd, hty⟩ := hσ v hv
    exact ⟨d, hd, hty.bare⟩
  | .field base f, ty, h => by
    obtain ⟨fields, hbase, hf⟩ := h
    obtain ⟨d, hd, hty⟩ := Fits.exists_value hσ hbase
    cases d with
    | struct fs =>
      obtain ⟨d, hlookup, hdty⟩ := Assoc.exists_lookup (Datum.haveTypes_iff.1 hty) hf
      refine ⟨d, ?_, hdty⟩
      rw [value, hd]
      exact hlookup
    | bool | text => exact hty.elim
  | .struct fields, _, h => by
    obtain ⟨tys, rfl, -, hfields⟩ := h
    obtain ⟨ds, hds, htys⟩ := FitFields.exists_values hσ hfields
    refine ⟨.struct ds, ?_, htys⟩
    rw [value, hds]
    rfl
  | .not e, _, h => by
    obtain ⟨rfl, he⟩ := h
    obtain ⟨d, hd, hty⟩ := Fits.exists_value hσ he
    obtain ⟨b, rfl⟩ := hty.of_bool
    refine ⟨.bool !b, ?_, trivial⟩
    rw [value, hd]
    rfl
  | .and e e', _, h | .or e e', _, h => by
    obtain ⟨rfl, he, he'⟩ := h
    obtain ⟨d, hd, hty⟩ := Fits.exists_value hσ he
    obtain ⟨d', hd', hty'⟩ := Fits.exists_value hσ he'
    obtain ⟨b, rfl⟩ := hty.of_bool
    obtain ⟨b', rfl⟩ := hty'.of_bool
    rw [value, hd, hd']
    exact ⟨_, rfl, trivial⟩
  | .equal negated e e', _, h => by
    obtain ⟨rfl, side, he, he'⟩ := h
    obtain ⟨d, hd, -⟩ := Fits.exists_value hσ he
    obtain ⟨d', hd', -⟩ := Fits.exists_value hσ he'
    refine ⟨.bool (decide (d = d') != negated), ?_, trivial⟩
    rw [value, hd, hd']
    rfl
  | .guard _ _ _, _, h => h.elim

theorem FitFields.exists_values (hσ : σ.Fits defined) : ∀ {fields : List (String × Rvalue)}
    {tys : List (String × Ty)}, FitFields defined fields tys →
    ∃ ds, values select σ fields = some ds ∧ Datum.HaveTypes ds tys
  | [], [], _ => ⟨[], rfl, trivial⟩
  | (f, e) :: fields, (_, _) :: tys, h => by
    obtain ⟨rfl, he, hrest⟩ := h
    obtain ⟨d, hd, hty⟩ := Fits.exists_value hσ he
    obtain ⟨ds, hds, htys⟩ := FitFields.exists_values hσ hrest
    refine ⟨(f, d) :: ds, ?_, rfl, hty, htys⟩
    rw [values, hd, hds]
    rfl
  | [], _ :: _, h | _ :: _, [], h => h.elim

end

theorem Guards.exists_value {r : Rvalue} (h : r.Guards defined) (hσ : σ.Fits defined) :
    ∃ b, r.value select σ = some (.bool b) := by
  rcases h with h | ⟨site, label, name, rfl⟩
  · obtain ⟨d, hd, hty⟩ := h.exists_value hσ
    obtain ⟨b, rfl⟩ := hty.of_bool
    exact ⟨b, hd⟩
  · exact ⟨select site label, rfl⟩

end Rvalue

/-! ### The shape of a graph -/

/-- A site with distinct labels, the last of which is a miss. -/
structure TableSite.Complete (s : TableSite) : Prop where
  nodup : s.labels.Nodup
  miss : s.labels.getLast? = some TableSite.miss

namespace FlowGraph

/-- The blocks from which edges lead to a block, each as often as edges do. -/
def sources (g : FlowGraph) (j : BlockId) : List BlockId := g.blocks.flatMap (FlowBlock.edgesTo j)

/-- Executions end at error locations and at one more block at most, and are decided elsewhere. -/
structure Structured (g : FlowGraph) : Prop where
  acyclic : g.Acyclic
  distinct : g.ids.Nodup
  reachable : ∀ b ∈ g.blocks, ReflTransGen (Search.Edge g.successors) g.entry b.id
  predecessors : ∀ b ∈ g.blocks, b.predecessors.Perm (g.sources b.id)
  /-- Error locations are those of their blocks. -/
  target : ∀ b ∈ g.blocks, ∀ t, b.target = some t ↔ t ∈ g.targets ∧ t.block = b.id
  stop : ∀ b ∈ g.blocks, b.target ≠ none → b.ops = [] ∧ b.edges = []
  exits : g.exits.length ≤ 1
  leave : ∀ b ∈ g.blocks, b.target = none → b.isExit = false →
    WaysOut (fun s => s ∈ g.sites ∧ s.Complete) b.edges
  /-- Whatever the values of the variables are, exactly one edge is open. -/
  decided : ∀ b ∈ g.blocks, b.target = none → b.isExit = false → ∀ (select : Selection) (σ : State),
    (∀ s ∈ g.sites, s.Decided select) → σ.Fits g.stored →
    ∃! i : Fin b.edges.length, (b.edges.get i).Open select σ

end FlowGraph

namespace FlowGraph.Built

variable {g : FlowGraph} (b : Built globals calls d g)

include b in
theorem distinct : g.ids.Nodup := by
  have hids : (b.layout.blocks.map FlowBlock.id).Nodup := by
    rw [nodup_iff_injective_getElem]
    intro i j hij
    simp only [getElem_map] at hij
    have hi := b.layout_counted.valid.id (getElem?_eq_getElem (by simpa using i.isLt))
    have hj := b.layout_counted.valid.id (getElem?_eq_getElem (by simpa using j.isLt))
    have hval : (i.val : Int) = j.val := hi.symm.trans (hij.trans hj)
    exact Fin.ext (Int.ofNat.inj hval)
  have hmap : g.ids = ((b.layout.blocks.filter fun blk => blk.id ∈ b.live).map FlowBlock.id) :=
    (congrArg FlowGraph.ids b.eq).trans map_map
  rw [hmap]
  exact hids.sublist (filter_sublist.map _)

include b in
theorem target_iff (h : blk ∈ g.blocks) (t : Target) :
    blk.target = some t ↔ t ∈ g.targets ∧ t.block = blk.id := by
  have hlive := b.live_of_mem_blocks h
  obtain ⟨n, blk', -, hid, hblk', rfl⟩ := b.exists_layout_block h
  rw [b.mem_targets_iff, hid]
  have htarget : b.layout.target? n = blk'.target := by
    rw [Layout.target?, hblk']
    rfl
  refine (htarget ▸ b.marked n t).trans ?_
  rw [and_assoc]
  refine and_congr_right fun _ => (and_iff_right_of_imp fun hblock => ?_).symm
  rw [hblock, ← hid]
  exact hlive

include b in
theorem perm_predecessors (h : blk ∈ g.blocks) : blk.predecessors.Perm (g.sources blk.id) := by
  obtain ⟨n, blk', -, hid, hblk', rfl⟩ := b.exists_layout_block h
  rw [hid]
  refine ((b.mirrored n blk' hblk').filter (· ∈ b.live)).trans (.of_eq ?_)
  -- Edges from blocks that are not reached are not counted on either side.
  have hblocks : ∀ blocks : List FlowBlock,
      (blocks.flatMap (FlowBlock.edgesTo n)).filter (· ∈ b.live) =
        (((blocks.filter fun blk => blk.id ∈ b.live).map fun blk : FlowBlock =>
          { blk with predecessors := blk.predecessors.filter (· ∈ b.live) }).flatMap
            (FlowBlock.edgesTo n)) := by
    intro blocks
    induction blocks with
    | nil => rfl
    | cons blk blocks ih =>
      rw [flatMap_cons, filter_append, ih, filter_cons]
      by_cases hlive : blk.id ∈ b.live
      · rw [if_pos (decide_eq_true hlive), map_cons, flatMap_cons]
        congr 1
        refine filter_eq_self.2 fun j hj => ?_
        obtain ⟨-, -, rfl⟩ := mem_map.1 hj
        exact decide_eq_true hlive
      · have hnil : (blk.edgesTo n).filter (· ∈ b.live) = [] := by
          refine filter_eq_nil_iff.2 fun j hj => ?_
          obtain ⟨-, -, rfl⟩ := mem_map.1 hj
          simpa using hlive
        rw [if_neg (by simpa using hlive), hnil, nil_append]
  have hsources : g.sources n = ((b.layout.graph d.name b.inputs).prune b.layout.targets).sources n :=
    congrArg (FlowGraph.sources · n) b.eq
  rw [hsources]
  exact hblocks b.layout.blocks

/-- A block of the graph is left, or is that of an error location or of the plan's end. -/
theorem finished_or_exit (h : blk ∈ g.blocks) :
    (blk.target ≠ none ∧ blk.ops = [] ∧ blk.edges = []) ∨
      (blk.target = none ∧ WaysOut (· ∈ b.plan.sites) blk.edges) ∨
      (blk.target = none ∧ blk.edges = [] ∧ blk.id = b.main.current) := by
  have hlive := b.live_of_mem_blocks h
  obtain ⟨n, blk', hn, hid, hblk', rfl⟩ := b.exists_layout_block h
  rw [hid] at hlive
  have hcode : b.main.code n = some (blk'.ops, blk'.edges) := by
    rw [← b.code_main hn]
    exact Layout.code_eq_some.2 ⟨blk', hblk', rfl⟩
  have htarget : b.main.target? n = blk'.target := by
    refine ((b.detaches.extends 0).target? hn).symm.trans ?_
    rw [Layout.target?, hblk']
    rfl
  obtain ⟨applied, happlied, hall⟩ := b.finished_or_last
  rcases hall hlive with (⟨t, hempty, ht⟩ | ⟨hnone, c, hleft, hout, -⟩) | ⟨hlast, hnone, ops, hops⟩
  · refine .inl ⟨?_, Prod.mk.inj (Option.some.inj (hcode.symm.trans hempty))⟩
    show blk'.target ≠ none
    rw [← htarget, ht]
    exact Option.some_ne_none _
  · cases hcode.symm.trans hleft
    exact .inr (.inl ⟨htarget.symm.trans hnone, happlied ▸ hout⟩)
  · have hpair := Prod.mk.inj (Option.some.inj (hcode.symm.trans hops))
    exact .inr (.inr ⟨htarget.symm.trans hnone, hpair.2, hid.trans (congrArg Nat.cast hlast)⟩)

theorem complete_sites {p : Program} (b : Built p.globals.scope calls d g)
    (hp : Identifiers p.names) (hd : d ∈ p.controls) (hs : s ∈ b.plan.sites) :
    s ∈ g.sites ∧ s.Complete := by
  have hplan := b.elaborates.named (Context.named_initial calls d) (Program.named_globals hp)
    (identifiers_control hp hd)
  obtain ⟨rest, hsites, -⟩ := b.exists_sites
  refine ⟨?_, (hplan.site s hs).2, b.elaborates.numbered.miss s hs⟩
  rw [hsites]
  exact mem_append_left _ hs

include b in
theorem length_exits (hsites : ∀ s ∈ b.plan.sites, s.labels ≠ []) : g.exits.length ≤ 1 := by
  have hexit : ∀ blk ∈ g.blocks, blk.isExit = true → blk.id = b.main.current := by
    intro blk hblk hexit
    obtain ⟨hedges, htarget⟩ := Bool.and_eq_true_iff.1 hexit
    rcases b.finished_or_exit hblk with ⟨hne, -⟩ | ⟨-, hout⟩ | ⟨-, -, hid⟩
    · exact absurd (Option.isNone_iff_eq_none.1 htarget) hne
    · exact absurd (isEmpty_iff.1 hedges) (hout.ne_nil hsites)
    · exact hid
  have hnodup : ((g.blocks.filter FlowBlock.isExit).map FlowBlock.id).Nodup :=
    b.distinct.sublist (filter_sublist.map _)
  have hsub : (g.blocks.filter FlowBlock.isExit).map FlowBlock.id ⊆ [(b.main.current : Int)] := by
    intro i hi
    obtain ⟨blk, hblk, rfl⟩ := mem_map.1 hi
    obtain ⟨hmem, hisExit⟩ := mem_filter.1 hblk
    exact mem_singleton.2 (hexit blk hmem hisExit)
  rw [exits, Order.sortInts, Order.length_sort]
  exact (subperm_of_subset hnodup hsub).length_le

end FlowGraph.Built

theorem FlowGraph.Assigned.subset_of_stores {g : FlowGraph} (hg : g.Assigned known A)
    (hvars : ∀ i, (g.opsOf i).flatMap Op.stores ⊆ vars) (h : g.Walk g.entry i) :
    A i ++ (g.opsOf i).flatMap Op.stores ⊆ vars := by
  refine append_subset.2 ⟨?_, hvars i⟩
  induction h with
  | refl =>
    rw [hg.entry]
    exact nil_subset _
  | @tail i j _ hedge ih =>
    obtain ⟨e, he, rfl⟩ := mem_map.1 hedge
    exact Subset.trans (hg.edge i e he) (append_subset.2 ⟨ih, hvars i⟩)

theorem FlowGraph.Assigned.subset_stored {g : FlowGraph} (hg : g.Assigned known A)
    (h : g.Walk g.entry i) : A i ++ (g.opsOf i).flatMap Op.stores ⊆ g.stored := by
  refine hg.subset_of_stores (fun i v hv => ?_) h
  obtain ⟨op, hop, hv⟩ := mem_flatMap.1 hv
  obtain ⟨b, hb, hop⟩ := mem_opsOf.1 hop
  exact mem_stored (mem_blocks_of_block hb) hop (Op.mem_stores.1 hv)

/-- The graph has no cycles, error locations are blocks of their own, at most one block is an exit,
and every other block is left by one edge, by a condition and its negation, or by the labels of a
table site. So exactly one edge is open. -/
theorem FlowGraph.structured_of_ofControl {p : Program} (hp : Identifiers p.names)
    {calls : Option CallGraph} {d : ControlDecl} (hd : d ∈ p.controls) {g : FlowGraph}
    (hok : ofControl p.globals.scope calls d = (g, [])) : g.Structured := by
  obtain ⟨⟨b⟩, hback⟩ := ofControl_built hok
  obtain ⟨known, n, A, -, hassigned⟩ := b.exists_assigned p.fits_globals
  have hcomplete := fun s hs => b.complete_sites hp hd (s := s) hs
  have hlabels : ∀ s ∈ b.plan.sites, s.labels ≠ [] := by
    intro s hs hnil
    have hmiss := (hcomplete s hs).2.miss
    rw [hnil] at hmiss
    cases hmiss
  have hreachable : ∀ blk ∈ g.blocks, ReflTransGen (Search.Edge g.successors) g.entry blk.id :=
    fun blk hblk => b.reachable (mem_map_of_mem hblk)
  have hleave : ∀ blk ∈ g.blocks, blk.target = none → blk.isExit = false →
      WaysOut (fun s => s ∈ g.sites ∧ s.Complete) blk.edges := by
    intro blk hblk htarget hexit
    rcases b.finished_or_exit hblk with ⟨hne, -⟩ | ⟨-, hout⟩ | ⟨-, hedges, -⟩
    · exact absurd htarget hne
    · exact hout.imp hcomplete
    · rw [FlowBlock.isExit, hedges, htarget] at hexit
      cases hexit
  refine ⟨b.acyclic hback, b.distinct, hreachable, fun blk => b.perm_predecessors,
    fun blk => b.target_iff, fun blk hblk htarget => ?_, b.length_exits hlabels, hleave, ?_⟩
  · rcases b.finished_or_exit hblk with ⟨-, hempty⟩ | ⟨hnone, -⟩ | ⟨hnone, -⟩
    · exact hempty
    · exact absurd hnone htarget
    · exact absurd hnone htarget
  · intro blk hblk htarget hexit select σ hdecided hσ
    refine (hleave blk hblk htarget hexit).existsUnique_open ?_ ?_
    · exact fun s hs => ⟨hs.2.nodup, hdecided s hs.1⟩
    · intro e he r hr
      have hmem : e ∈ g.edgesOf blk.id := by
        obtain ⟨blk', hblk'⟩ := Option.isSome_iff_exists.1
          (mem_ids_iff.1 (mem_map_of_mem (f := FlowBlock.id) hblk))
        have hsame : blk' = blk := inj_on_of_nodup_map b.distinct
          (mem_blocks_of_block hblk') hblk (id_of_block hblk')
        rw [edgesOf_of_block hblk', hsame]
        exact he
      have hsub := hassigned.subset_stored (hreachable blk hblk)
      exact (hassigned.guard blk.id e hmem r hr).exists_value fun v hv => hσ v (hsub hv)

/-- A table with one action, a branch in the action and an assertion. -/
theorem FlowGraph.structured_toggle :
    Identifiers Toggle.program.names ∧ Toggle.control ∈ Toggle.program.controls ∧
      ofControl Toggle.program.globals.scope none Toggle.control = (Toggle.graph, []) ∧
      Toggle.graph.blocks.map (fun b => b.edges.length) = [2, 2, 2, 1, 0, 1, 1, 0, 0] ∧
      Toggle.graph.Structured := by
  have hnames : Identifiers Toggle.program.names := by decide +kernel
  refine ⟨hnames, mem_cons_self, Toggle.ofControl_eq, by decide +kernel, ?_⟩
  exact structured_of_ofControl hnames mem_cons_self Toggle.ofControl_eq

end ControlReach
