import ControlReach.Proofs.DataTerm
import ControlReach.Proofs.GraphExecution
import ControlReach.Proofs.PlanTyping

/-!
# Which unknowns share a symbol

In the query of an error location, unknowns for different things have different symbols, except
joined values, at one block, of two variables that are reported under one name.
-/

namespace ControlReach

open List

/-! ### Graphs with well-formed names -/

namespace FlowGraph

/-- The variables that the operations of a graph store to. -/
def stored (g : FlowGraph) : List Variable := g.blocks.flatMap fun b => b.ops.filterMap Op.target?

end FlowGraph

variable {i n : Nat} {x : Variable}

theorem eq_of_pairwise {α : Type} {R : α → α → Prop} {l : List α} (h : l.Pairwise R) {j : Nat}
    {a b : α} (ha : l[i]? = some a) (hb : l[j]? = some b) (hab : ¬ R a b) (hba : ¬ R b a) :
    i = j := by
  obtain ⟨hi, rfl⟩ := List.getElem?_eq_some_iff.1 ha
  obtain ⟨hj, rfl⟩ := List.getElem?_eq_some_iff.1 hb
  rw [pairwise_iff_getElem] at h
  rcases Nat.lt_trichotomy i j with hij | hij | hij
  · exact absurd (h i j hi hj hij) hab
  · exact hij
  · exact absurd (h j i hj hi hij) hba

theorem Layout.op_unique {l : Layout} {number : Op → Option Nat} (h : (l.ops.filterMap number).Nodup)
    {i' k k' : Nat} {b b' : List Op × List Edge} {op op' : Op} (hb : l.code i = some b)
    (hb' : l.code i' = some b') (hop : b.1[k]? = some op) (hop' : b'.1[k']? = some op')
    (hn : number op = some n) (hn' : number op' = some n) : i = i' ∧ k = k' := by
  have hpair : l.ops.Pairwise fun a a' => ∀ n ∈ number a, ∀ n' ∈ number a', n ≠ n' :=
    pairwise_filterMap.1 h
  obtain ⟨hinside, hbetween⟩ := pairwise_flatMap.1 hpair
  obtain ⟨blk, hblk, rfl⟩ := code_eq_some.1 hb
  obtain ⟨blk', hblk', rfl⟩ := code_eq_some.1 hb'
  have hm := mem_of_getElem? hop
  have hm' := mem_of_getElem? hop'
  obtain rfl := eq_of_pairwise hbetween hblk hblk'
    (fun hR => hR op hm op' hm' n hn n hn' rfl) (fun hR => hR op' hm' op hm n hn' n hn rfl)
  obtain rfl := Option.some.inj (hblk.symm.trans hblk')
  exact ⟨rfl, eq_of_pairwise (hinside blk (mem_of_getElem? hblk)) hop hop'
    (fun hR => hR n hn n hn' rfl) (fun hR => hR n hn' n hn rfl)⟩

theorem FlowGraph.mem_stored {g : FlowGraph} {b : FlowBlock} (hb : b ∈ g.blocks) {op : Op}
    (hop : op ∈ b.ops) (hx : op.target? = some x) : x ∈ g.stored :=
  mem_flatMap.2 ⟨b, hb, mem_filterMap.2 ⟨op, hop, hx⟩⟩

theorem headD_mem {α : Type} {l : List α} {d : α} (h : l.isEmpty = false) : l.headD d ∈ l := by
  cases l with
  | nil => cases h
  | cons a l => exact mem_cons_self

theorem Context.control_initial (calls : Option CallGraph) (d : ControlDecl) :
    (Context.initial calls d).control = d.name := by
  cases calls <;> rfl

namespace FlowGraph.Built

variable {p : Program}

theorem mem_ops (b : Built p.globals.scope calls d g) {c : List Op × List Edge}
    (hc : b.main.code n = some c) {op : Op} (hop : op ∈ c.1) : op ∈ b.plan.ops := by
  obtain ⟨blk, hblk, rfl⟩ := Layout.code_eq_some.1 hc
  have hmem : op ∈ b.main.ops := mem_flatMap.2 ⟨blk, mem_of_getElem? hblk, hop⟩
  exact (b.plan.ops_lay Layout.valid_initial).mem_iff.1 hmem

end FlowGraph.Built

section Named

variable [Letters]

namespace Rvalue

mutual

theorem guards_of_plain : ∀ e : Rvalue, e.Plain → e.guards = []
  | .bool _, _ | .text _, _ | .read _, _ => rfl
  | .field base _, h => guards_of_plain base h
  | .struct fields, h => guardsOf_of_plain fields h
  | .not e, h => guards_of_plain e h
  | .and a b, h | .or a b, h | .equal _ a b, h => by
    rw [guards, guards_of_plain a h.1, guards_of_plain b h.2, append_nil]
  | .guard _ _ _, h => h.elim

theorem guardsOf_of_plain : ∀ fields : List (String × Rvalue), PlainFields fields →
    guardsOf fields = []
  | [], _ => rfl
  | (_, e) :: rest, h => by
    rw [guardsOf, guards_of_plain e h.2.1, guardsOf_of_plain rest h.2.2, append_nil]

end

end Rvalue

namespace FlowGraph

/-- A site that is found by its number. -/
structure NamedSite (g : FlowGraph) (s : TableSite) : Prop extends s.Named where
  found : g.site? s.id = some s

/-- An error location at which variables with well-formed names are in scope. -/
structure NamedTarget (t : Target) : Prop where
  control : IsDotted t.control
  nodup : (t.observed.map Prod.fst).Nodup
  observed : ∀ q ∈ t.observed, IsIdentifier q.1 ∧ q.2.Named

/-- A graph whose names are made of identifiers and whose numbers tell things apart. -/
structure Named (g : FlowGraph) : Prop where
  named : ∀ x ∈ g.stored, x.Named
  unique : ∀ x ∈ g.stored, ∀ y ∈ g.stored, x.uid = y.uid → x = y
  op : ∀ b ∈ g.blocks, ∀ op ∈ b.ops, op.Named (· ∈ g.stored)
  fresh : ∀ b ∈ g.blocks, ∀ b' ∈ g.blocks, ∀ (k k' : Nat) (op op' : Op) (n : Nat),
    b.ops[k]? = some op → b'.ops[k']? = some op' → op.fresh? = some n → op'.fresh? = some n →
    b.id = b'.id ∧ k = k'
  guard : ∀ b ∈ g.blocks, ∀ e ∈ b.edges, ∀ r, e.guard = some r →
    r.Plain ∨ ∃ s label, g.NamedSite s ∧ label ∈ s.labels ∧ r = s.guard label
  target : ∀ t ∈ g.targets, NamedTarget t

end FlowGraph

theorem Rvalue.Plain.site? {r : Rvalue} (h : r.Plain) : r.site? = none := by
  cases r with
  | guard => exact h.elim
  | _ => rfl

section Op

variable {P : Variable → Prop} {op : Op}

theorem Op.Named.of_target (h : op.Named P) (hx : op.target? = some x) : P x := by
  cases op with
  | assign => cases hx; exact h.1
  | havoc => cases hx; exact h
  | assume => cases hx

theorem Op.Named.guards (h : op.Named P) : op.guards = [] := by
  cases op with
  | assign => exact Rvalue.guards_of_plain _ h.2
  | havoc => rfl
  | assume => exact Rvalue.guards_of_plain _ h

theorem Op.Named.restrict (h : op.Named P) (hQ : ∀ x, op.target? = some x → Q x) : op.Named Q := by
  cases op with
  | assign => exact ⟨hQ _ rfl, h.2⟩
  | havoc => exact hQ _ rfl
  | assume => exact h

end Op

theorem Context.named_initial (calls : Option CallGraph) (d : ControlDecl) :
    (Context.initial calls d).Named := by
  cases calls <;> exact fun q hq => nomatch hq

theorem identifiers_control {p : Program} (hp : Identifiers p.names) {d : ControlDecl}
    (hd : d ∈ p.controls) : Identifiers d.names := by
  obtain ⟨decl, hdecl, hcontrol⟩ := mem_filterMap.1 hd
  cases decl <;> cases hcontrol
  exact identifiers_flatMap.1 hp _ hdecl

namespace FlowGraph.Built

variable {p : Program} {g : FlowGraph}

variable (b : Built p.globals.scope calls d g) (hp : Identifiers p.names) (hd : d ∈ p.controls)

include b hp hd

theorem named : g.Named := by
  have hnames := identifiers_control hp hd
  have hplan :=
    b.elaborates.named (Context.named_initial calls d) (Program.named_globals hp) hnames
  obtain ⟨known, hknown, hfits⟩ := b.elaborates.fits p.fits_globals
  have hstored : ∀ x ∈ g.stored, x.Named ∧ x ∈ known := by
    intro x hx
    obtain ⟨blk, hblk, hx⟩ := mem_flatMap.1 hx
    obtain ⟨op, hop, hx⟩ := mem_filterMap.1 hx
    obtain ⟨n, -, hcode⟩ := b.mem_blocks hblk
    have hop := b.mem_ops hcode hop
    exact ⟨(hplan.op op hop).of_target hx, hfits.stores_subset op hop (Op.mem_stores.2 hx)⟩
  refine ⟨fun x hx => (hstored x hx).1, fun x hx y hy => hknown.eq_of_uid (hstored x hx).2
    (hstored y hy).2, ?_, ?_, ?_, ?_⟩
  · intro blk hblk op hop
    obtain ⟨n, -, hcode⟩ := b.mem_blocks hblk
    exact (hplan.op op (b.mem_ops hcode hop)).restrict fun x hx => mem_stored hblk hop hx
  · intro blk hblk blk' hblk' k k' op op' n hop hop' hn hn'
    obtain ⟨i, hi, hcode⟩ := b.mem_blocks hblk
    obtain ⟨i', hi', hcode'⟩ := b.mem_blocks hblk'
    obtain ⟨rfl, hk⟩ := Layout.op_unique (b.main_counted.fresh.nodup_iff.2 nodup_range) hcode hcode'
      hop hop' hn hn'
    exact ⟨hi.trans hi'.symm, hk⟩
  · intro blk hblk e he r hr
    obtain ⟨applied, happlied, hguards⟩ := b.exists_applied
    obtain ⟨n, -, ⟨condition, hcondition, rfl | rfl⟩ | ⟨s, hs, label, hlabel, rfl⟩⟩ :=
      hguards blk hblk e he r hr
    · exact .inl (hplan.condition _ hcondition)
    · exact .inl (hplan.condition condition hcondition)
    · replace hs : s ∈ b.plan.sites := happlied ▸ mem_map_of_mem hs
      exact .inr ⟨s, label, ⟨hplan.site s hs, b.site?_eq hs⟩, hlabel, rfl⟩
  · intro t ht
    have hsame : b.main.targets.map (fun t => (t.control, t.observed)) = b.plan.targets.map _ :=
      b.plan.map_targets_lay (fun _ _ => rfl) .initial
    obtain ⟨t', ht', heq⟩ := mem_map.1 (hsame ▸ mem_map_of_mem (b.mem_targets ht))
    obtain ⟨hcontrol, hobserved⟩ := Prod.mk.inj heq
    have htarget := hplan.target t' ht'
    refine ⟨?_, hobserved ▸ htarget.nodup, fun q hq => htarget.observed q (hobserved ▸ hq)⟩
    rw [← hcontrol, htarget.control, Context.control_initial]
    exact IsIdentifier.dotted (hnames _ mem_cons_self)

/-- In the graph of a control the labels of a site are chosen at one block. -/
theorem choice_unique {i j : BlockId} (hi : n ∈ g.choices i) (hj : n ∈ g.choices j) : i = j := by
  have hplan := b.elaborates.named (Context.named_initial calls d) (Program.named_globals hp)
    (identifiers_control hp hd)
  obtain ⟨applied, happlied, hguards⟩ := b.exists_applied
  have hnodup : (applied.map (TableSite.id ∘ Prod.fst)).Nodup := by
    rw [← map_map, happlied]
    exact b.elaborates.numbered.site.nodup
  have hplace : ∀ {i : BlockId}, n ∈ g.choices i →
      ∃ q ∈ applied, i = (q.2 : Int) ∧ q.1.id = n := by
    intro i hi
    obtain ⟨e, he, hn⟩ := mem_filterMap.1 hi
    obtain ⟨r, hr, hsite⟩ := Option.bind_eq_some_iff.1 hn
    obtain ⟨blk, hb, he⟩ := mem_edgesOf.1 he
    obtain ⟨m, hm, ⟨condition, hcondition, rfl | rfl⟩ | ⟨s, hs, label, -, rfl⟩⟩ :=
      hguards blk (mem_blocks_of_block hb) e he r hr
    · rw [(hplan.condition _ hcondition).site?] at hsite
      cases hsite
    · cases hsite
    · exact ⟨(s, m), hs, (id_of_block hb).symm.trans hm, Option.some.inj hsite⟩
  obtain ⟨q, hq, rfl, rfl⟩ := hplace hi
  obtain ⟨q', hq', rfl, hid⟩ := hplace hj
  rw [inj_on_of_nodup_map hnodup hq hq' hid.symm]

end FlowGraph.Built

namespace FlowGraph

variable {g : FlowGraph} {P : Symbol → Prop}

def ArrivalsOver (g : FlowGraph) (P : Symbol → Prop) (p : Progress) : Prop :=
  ∀ j, ∀ a ∈ p.arrivals j, a.store.Over g.stored P

theorem arrivalsOver_start (g : FlowGraph) : g.ArrivalsOver P g.start := by
  intro j a ha
  obtain ⟨-, rfl⟩ := mem_arrivals_start ha
  exact forall_mem_nil _

theorem Named.opsOf (hg : g.Named) (i : BlockId) : ∀ op ∈ g.opsOf i, op.Named (· ∈ g.stored) := by
  intro op hop
  obtain ⟨b, hb, hop⟩ := mem_opsOf.1 hop
  exact hg.op b (mem_blocks_of_block hb) op hop

theorem Named.guardOf (hg : g.Named) {i : BlockId} {e : Edge} (he : e ∈ g.edgesOf i) {r : Rvalue}
    (hr : e.guard = some r) :
    r.Plain ∨ ∃ s label, g.NamedSite s ∧ label ∈ s.labels ∧ r = s.guard label := by
  obtain ⟨b, hb, he⟩ := mem_edgesOf.1 he
  exact hg.guard b (mem_blocks_of_block hb) e he r hr

theorem Named.over_pass (hg : g.Named) (hfresh : FreshIn P g.stored) {i : BlockId}
    (hjoins : JoinsIn P g.stored i) {p : Progress} (hp : g.ArrivalsOver P p) {c : Passage}
    (h : g.pass i p = .ok (some c)) : ∃ a defs assumed,
      join i (p.arrivals i) = .ok (some (a, defs)) ∧ c.definitions = p.definitions ++ defs ∧
      c.condition = Term.mkAnd (a.condition :: assumed) ∧ c.store.Over g.stored P ∧
      (∀ t ∈ assumed, t.Over P) ∧ a.JoinsOver P i (p.arrivals i) defs := by
  obtain ⟨a, defs, s, assumed, hjoin, hexec, rfl⟩ := pass_eq_some h
  obtain ⟨hstore, hcases⟩ := over_join hjoins (hp i) hjoin
  obtain ⟨hs, hassumed⟩ := over_execute hg.named hfresh (hg.opsOf i) hstore (by simp) hexec
  exact ⟨a, defs, assumed, hjoin, rfl, rfl, hs, hassumed, hcases⟩

theorem ArrivalsOver.visitBlock (hg : g.Named) (hfresh : FreshIn P g.stored) {i : BlockId}
    (hjoins : JoinsIn P g.stored i) {p p' : Progress} (hp : g.ArrivalsOver P p)
    (h : visitBlock g target relevant i p = .ok (.inr p')) : g.ArrivalsOver P p' := by
  rcases visitBlock_inr h with ⟨-, rfl⟩ | ⟨-, c, hpass, hfollow⟩
  · exact hp
  · -- Only the store at the end of the block is handed on.
    obtain ⟨-, -, -, -, -, -, hc, -⟩ := hg.over_pass hfresh hjoins hp hpass
    intro j b hb
    rcases mem_arrivals_follow hfollow hb with hb | ⟨e, -, -, t, -, rfl⟩
    · exact hp j b hb
    · exact hc

theorem Named.site (hg : g.Named) (hs : s ∈ g.sitesIn within) : g.NamedSite s ∧ s.labels ≠ [] := by
  rw [sitesIn, mem_filterMap] at hs
  obtain ⟨n, hn, hfound⟩ := hs
  rw [Order.sortNats, Order.mem_sort, mem_eraseDups, mem_flatMap] at hn
  obtain ⟨b, hb, hn⟩ := hn
  obtain ⟨e, he, hn⟩ := mem_filterMap.1 hn
  obtain ⟨r, hr, hn⟩ := Option.bind_eq_some_iff.1 hn
  rcases hg.guard b (mem_filter.1 hb).1 e he r hr with hr | ⟨s', label, hs', hlabel, rfl⟩
  · rw [hr.site?] at hn
    cases hn
  · cases hn
    obtain rfl := Option.some.inj (hfound.symm.trans hs'.found)
    exact ⟨hs', ne_nil_of_mem hlabel⟩

end FlowGraph

end Named

/-! ### The form of an unknown -/

namespace FlowGraph

variable {g : FlowGraph} {target : Target} {P : Symbol → Prop}

/-- The form of an unknown of a query. -/
inductive Describes (g : FlowGraph) (target : Target) : Unknown → Prop
  | havoc {b k x n loc path sort} : b ∈ g.blocks → b.ops[k]? = some (.havoc x n loc) →
      x ∈ g.stored → Identifiers path →
      Describes g target ⟨.havoc b.id k path, ⟨leafName (freshName x n) path, sort⟩⟩
  | joined {block x path sort} : x ∈ g.stored → Identifiers path → Describes g target
      ⟨.joined block x.uid path,
        ⟨leafName (x.display ++ "@join" ++ toString block) path, sort⟩⟩
  | edge (block i) : Describes g target (edgeUnknown block i)
  | guard {s label} : g.NamedSite s → label ∈ s.labels →
      Describes g target ⟨.guard s.id (s.labels.idxOf label), ⟨s.guardName label, .bool⟩⟩
  | observed (key sort) :
      Describes g target ⟨.observed key, ⟨target.id ++ "|" ++ key, sort⟩⟩

variable {block : BlockId}

theorem describes_storeUnknowns {s : Store} (hs : s.Over g.stored P) :
    ∀ a ∈ storeUnknowns block others s, g.Describes target a := by
  induction s with
  | nil => exact forall_mem_nil _
  | cons q rest ih =>
    obtain ⟨uid, v, w⟩ := q
    obtain ⟨⟨⟨huid, hv⟩, hw⟩, hrest⟩ := forall_mem_cons.1 hs
    obtain rfl : uid = v.uid := huid
    refine forall_mem_append.2 ⟨?_, ih hrest⟩
    split
    · refine forall_mem_map.2 fun q hq => ?_
      obtain ⟨path, sort, rfl, hpath⟩ := leafOf_mergeUnknowns w _ _ _ hw q hq
      exact .joined hv hpath
    · exact forall_mem_nil _

theorem describes_joinUnknowns (hall : ∀ b ∈ arrivals, b.store.Over g.stored P) :
    ∀ a ∈ joinUnknowns block arrivals, g.Describes target a := by
  fun_cases joinUnknowns block arrivals with
  | case1 | case2 => exact forall_mem_nil _
  | case3 first others =>
    exact forall_mem_append.2
      ⟨forall_mem_map.2 fun k _ => .edge _ _, describes_storeUnknowns (hall first mem_cons_self)⟩

theorem describes_havocUnknowns (hg : g.Named) (hb : b ∈ g.blocks) :
    ∀ a ∈ havocUnknowns b.id b.ops, g.Describes target a := by
  intro a ha
  obtain ⟨⟨op, k⟩, hmem, ha⟩ := mem_flatMap.1 ha
  have hop := mk_mem_zipIdx_iff_getElem?.1 hmem
  cases op with
  | assign | assume => cases ha
  | havoc x n loc =>
    obtain ⟨q, hq, rfl⟩ := mem_map.1 ha
    have hx : x ∈ g.stored := mem_stored hb (mem_of_getElem? hop) rfl
    obtain ⟨path, sort, rfl, hpath⟩ := leafOf_unknowns x.ty _ _ (hg.named x hx).ty q hq
    exact .havoc hb hop hx hpath

theorem describes_guardUnknown (hg : g.Named) (i : BlockId) :
    ∀ a ∈ (g.guardsRead target relevant i).map g.guardUnknown, g.Describes target a := by
  intro a ha
  obtain ⟨q, hq, rfl⟩ := mem_map.1 ha
  rw [guardsRead, mem_append] at hq
  rcases hq with hq | hq
  · -- Operations read no guards.
    obtain ⟨op, hop, hq⟩ := mem_flatMap.1 hq
    rw [(hg.opsOf i op hop).guards] at hq
    cases hq
  · split at hq
    · cases hq
    · obtain ⟨e, he, hq⟩ := mem_flatMap.1 hq
      cases hguard : e.guard with
      | none => simp [hguard] at hq
      | some r =>
        rw [hguard] at hq
        rcases hg.guardOf (mem_filter.1 he).1 hguard with hr | ⟨s, label, hs, hl, rfl⟩
        · rw [Option.map_some, Option.getD_some, Rvalue.guards_of_plain r hr] at hq
          cases hq
        · obtain rfl := mem_singleton.1 hq
          have hdesc : g.Describes target _ := .guard hs hl
          simpa [guardUnknown, hs.found] using hdesc

theorem describes_unknownsAt (hg : g.Named) {i : BlockId} {p : Progress} (hp : g.ArrivalsOver P p) :
    ∀ a ∈ g.unknownsAt target relevant i p, g.Describes target a := by
  rw [unknownsAt]
  split
  · refine forall_mem_append.2 ⟨forall_mem_append.2 ⟨describes_joinUnknowns (hp i), ?_⟩,
      describes_guardUnknown hg i⟩
    rw [opsOf]
    cases hb : g.block? i with
    | none => exact forall_mem_nil _
    | some b =>
      rw [← id_of_block hb]
      exact describes_havocUnknowns hg (mem_blocks_of_block hb)
  · exact forall_mem_nil _

theorem describes_unknownsFrom (hg : g.Named) {order : List BlockId} {p : Progress}
    (hp : g.ArrivalsOver (fun _ => True) p) :
    ∀ a ∈ g.unknownsFrom target relevant order p, g.Describes target a := by
  induction order generalizing p with
  | nil => exact forall_mem_nil _
  | cons i rest ih =>
    refine forall_mem_append.2 ⟨describes_unknownsAt hg hp, ?_⟩
    split
    · rename_i p' hvisit
      have hleaves : ∀ name, HasLeaves (fun _ => True) name := fun _ _ _ _ => trivial
      exact ih (hp.visitBlock hg (fun _ _ _ => hleaves _) (fun _ _ => hleaves _) hvisit)
    · exact forall_mem_nil _

theorem NamedSite.describes (hs : g.NamedSite s) : ∀ a ∈ siteUnknowns s, g.Describes target a := by
  intro a ha
  obtain ⟨⟨label, k⟩, hmem, rfl⟩ := mem_map.1 ha
  obtain ⟨hlt, rfl⟩ := List.getElem?_eq_some_iff.1 (mk_mem_zipIdx_iff_getElem?.1 hmem)
  have hdesc : g.Describes target _ := .guard hs (getElem_mem hlt)
  rwa [hs.nodup.idxOf_getElem] at hdesc

theorem describes_observations (h : Visits g target relevant order p out) :
    ∀ q ∈ out.2, g.Describes target ⟨.observed q.1, q.2⟩ := by
  induction h with
  | nil => exact forall_mem_nil _
  | found h =>
    obtain ⟨-, c, -, rfl⟩ := visitBlock_inl h
    intro q hq
    obtain ⟨t, -, hsym⟩ := ((c.keysBound target).made q hq).resolve_left not_mem_nil
    rw [hsym]
    exact .observed q.1 t.sort
  | next _ _ ih => exact ih

theorem describes_of_mem_unknowns (hg : g.Named)
    (hq : (g.generate exclusive target token).1 = .ok q) :
    ∀ a ∈ g.unknowns target q, g.Describes target a := by
  obtain ⟨-, hvisits, -⟩ := generate_eq_ok hq
  exact forall_mem_append.2 ⟨forall_mem_append.2
    ⟨describes_unknownsFrom hg (arrivalsOver_start g),
      forall_mem_flatMap.2 fun s hs => (hg.site hs).1.describes⟩,
    forall_mem_map.2 (describes_observations hvisits)⟩

/-! ### Equal symbols -/

/-- What an unknown stands for if its name reads as a shape. -/
def OriginOf (g : FlowGraph) : NameShape → Origin → Prop
  | .fresh _ number chars, o => ∃ b ∈ g.blocks, ∃ k x n loc path,
      b.ops[k]? = some (.havoc x n loc) ∧ Identifiers path ∧ number = (toString n).toList ∧
      chars = pathChars path ∧ o = .havoc b.id k path
  | .joined display number chars, o => ∃ block, ∃ x ∈ g.stored, ∃ path, Identifiers path ∧
      display = x.display.toList ∧ number = (toString block).toList ∧ chars = pathChars path ∧
      o = .joined block x.uid path
  | .edge number chars, o => ∃ block i, number = (toString block).toList ∧
      chars = (toString i).toList ∧ o = .edge block i
  | .guard _ number chars, o => ∃ s label, g.NamedSite s ∧ label ∈ s.labels ∧
      number = (toString s.id).toList ∧ chars = label.toList ∧
      o = .guard s.id (s.labels.idxOf label)
  | .observed _ _ chars, o => ∃ key, chars = key.toList ∧ o = .observed key

theorem Describes.read (hg : g.Named) (htarget : IsDotted target.control)
    (h : g.Describes target a) :
    ∃ shape, NameShape.read a.symbol.name.toList = some shape ∧ g.OriginOf shape a.origin := by
  cases h with
  | @havoc b k x n loc path _ hb hop hx hpath =>
    exact ⟨_, NameShape.read_freshName (hg.named x hx).display n hpath,
      b, hb, k, x, n, loc, path, hop, hpath, rfl, rfl, rfl⟩
  | @joined block x path _ hx hpath =>
    exact ⟨_, NameShape.read_joinName (hg.named x hx).display block path,
      block, x, hx, path, hpath, rfl, rfl, rfl, rfl⟩
  | edge block i => exact ⟨_, NameShape.read_edgeName block i, block, i, rfl, rfl, rfl⟩
  | @guard s label hs hl =>
    exact ⟨_, NameShape.read_guardName hs.table label, s, label, hs, hl, rfl, rfl, rfl⟩
  | observed key sort => exact ⟨_, NameShape.read_observedName htarget key, key, rfl, rfl⟩

/-- A shape tells what an unknown stands for, but of a joined variable only its name. -/
theorem OriginOf.eq_or_joined (hg : g.Named) (h : g.OriginOf shape o) (h' : g.OriginOf shape o') :
    o = o' ∨ ∃ block, ∃ x ∈ g.stored, ∃ y ∈ g.stored, ∃ path, x.display = y.display ∧
      o = .joined block x.uid path ∧ o' = .joined block y.uid path := by
  cases shape with
  | fresh =>
    obtain ⟨b, hb, k, x, n, loc, path, hop, hpath, rfl, rfl, rfl⟩ := h
    obtain ⟨b', hb', k', x', n', loc', path', hop', hpath', hn, hchars, rfl⟩ := h'
    obtain rfl := toString_nat_inj hn
    obtain rfl := pathChars_inj hpath hpath' hchars
    obtain ⟨hid, rfl⟩ := hg.fresh b hb b' hb' k k' _ _ n hop hop' rfl rfl
    rw [hid]
    exact .inl rfl
  | joined =>
    obtain ⟨block, x, hx, path, hpath, rfl, rfl, rfl, rfl⟩ := h
    obtain ⟨block', y, hy, path', hpath', hdisplay, hblock, hchars, rfl⟩ := h'
    obtain rfl := toString_int_inj hblock
    obtain rfl := pathChars_inj hpath hpath' hchars
    exact .inr ⟨block, x, hx, y, hy, path, String.toList_inj.1 hdisplay, rfl, rfl⟩
  | edge =>
    obtain ⟨block, i, rfl, rfl, rfl⟩ := h
    obtain ⟨block', i', hblock, hi, rfl⟩ := h'
    rw [toString_int_inj hblock, toString_nat_inj hi]
    exact .inl rfl
  | guard =>
    obtain ⟨s, label, hs, -, rfl, rfl, rfl⟩ := h
    obtain ⟨s', label', hs', -, hid, hlabel, rfl⟩ := h'
    have hfound := hs.found
    rw [toString_nat_inj hid, hs'.found, Option.some.injEq] at hfound
    rw [hfound, String.toList_inj.1 hlabel]
    exact .inl rfl
  | observed =>
    obtain ⟨key, rfl, rfl⟩ := h
    obtain ⟨key', hkey, rfl⟩ := h'
    rw [String.toList_inj.1 hkey]
    exact .inl rfl

theorem Describes.symbol_of_joined (hg : g.Named) (h : g.Describes target a) (hx : x ∈ g.stored)
    (ho : a.origin = .joined block x.uid path) :
    a.symbol.name = leafName (x.display ++ "@join" ++ toString block) path := by
  cases h with
  | havoc | edge | guard | observed => cases ho
  | @joined block' y path' sort hy hpath =>
    injection ho with hblock huid hpath
    rw [hg.unique y hy x hx huid, hblock, hpath]

/-- Two unknowns for different things have one symbol exactly if they are joined values, at one
block and path, of variables of one name and sort. -/
theorem symbol_eq_iff_joined {p : Program} (hp : Identifiers p.names) {calls : Option CallGraph}
    {d : ControlDecl} (hd : d ∈ p.controls) {g : FlowGraph}
    (hok : ofControl p.globals.scope calls d = (g, [])) {t : Target} (ht : t ∈ g.targets)
    {exclusive : Bool} {token : Token} {q : Query}
    (hq : (g.generate exclusive t token).1 = .ok q) {a b : Unknown} (ha : a ∈ g.unknowns t q)
    (hb : b ∈ g.unknowns t q) (hne : a.origin ≠ b.origin) :
    a.symbol = b.symbol ↔ ∃ block, ∃ x ∈ g.stored, ∃ y ∈ g.stored, ∃ path,
      x.display = y.display ∧ a.origin = .joined block x.uid path ∧
        b.origin = .joined block y.uid path ∧ a.symbol.sort = b.symbol.sort := by
  obtain ⟨⟨built⟩, -⟩ := ofControl_built hok
  have hg := built.named hp hd
  have hda := describes_of_mem_unknowns hg hq a ha
  have hdb := describes_of_mem_unknowns hg hq b hb
  constructor
  · intro h
    obtain ⟨shape, hshape, hoa⟩ := hda.read hg (hg.target t ht).control
    obtain ⟨shape', hshape', hob⟩ := hdb.read hg (hg.target t ht).control
    rw [h, hshape', Option.some.injEq] at hshape
    subst hshape
    rcases hoa.eq_or_joined hg hob with heq | ⟨block, x, hx, y, hy, path, hdisplay, hoa, hob⟩
    · exact absurd heq hne
    · exact ⟨block, x, hx, y, hy, path, hdisplay, hoa, hob, by rw [h]⟩
  · rintro ⟨block, x, hx, y, hy, path, hdisplay, hoa, hob, hsort⟩
    have hna := hda.symbol_of_joined hg hx hoa
    have hnb := hdb.symbol_of_joined hg hy hob
    rw [← hdisplay, ← hna] at hnb
    obtain ⟨_, name, sort⟩ := a
    obtain ⟨_, name', sort'⟩ := b
    cases hnb
    cases hsort
    rfl

end FlowGraph

/-! ### A variable that hides a parameter -/

namespace Shadow

def ref (x : String) : Expr := .var x none

def store (x : String) (b : Bool) : Stmt := .assign (ref x) (.bool b none) none

def control : ControlDecl where
  name := "c"
  params := [⟨.input, .bool none, "y", none⟩, ⟨.inout, .bool none, "x", none⟩]
  locals := [.action ⟨"set", [], .mk [store "x" true] none, none⟩]
  body := .mk [
    .variable ⟨.bool none, "x", some (.bool true none), none⟩,
    .branch (ref "y") (.mk [store "x" false, .call (ref "set") [] none none] none) none none,
    .call (ref "bug") [] none none] none
  loc := none

def program : Program := ⟨[.control control], ""⟩

theorem mem_controls : control ∈ program.controls := mem_cons_self

def graph : FlowGraph := (FlowGraph.ofControl program.globals.scope none control).1

def goal : Target := graph.targets.headD ⟨"", 0, .bug, 0, "", none, []⟩

def query : Query :=
  match (graph.generate true goal .never).1 with
  | .ok q => q
  | .error _ => ⟨goal, Term.ff, [], [], []⟩

theorem evaluated : Identifiers program.names ∧
    (FlowGraph.ofControl program.globals.scope none control).2 = [] ∧
    graph.targets.isEmpty = false ∧ (graph.generate true goal .never).1.isOk = true ∧
    ((graph.unknowns goal query).map fun a => (a.origin, a.symbol)) =
    [(.havoc 0 0 [], ⟨"y@0", .bool⟩), (.havoc 0 1 [], ⟨"x@1", .bool⟩),
      (.edge 2 0, ⟨"edge@2.0", .bool⟩), (.edge 2 1, ⟨"edge@2.1", .bool⟩),
      (.joined 2 1 [], ⟨"x@join2", .bool⟩), (.joined 2 2 [], ⟨"x@join2", .bool⟩),
      (.observed "y", ⟨"c#0|y", .bool⟩), (.observed "x", ⟨"c#0|x", .bool⟩)] := by
  decide +kernel

theorem identifiers : Identifiers program.names := evaluated.1

theorem ofControl_eq : FlowGraph.ofControl program.globals.scope none control = (graph, []) := by
  rw [graph, ← evaluated.2.1]

theorem mem_targets : goal ∈ graph.targets := headD_mem evaluated.2.2.1

theorem generate_eq : (graph.generate true goal .never).1 = .ok query := by
  obtain ⟨q, hq⟩ := exists_ok evaluated.2.2.2.1
  rw [query, hq]

theorem exists_symbol_eq : ∃ a ∈ graph.unknowns goal query, ∃ b ∈ graph.unknowns goal query,
    a.origin ≠ b.origin ∧ a.symbol = b.symbol := by
  have hmem : ∀ uid ∈ [1, 2], ∃ a ∈ graph.unknowns goal query,
      (a.origin, a.symbol) = (.joined 2 uid [], ⟨"x@join2", .bool⟩) := by
    intro uid huid
    refine mem_map.1 ?_
    rw [evaluated.2.2.2.2]
    revert uid
    decide
  obtain ⟨a, ha, hpa⟩ := hmem 1 (by decide)
  obtain ⟨b, hb, hpb⟩ := hmem 2 (by decide)
  rw [Prod.mk.injEq] at hpa hpb
  refine ⟨a, ha, b, hb, ?_, hpa.2.trans hpb.2.symm⟩
  rw [hpa.1, hpb.1]
  decide

end Shadow

theorem FlowGraph.symbol_eq_iff_joined_shadow :
    ∃ a ∈ Shadow.graph.unknowns Shadow.goal Shadow.query,
      ∃ b ∈ Shadow.graph.unknowns Shadow.goal Shadow.query,
        a.origin ≠ b.origin ∧ a.symbol = b.symbol ∧
        ∃ block, ∃ x ∈ Shadow.graph.stored, ∃ y ∈ Shadow.graph.stored, ∃ path,
          x.display = y.display ∧ a.origin = .joined block x.uid path ∧
          b.origin = .joined block y.uid path ∧ a.symbol.sort = b.symbol.sort := by
  obtain ⟨a, ha, b, hb, hne, hsymbol⟩ := Shadow.exists_symbol_eq
  exact ⟨a, ha, b, hb, hne, hsymbol, (FlowGraph.symbol_eq_iff_joined Shadow.identifiers
    Shadow.mem_controls Shadow.ofControl_eq Shadow.mem_targets Shadow.generate_eq ha hb hne).1 hsymbol⟩

/-- A variable may hide another of the same name, and both may be written in one branch. -/
theorem FlowGraph.not_forall_distinct_unknowns :
    ¬ ∀ (p : Program) (calls : Option CallGraph) (d : ControlDecl) (g : FlowGraph) (t : Target)
      (exclusive : Bool) (token : Token) (q : Query), Identifiers p.names → d ∈ p.controls →
      ofControl p.globals.scope calls d = (g, []) → t ∈ g.targets →
      (g.generate exclusive t token).1 = .ok q → Unknown.Distinct (g.unknowns t q) := by
  intro h
  obtain ⟨a, ha, b, hb, hne, hsymbol⟩ := Shadow.exists_symbol_eq
  exact hne (h Shadow.program none Shadow.control Shadow.graph Shadow.goal true .never Shadow.query
    Shadow.identifiers Shadow.mem_controls Shadow.ofControl_eq Shadow.mem_targets Shadow.generate_eq
    a ha b hb hsymbol)

end ControlReach
