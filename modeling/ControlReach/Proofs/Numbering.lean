import ControlReach.Proofs.ElaborationSteps
import ControlReach.Proofs.PlanLayout

/-!
# The numbers that an elaboration gives out

Arbitrary values, table sites and error locations are numbered one after another, in the order in
which they stand in the plan.
-/

namespace ControlReach

open List

/-- The numbers one after another, from `n` on and before `n'`. -/
def Counts (n : Nat) (l : List Nat) (n' : Nat) : Prop := Consecutive n l ∧ n' = n + l.length

variable {n : Nat} {l : Layout}

namespace Counts

theorem nil (n : Nat) : Counts n [] n := ⟨rfl, rfl⟩

theorem single (n : Nat) : Counts n [n] (n + 1) := ⟨rfl, rfl⟩

theorem append {n'' : Nat} {l l' : List Nat} (h : Counts n l n') (h' : Counts n' l' n'') :
    Counts n (l ++ l') n'' := by
  obtain ⟨h, rfl⟩ := h
  obtain ⟨h', rfl⟩ := h'
  exact ⟨consecutive_append.2 ⟨h, h'⟩, by rw [length_append, Nat.add_assoc]⟩

theorem nodup {l : List Nat} (h : Counts n l n') : l.Nodup := by
  rw [h.1]
  exact nodup_range'

end Counts

def Op.fresh? : Op → Option Nat
  | .havoc _ n _ => some n
  | _ => none

/-- The number of the read-only variable that an operation stores. -/
def Op.fixes? (op : Op) : Option Nat :=
  (op.target?.filter Variable.readOnly).map Variable.uid

def Op.Whole : Op → Prop
  | .assign v path _ _ => v.readOnly = true → path = []
  | _ => True

namespace Elaborate

namespace Output

def ops : Output → List Op
  | .plan a => a.ops
  | .arms a => a.ops

def sites : Output → List TableSite
  | .plan a => a.sites
  | .arms a => a.sites

def targets : Output → List Target
  | .plan a => a.targets
  | .arms a => a.targets

end Output

def Job.owner : Job → String
  | .statements ctx _ _ | .statement ctx _ _ _ | .action ctx _ _ _ _ _ | .control ctx _ _ _ _
  | .arms ctx _ _ _ _ => ctx.control

/-- The numbers in what is elaborated are those between two counters. -/
structure Numbered (control : String) (c : Counters) (ops : List Op) (sites : List TableSite)
    (targets : List Target) (c' : Counters) : Prop where
  fixed : ∃ uids, Counts c.uid uids c'.uid ∧ ops.filterMap Op.fixes? <+ uids
  whole : ∀ op ∈ ops, op.Whole
  fresh : Counts c.fresh (ops.filterMap Op.fresh?) c'.fresh
  site : Counts c.site (sites.map TableSite.id) c'.site
  miss : ∀ s ∈ sites, s.labels.getLast? = some TableSite.miss
  target : Counts c.target (targets.map Target.index) c'.target
  owner : ∀ t ∈ targets, t.control = control

namespace Numbered

variable {control : String} {c : Counters}

theorem uid (h : Numbered control c ops sites targets c₁) : c.uid ≤ c₁.uid := by
  obtain ⟨uids, ⟨-, huid⟩, -⟩ := h.fixed
  omega

theorem append (h : Numbered control c ops sites targets c₁)
    (h' : Numbered control c₁ ops' sites' targets' c₂) :
    Numbered control c (ops ++ ops') (sites ++ sites') (targets ++ targets') c₂ where
  fixed := by
    obtain ⟨uids, huids, hsub⟩ := h.fixed
    obtain ⟨uids', huids', hsub'⟩ := h'.fixed
    rw [filterMap_append]
    exact ⟨_, huids.append huids', hsub.append hsub'⟩
  whole := forall_mem_append.2 ⟨h.whole, h'.whole⟩
  fresh := by
    rw [filterMap_append]
    exact h.fresh.append h'.fresh
  site := by
    rw [map_append]
    exact h.site.append h'.site
  miss := forall_mem_append.2 ⟨h.miss, h'.miss⟩
  target := by
    rw [map_append]
    exact h.target.append h'.target
  owner := forall_mem_append.2 ⟨h.owner, h'.owner⟩

theorem raised {t : Target} (hindex : t.index = c.target) (howner : t.control = control) :
    Numbered control c [] [] [t] { c with target := c.target + 1 } :=
  ⟨⟨[], .nil _, .slnil⟩, forall_mem_nil _, .nil _, .nil _, forall_mem_nil _,
    hindex ▸ .single _, forall_mem_singleton.2 howner⟩

end Numbered

/-! ### Operations in a row -/

/-- A plan that only stores and assumes, with the numbers between two counters. -/
structure Straight (c : Counters) (a : Plan) (c' : Counters) : Prop where
  sites : a.sites = []
  targets : a.targets = []
  counts : ∀ control, Numbered control c a.ops [] [] c'

namespace Straight

variable {c : Counters} {v : Variable}

theorem numbered (h : Straight c a c₁) (control : String) :
    Numbered control c a.ops a.sites a.targets c₁ := by
  rw [h.sites, h.targets]
  exact h.counts control

theorem target (h : Straight c a c₁) : c₁.target = c.target := (h.counts "").target.2

theorem seq (h : Straight c a c₁) (h' : Straight c₁ b c₂) : Straight c (.seq a b) c₂ :=
  ⟨append_eq_nil_iff.2 ⟨h.sites, h'.sites⟩, append_eq_nil_iff.2 ⟨h.targets, h'.targets⟩,
    fun control => (h.counts control).append (h'.counts control)⟩

theorem noting (h : Straight c a c₁) (inlined : List String) (pending : List PendingAction) :
    Straight c a { c₁ with inlined, pending } :=
  ⟨h.sites, h.targets, fun control =>
    have hc := h.counts control
    ⟨hc.fixed, hc.whole, hc.fresh, hc.site, hc.miss, hc.target, hc.owner⟩⟩

theorem skip (c : Counters) : Straight c .skip c :=
  ⟨rfl, rfl, fun _ => ⟨⟨[], .nil _, .slnil⟩, forall_mem_nil _, .nil _, .nil _, forall_mem_nil _,
    .nil _, forall_mem_nil _⟩⟩

theorem op {op : Op} (hfixed : ∃ uids, Counts c.uid uids uid ∧ [op].filterMap Op.fixes? <+ uids)
    (hwhole : op.Whole) (hfresh : Counts c.fresh ([op].filterMap Op.fresh?) fresh) :
    Straight c (.op op) { c with uid, fresh } :=
  ⟨rfl, rfl, fun _ => ⟨hfixed, forall_mem_singleton.2 hwhole, hfresh, .nil _, forall_mem_nil _,
    .nil _, forall_mem_nil _⟩⟩

theorem exists_fixed {op : Op} (htarget : op.target? = some v) (hv : v.uid = c.uid) :
    ∃ uids, Counts c.uid uids (c.uid + 1) ∧ [op].filterMap Op.fixes? <+ uids := by
  refine ⟨[c.uid], .single _, ?_⟩
  cases hread : v.readOnly <;> simp [Op.fixes?, htarget, hread, hv]

theorem copy (hv : v.uid = c.uid) :
    Straight c (.op (.assign v [] e loc)) { c with uid := c.uid + 1 } :=
  .op (exists_fixed rfl hv) (fun _ => rfl) (.nil _)

theorem havoc (hv : v.uid = c.uid) : Straight c (.op (.havoc v c.fresh loc))
    { c with uid := c.uid + 1, fresh := c.fresh + 1 } :=
  .op (exists_fixed rfl hv) trivial (.single _)

theorem write (hv : v.readOnly = false) (c : Counters) : Straight c (.op (.assign v path e loc)) c :=
  .op ⟨[], .nil _, by simp [Op.fixes?, Op.target?, hv]⟩ (by simp [Op.Whole, hv]) (.nil _)

theorem assume (c : Counters) : Straight c (.op (.assume e loc)) c :=
  .op ⟨[], .nil _, .slnil⟩ trivial (.nil _)

end Straight

variable {c c' : Counters} {depth : Nat}

theorem DeclaresVariable.straight (h : DeclaresVariable ctx s d c a s' c') : Straight c a c' := by
  cases h with
  | initial => exact .copy rfl
  | arbitrary => exact .havoc rfl

theorem DeclaresLocals.straight {l : List Local} (h : DeclaresLocals ctx s l c a s' c') :
    Straight c a c' := by
  induction h with
  | nil => exact (Straight.skip _).noting _ _
  | declare hd _ ih => exact hd.straight.seq ih
  | name _ _ ih => exact ih

theorem BindsInputs.straight {l : List Parameter} (h : BindsInputs s l c a s' c') :
    Straight c a c' := by
  induction h with
  | nil => exact .skip _
  | cons _ _ _ ih => exact .seq (.havoc rfl) ih

theorem FillsFormals.straight (hfill : FillsFormals loc s formals n a s' n')
    (hbind : BindsFormals ctx home caller loc uid bound formals) (c : Counters)
    (inlined : List String) : Straight { c with uid, fresh := n } a
      { c with uid := uid + formals.length, fresh := n', inlined } := by
  induction hfill generalizing uid bound with
  | nil => exact (Straight.skip _).noting _ _
  | copy hcopy _ _ ih =>
    obtain _ | ⟨hf, hbind⟩ := hbind
    rw [length_cons, ← Nat.succ_add_eq_add_succ]
    cases hf with
    | input | inout =>
      cases hcopy
      exact .seq (.copy rfl) (ih hbind)
    | output | arbitrary => cases hcopy
  | arbitrary _ _ _ ih =>
    obtain _ | ⟨hf, hbind⟩ := hbind
    rw [length_cons, ← Nat.succ_add_eq_add_succ]
    refine .seq (.havoc ?_) (ih hbind)
    cases hf <;> rfl

theorem BindsFormals.straight_backPlan (h : BindsFormals ctx home caller loc uid bound formals)
    (c : Counters) : Straight c (backPlan loc formals) c := by
  induction h with
  | nil => exact .skip _
  | cons hf _ ih =>
    cases hf with
    | inout _ _ hplace | output _ _ hplace =>
      obtain ⟨-, -, -, -, hv, -⟩ := Scope.place_eq_ok hplace
      exact .seq (.write hv c) ih
    | input | arbitrary => exact ih

theorem Elaborates.labels (h : Elaborates depth (.arms ctx table home loc refs) c (.arms arms) c') :
    arms.labels = refs.map ActionRef.name ++ [TableSite.miss] := by
  induction refs generalizing c arms with
  | nil => cases h <;> rfl
  | cons ref refs ih =>
    cases h with
    | arm _ _ hrest => rw [Arms.labels, ih hrest]; rfl

theorem Elaborates.numbered (h : Elaborates depth job c out c') :
    Numbered job.owner c out.ops out.sites out.targets c' := by
  induction h with
  | nil | constant | miss => exact (Straight.skip _).numbered _
  | cons _ _ ih₁ ih₂ | ifElse _ _ _ ih₁ ih₂ | arm _ _ _ ih₁ ih₂ => exact ih₁.append ih₂
  | block _ ih | ifThen _ _ ih | callAction _ _ _ _ ih | callControl _ _ _ _ ih => exact ih
  | assign hplace =>
    obtain ⟨-, -, -, -, hv, -⟩ := Scope.place_eq_ok hplace
    exact (Straight.write hv _).numbered _
  | assume => exact (Straight.assume _).numbered _
  | declare hd => exact hd.straight.numbered _
  | bug | assert => exact .raised rfl rfl
  | callTable _ _ _ harms ih =>
    refine ⟨ih.fixed, ih.whole, ih.fresh, (Counts.single _).append ih.site,
      forall_mem_cons.2 ⟨?_, ih.miss⟩, ih.target, ih.owner⟩
    rw [harms.labels]
    exact getLast?_concat
  | action _ _ hbind hfill _ ih =>
    exact ((hfill.straight hbind _ _).numbered _).append
      (ih.append ((hbind.straight_backPlan _).numbered _))
  | control _ _ _ hbind hfill hlocals _ ih =>
    exact ((hfill.straight hbind _ _).numbered _).append ((hlocals.straight.numbered _).append
      (ih.append ((hbind.straight_backPlan _).numbered _)))
  | default _ _ _ ih => exact ih.append ((Straight.skip _).numbered _)

theorem ElaboratesControl.numbered (h : ElaboratesControl depth ctx globals d a c) :
    Numbered ctx.control ⟨0, 0, 0, 0, [], []⟩ a.ops a.sites a.targets c := by
  cases h with
  | mk hinputs hlocals hbody =>
    exact (hinputs.straight.numbered _).append ((hlocals.straight.numbered _).append hbody.numbered)

end Elaborate

/-! ### Layouts -/

/-- A layout has the numbers given out so far, each once. -/
structure Layout.Counted (control : String) (l : Layout) (c : Counters) : Prop where
  valid : l.Valid
  fresh : (l.ops.filterMap Op.fresh?).Perm (range c.fresh)
  site : l.sites.map TableSite.id = range c.site
  miss : ∀ s ∈ l.sites, s.labels.getLast? = some TableSite.miss
  target : l.targets.map Target.index = range c.target
  owner : ∀ t ∈ l.targets, t.control = control

theorem Counts.range_append {l : List Nat} (h : Counts n l n') : range n ++ l = range n' := by
  obtain ⟨h, rfl⟩ := h
  rw [range_eq_range', range_eq_range', h, length_range', ← range'_append_1, Nat.zero_add]

namespace Layout

variable {control : String} {c c' : Counters} {a : Plan}

theorem valid_initial : initial.Valid where
  id := by
    intro i b h
    obtain ⟨hi, rfl⟩ := List.getElem?_eq_some_iff.1 h
    have : i = 0 := Nat.lt_one_iff.1 hi
    subst this
    rfl
  current := Nat.zero_lt_one
  edge := by
    intro i c h e he
    obtain ⟨b, hb, rfl⟩ := Option.map_eq_some_iff.1 h
    obtain rfl := mem_singleton.1 (mem_of_getElem? hb)
    cases he

theorem counted_initial (control : String) : initial.Counted control ⟨0, 0, 0, 0, [], []⟩ :=
  ⟨valid_initial, .refl _, rfl, forall_mem_nil _, rfl, forall_mem_nil _⟩

namespace Counted

variable (h : l.Counted control c)

include h

theorem sites_lay (ha : Elaborate.Numbered control c a.ops a.sites a.targets c') :
    (a.lay l).sites = l.sites ++ a.sites := by
  refine a.sites_lay ?_
  have hlen : l.sites.length = c.site := by
    rw [← length_map TableSite.id, h.site, length_range]
  rw [hlen]
  exact ha.site.1

/-- A plan whose numbers follow those of a layout is laid out with its numbers. -/
theorem lay (ha : Elaborate.Numbered control c a.ops a.sites a.targets c') :
    (a.lay l).Counted control c' where
  valid := a.valid_lay h.valid
  fresh := by
    refine ((a.ops_lay h.valid).filterMap Op.fresh?).trans ?_
    rw [filterMap_append, ← ha.fresh.range_append]
    exact h.fresh.append_right _
  site := by rw [h.sites_lay ha, map_append, h.site, ha.site.range_append]
  miss := h.sites_lay ha ▸ forall_mem_append.2 ⟨h.miss, ha.miss⟩
  target := by
    rw [a.map_targets_lay (fun _ _ => rfl), h.target, ha.target.range_append]
  owner := by
    rw [← forall_mem_map (P := (· = control)), a.map_targets_lay (fun _ _ => rfl), forall_mem_append,
      forall_mem_map, forall_mem_map]
    exact ⟨h.owner, ha.owner⟩

theorem detach (label : String) : ((l.newBlock label).goTo l.size).Counted control c :=
  { h with
    valid := (h.valid.newBlock label).goTo (by simp)
    fresh := by
      rw [Layout.ops_goTo, Layout.ops_newBlock]
      exact h.fresh }

theorem forget : l.Counted control { c with pending := [] } :=
  ⟨h.valid, h.fresh, h.site, h.miss, h.target, h.owner⟩

end Counted

end Layout

namespace Elaborate

theorem ElaboratesControl.counted (h : ElaboratesControl depth ctx globals d a c) :
    (a.lay .initial).Counted ctx.control { c with pending := [] } :=
  ((Layout.counted_initial _).lay h.numbered).forget

theorem Detaches.counted (h : Detaches depth ctx actions c l c' l') (hl : l.Counted ctx.control c) :
    l'.Counted ctx.control c' := by
  induction h with
  | nil => exact hl
  | skip _ _ ih => exact ih hl
  | round _ ih => exact ih hl.forget
  | cons _ ha _ ih => exact ih ((hl.detach _).lay ha.numbered)

end Elaborate

end ControlReach
