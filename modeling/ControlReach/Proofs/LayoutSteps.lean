import ControlReach.Proofs.ControlGraph

/-!
# What the elementary changes of a layout keep

A plan is laid out by a few elementary changes, so what each of them keeps holds of all layouts.
-/

namespace ControlReach

open List FlowBlock

/-! ### Predecessors -/

def FlowBlock.edgesTo (j : BlockId) (b : FlowBlock) : List BlockId :=
  (b.edges.filter fun e => e.target == j).map fun _ => b.id

namespace Layout

/-- The blocks from which edges lead to a block, each as often as edges do. -/
def sources (l : Layout) (j : BlockId) : List BlockId := l.blocks.flatMap (edgesTo j)

/-- Each block lists the blocks from which edges lead to it. -/
def Mirrored (l : Layout) : Prop :=
  ∀ (j : Nat) (b : FlowBlock), l.blocks[j]? = some b → b.predecessors.Perm (l.sources j)

variable {l : Layout} {j : Nat}

theorem Valid.sources_size (hl : l.Valid) : l.sources l.size = [] := by
  refine flatMap_eq_nil_iff.2 fun b hb => ?_
  obtain ⟨k, hk⟩ := mem_iff_getElem?.1 hb
  refine map_eq_nil_iff.2 (filter_eq_nil_iff.2 fun e he htarget => ?_)
  obtain ⟨m, hm, hem⟩ := hl.edge (Option.map_eq_some_iff.2 ⟨b, hk, rfl⟩) e he
  have : (m : Int) = l.size := hem.symm.trans (eq_of_beq htarget)
  omega

theorem sources_append_empty (b : FlowBlock) (hb : b.edges = []) (j : BlockId) :
    (l.blocks ++ [b]).flatMap (edgesTo j) = l.sources j := by
  rw [flatMap_append]
  simp [edgesTo, hb, sources]

theorem sources_newBlock (label : String) (j : BlockId) :
    (l.newBlock label).sources j = l.sources j := sources_append_empty _ rfl j

theorem sources_modifyBlock (hf : ∀ b, (f b).id = b.id ∧ (f b).edges = b.edges) (i : Nat)
    (j : BlockId) : (l.modifyBlock i f).sources j = l.sources j := by
  refine flatMap_modify_of_eq (fun b => ?_) _ _
  rw [edgesTo, edgesTo, (hf b).1, (hf b).2]

theorem Valid.sources_connect (hl : l.Valid) (hi : i < l.size) (kind : EdgeKind)
    (guard : Option Rvalue) (k : Nat) : ((l.connect i j kind guard).sources k).Perm
      (if k = j then l.sources k ++ [(i : Int)] else l.sources k) := by
  have hsource : (l.connect i j kind guard).sources k =
      (l.modifyBlock i fun b => { b with edges := b.edges ++ [⟨j, kind, guard⟩] }).sources k := by
    refine sources_modifyBlock ?_ j k
    exact fun _ => ⟨rfl, rfl⟩
  rw [hsource]
  split
  · rename_i hk
    subst hk
    refine perm_flatMap_modify hi fun b hb => ?_
    simp [edgesTo, hl.id hb]
  · rename_i hk
    refine Perm.of_eq (flatMap_modify_of_eq (fun b => ?_) _ _)
    have hne : ((j : Int) == (k : Int)) = false := by
      rw [beq_eq_false_iff_ne]
      omega
    simp [edgesTo, hne]

theorem Mirrored.newBlock (h : l.Mirrored) (hl : l.Valid) (label : String) :
    (l.newBlock label).Mirrored := by
  intro j b hb
  rw [sources_newBlock]
  rw [Layout.newBlock, getElem?_append] at hb
  split at hb
  · exact h j b hb
  · rename_i hle
    have hlt : j - l.blocks.length < 1 := (List.getElem?_eq_some_iff.1 hb).1
    have hj : j = l.size := by
      unfold size
      omega
    obtain rfl := mem_singleton.1 (mem_of_getElem? hb)
    rw [hj, hl.sources_size]

theorem Mirrored.modifyBlock (h : l.Mirrored)
    (hf : ∀ b, (f b).id = b.id ∧ (f b).edges = b.edges ∧ (f b).predecessors = b.predecessors)
    (i : Nat) : (l.modifyBlock i f).Mirrored := by
  intro j b hb
  rw [sources_modifyBlock fun b => ⟨(hf b).1, (hf b).2.1⟩]
  obtain ⟨b', hb', rfl⟩ := block_modifyBlock hb
  split
  · rw [(hf b').2.2]
    exact h j b' hb'
  · exact h j b' hb'

theorem Mirrored.connect (h : l.Mirrored) (hl : l.Valid) (hi : i < l.size) (kind : EdgeKind)
    (guard : Option Rvalue) : (l.connect i j kind guard).Mirrored := by
  intro k b hb
  refine Perm.trans ?_ (hl.sources_connect hi kind guard k).symm
  obtain ⟨b₁, hb₁, rfl⟩ := block_modifyBlock hb
  obtain ⟨b₂, hb₂, rfl⟩ := block_modifyBlock hb₁
  -- The change at the source leaves the predecessors as they are.
  have hkeep : (if i = k then { b₂ with edges := b₂.edges ++ [⟨j, kind, guard⟩] }
      else b₂ : FlowBlock).predecessors = b₂.predecessors := by
    split <;> rfl
  by_cases hjk : j = k
  · rw [if_pos hjk, if_pos hjk.symm]
    show (predecessors _ ++ [(i : Int)]).Perm _
    rw [hkeep]
    exact (h k b₂ hb₂).append_right _
  · rw [if_neg hjk, if_neg (Ne.symm hjk), hkeep]
    exact h k b₂ hb₂

theorem Extends.mirrored (h : Extends i l l') (hl : l.Valid) (hi : i < l.size)
    (hm : l.Mirrored) : l'.Mirrored := by
  induction h with
  | refl => exact hm
  | newBlock label h ih => exact ih.newBlock (h.valid hl) label
  | @newTarget l' t h ih =>
    have hblock := ih.newBlock (h.valid hl) t.kind.text
    refine Mirrored.modifyBlock (l := (l'.newBlock t.kind.text).addTarget (l'.place t)) hblock ?_
      l'.size
    exact fun _ => ⟨rfl, rfl, rfl⟩
  | connect kind guard h hk _ ih =>
    exact ih.connect (h.valid hl) (hk.lt_size (Nat.lt_of_lt_of_le hi h.size_le)) kind guard
  | @emit l' op _ _ ih =>
    refine Mirrored.modifyBlock ih ?_ l'.current
    exact fun _ => ⟨rfl, rfl, rfl⟩
  | goTo _ _ _ ih | sites _ _ ih => exact ih

theorem mirrored_initial : Layout.initial.Mirrored := by
  intro j b hb
  obtain rfl := mem_singleton.1 (mem_of_getElem? hb)
  exact .refl _

/-! ### The blocks of error locations -/

/-- Each error location is that of its block, and no block has another one. -/
def Marked (l : Layout) : Prop :=
  ∀ (j : Nat) (t : Target), l.target? j = some t ↔ t ∈ l.targets ∧ t.block = (j : Int)

theorem Marked.newTarget (h : l.Marked) (t : Target) : (l.newTarget t).Marked := by
  intro j t'
  show _ ↔ t' ∈ l.targets ++ [l.place t] ∧ _
  rw [target?_newTarget, mem_append, mem_singleton]
  split
  · rename_i hj
    subst hj
    constructor
    · rintro ⟨⟩
      exact ⟨.inr rfl, rfl⟩
    · rintro ⟨ht' | rfl, hblock⟩
      · cases l.target?_size.symm.trans ((h _ _).2 ⟨ht', hblock⟩)
      · rfl
  · rename_i hj
    refine (h j t').trans (and_congr_left fun hblock => (or_iff_left ?_).symm)
    rintro rfl
    exact hj (Int.ofNat.inj hblock.symm)

theorem Extends.marked (h : Extends i l l') (hm : l.Marked) : l'.Marked := by
  induction h with
  | refl => exact hm
  | newTarget t _ ih => exact ih.newTarget t
  | newBlock label _ ih => exact fun j t => (Iff.of_eq (by rw [target?_newBlock])).trans (ih j t)
  | connect _ _ _ _ _ ih => exact fun j t => (Iff.of_eq (by rw [target?_connect])).trans (ih j t)
  | emit op _ _ ih =>
    refine fun j t => (Iff.of_eq ?_).trans (ih j t)
    rw [Layout.emit, target?_modifyBlock]
    exact fun _ => rfl
  | goTo _ _ _ ih | sites _ _ ih => exact ih

theorem marked_initial : Layout.initial.Marked := by
  refine fun j t => iff_of_false ?_ nofun
  cases j <;> nofun

end Layout

namespace FlowGraph.Built

variable (b : Built globals calls d g)

theorem extends_layout : Layout.initial.Extends 0 b.layout :=
  (b.plan.extends_lay .initial).trans (b.detaches.extends 0) (.inl rfl)

theorem mirrored : b.layout.Mirrored :=
  b.extends_layout.mirrored Layout.valid_initial Nat.zero_lt_one Layout.mirrored_initial

theorem marked : b.layout.Marked := b.extends_layout.marked Layout.marked_initial

end FlowGraph.Built

end ControlReach
