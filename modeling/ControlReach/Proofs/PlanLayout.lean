import ControlReach.Proofs.Plan
import Mathlib.Data.List.Forall2

/-!
# The layout of a plan

A plan is laid out at the end of the current block. It adds operations to that block and then
leaves it for new ones, so all other blocks stay as they are.
-/

namespace ControlReach

open List

namespace Layout

def code (l : Layout) (i : Nat) : Option (List Op × List Edge) :=
  (l.blocks[i]?).map fun b => (b.ops, b.edges)

variable (l : Layout)

theorem code_isSome_iff (i : Nat) : (l.code i).isSome ↔ i < l.size := by
  simp [code, size]

variable (label : String) (kind : EdgeKind) (guard : Option Rvalue) (t : Target) (condition : Rvalue)

@[simp] theorem size_newBlock : (l.newBlock label).size = l.size + 1 := by
  simp [newBlock, size]

@[simp] theorem size_modifyBlock (i : Nat) (f : FlowBlock → FlowBlock) :
    (l.modifyBlock i f).size = l.size := by
  simp [modifyBlock, size]

@[simp] theorem size_connect (i j : Nat) : (l.connect i j kind guard).size = l.size := by
  simp [connect]

@[simp] theorem size_goTo (i : Nat) : (l.goTo i).size = l.size := rfl

@[simp] theorem size_openFrom (i : Nat) : (l.openFrom i label kind guard).size = l.size + 1 := by
  simp [openFrom]

@[simp] theorem size_leaveTo (i : Nat) : (l.leaveTo i).size = l.size := by
  simp [leaveTo]

@[simp] theorem size_emit (op : Op) : (l.emit op).size = l.size := by
  simp [emit]

@[simp] theorem size_addTarget : (l.addTarget t).size = l.size := rfl

@[simp] theorem size_newTarget : (l.newTarget t).size = l.size + 1 := by
  simp [newTarget]

@[simp] theorem size_raise : (l.raise t guard).size = l.size + 1 := by
  simp [raise]

@[simp] theorem size_newSite (table : String) (loc : Option Location) :
    (l.newSite table loc).size = l.size := rfl

@[simp] theorem size_addLabel (site : Nat) : (l.addLabel site label).size = l.size := rfl

@[simp] theorem size_closeThen (start : Nat) : (l.closeThen start condition).size = l.size + 1 := by
  simp [closeThen]

@[simp] theorem size_closeElse (exit join : Nat) : (l.closeElse exit join).size = l.size := by
  simp [closeElse]

@[simp] theorem size_openTable (name : String) (site : TableSite) :
    (l.openTable name site).size = l.size + 1 := by
  simp [openTable]

@[simp] theorem size_openArm (name : String) (site : TableSite) (start : Nat) :
    (l.openArm name site start label kind).size = l.size + 1 := by
  simp [openArm]

@[simp] theorem current_goTo (i : Nat) : (l.goTo i).current = i := rfl

@[simp] theorem current_newBlock : (l.newBlock label).current = l.current := rfl

@[simp] theorem current_connect (i j : Nat) :
    (l.connect i j kind guard).current = l.current := rfl

@[simp] theorem current_openFrom (i : Nat) :
    (l.openFrom i label kind guard).current = l.size := rfl

@[simp] theorem current_newTarget : (l.newTarget t).current = l.current := rfl

@[simp] theorem current_emit (op : Op) : (l.emit op).current = l.current := rfl

@[simp] theorem current_closeThen (start : Nat) :
    (l.closeThen start condition).current = l.size := rfl

@[simp] theorem current_closeElse (exit join : Nat) : (l.closeElse exit join).current = join := rfl

theorem code_newBlock (i : Nat) :
    (l.newBlock label).code i = if i = l.size then some ([], []) else l.code i := by
  unfold code newBlock size
  rw [getElem?_append]
  split
  · rw [if_neg (by omega)]
  · split
    · simp [*]
    · rw [getElem?_eq_none (by simp; omega), getElem?_eq_none (by omega)]

variable {f : FlowBlock → FlowBlock}

theorem code_modifyBlock (i : Nat) (change : List Op × List Edge → List Op × List Edge)
    (h : ∀ b, ((f b).ops, (f b).edges) = change (b.ops, b.edges)) (j : Nat) :
    (l.modifyBlock i f).code j = if i = j then (l.code j).map change else l.code j := by
  unfold code modifyBlock
  rw [getElem?_modify]
  split <;> cases l.blocks[j]? <;> simp [h]

theorem code_modifyBlock_of_eq (i : Nat) (h : ∀ b, ((f b).ops, (f b).edges) = (b.ops, b.edges))
    (j : Nat) : (l.modifyBlock i f).code j = l.code j := by
  rw [code_modifyBlock l i id h, Option.map_id, id, ite_self]

@[simp] theorem code_goTo (i j : Nat) : (l.goTo i).code j = l.code j := rfl

@[simp] theorem code_newSite (table : String) (loc : Option Location) (i : Nat) :
    (l.newSite table loc).code i = l.code i := rfl

@[simp] theorem code_addLabel (site i : Nat) : (l.addLabel site label).code i = l.code i := rfl

theorem code_connect (i j k : Nat) :
    (l.connect i j kind guard).code k = if i = k then
      (l.code k).map fun c => (c.1, c.2 ++ [⟨j, kind, guard⟩]) else l.code k := by
  rw [connect, code_modifyBlock_of_eq]
  · rw [code_modifyBlock l i fun c => (c.1, c.2 ++ [⟨j, kind, guard⟩])]
    exact fun _ => rfl
  · exact fun _ => rfl

theorem code_emit (op : Op) (i : Nat) :
    (l.emit op).code i = if l.current = i then (l.code i).map fun c => (c.1 ++ [op], c.2)
      else l.code i :=
  code_modifyBlock l l.current (fun c => (c.1 ++ [op], c.2)) (fun _ => rfl) i

theorem code_newTarget (i : Nat) :
    (l.newTarget t).code i = if i = l.size then some ([], []) else l.code i := by
  rw [newTarget, code_modifyBlock_of_eq]
  · exact code_newBlock l t.kind.text i
  · exact fun _ => rfl

variable {l label kind guard}

theorem code_connect_of_ne (h : i ≠ k) (j : Nat) :
    (l.connect i j kind guard).code k = l.code k := by
  rw [code_connect, if_neg h]

theorem code_openFrom_of_ne (h : i ≠ k) (hk : k < l.size) :
    (l.openFrom i label kind guard).code k = l.code k := by
  rw [openFrom, code_goTo, code_connect_of_ne h, code_newBlock, if_neg (by omega)]

theorem block_modifyBlock (h : (l.modifyBlock i f).blocks[j]? = some b) :
    ∃ b', l.blocks[j]? = some b' ∧ b = if i = j then f b' else b' := by
  rw [modifyBlock, getElem?_modify] at h
  obtain ⟨b', hb', rfl⟩ := Option.map_eq_some_iff.1 h
  exact ⟨b', hb', rfl⟩

/-! ### Valid layouts -/

/-- The numbers of blocks are their positions, and whatever is referred to is a block. -/
structure Valid (l : Layout) : Prop where
  id : ∀ {i : Nat} {b : FlowBlock}, l.blocks[i]? = some b → b.id = i
  current : l.current < l.size
  edge : ∀ {i : Nat} {c : List Op × List Edge}, l.code i = some c →
    ∀ e ∈ c.2, ∃ j < l.size, e.target = (j : Int)

namespace Valid

variable (label kind guard) (h : l.Valid)

include h

theorem newBlock : (l.newBlock label).Valid where
  id {i b} hb := by
    rw [Layout.newBlock, getElem?_append] at hb
    split at hb
    · exact h.id hb
    · rename_i hi
      obtain ⟨h0, rfl⟩ := List.getElem?_eq_some_iff.1 hb
      have h1 : i - l.blocks.length < 1 := h0
      rw [getElem_singleton]
      exact congrArg Nat.cast (by omega)
  current := by
    have := h.current
    simp only [current_newBlock, size_newBlock]
    omega
  edge {i c} hc e he := by
    rw [code_newBlock] at hc
    split at hc
    · cases hc
      cases he
    · obtain ⟨j, hj, htarget⟩ := h.edge hc e he
      exact ⟨j, by simp only [size_newBlock]; omega, htarget⟩

theorem modifyBlock (i : Nat) (hid : ∀ b, (f b).id = b.id)
    (hedge : ∀ b, ∀ e ∈ (f b).edges, e ∈ b.edges ∨ ∃ j < l.size, e.target = (j : Int)) :
    (l.modifyBlock i f).Valid where
  id {k b} hb := by
    obtain ⟨b', hb', rfl⟩ := block_modifyBlock hb
    rw [← h.id hb']
    split
    · exact hid b'
    · rfl
  current := by
    rw [size_modifyBlock]
    exact h.current
  edge {k c} hc e he := by
    obtain ⟨b, hb, rfl⟩ := Option.map_eq_some_iff.1 hc
    obtain ⟨b', hb', rfl⟩ := block_modifyBlock hb
    have hold := h.edge (Option.map_eq_some_iff.2 ⟨b', hb', rfl⟩)
    rw [size_modifyBlock]
    split at he
    · rcases hedge b' e he with he | hj
      · exact hold e he
      · exact hj
    · exact hold e he

theorem goTo (hi : i < l.size) : (l.goTo i).Valid :=
  ⟨h.id, hi, h.edge⟩

theorem connect (i : Nat) {j : Nat} (hj : j < l.size) : (l.connect i j kind guard).Valid := by
  refine modifyBlock (modifyBlock h i ?_ ?_) j ?_ ?_
  · exact fun _ => rfl
  · intro b e he
    rcases mem_append.1 he with he | he
    · exact .inl he
    · obtain rfl := mem_singleton.1 he
      exact .inr ⟨j, hj, rfl⟩
  · exact fun _ => rfl
  · exact fun _ _ he => .inl he

theorem openFrom (i : Nat) : (l.openFrom i label kind guard).Valid :=
  ((h.newBlock label).connect kind guard i (by simp)).goTo (by simp)

theorem leaveTo (hi : i < l.size) : (l.leaveTo i).Valid :=
  h.connect .fallthrough none l.current hi

theorem emit (op : Op) : (l.emit op).Valid :=
  modifyBlock h l.current (fun _ => rfl) fun _ _ he => .inl he

theorem addTarget : (l.addTarget t).Valid := ⟨h.id, h.current, h.edge⟩

theorem newTarget : (l.newTarget t).Valid :=
  modifyBlock ((h.newBlock t.kind.text).addTarget (l.place t)) l.size (fun _ => rfl)
    fun _ _ he => .inl he

theorem newSite (table : String) (loc : Option Location) :
    (l.newSite table loc).Valid := ⟨h.id, h.current, h.edge⟩

theorem addLabel (site : Nat) : (l.addLabel site label).Valid :=
  ⟨h.id, h.current, h.edge⟩

theorem openThen : (l.openThen condition).Valid :=
  h.openFrom "then" .condTrue (some condition) l.current

theorem openElse (start : Nat) : (l.openElse start condition).Valid :=
  (h.newBlock "join").openFrom "else" .condFalse (some (.not condition)) start

theorem openTable (name : String) (site : TableSite) : (l.openTable name site).Valid :=
  (h.newSite site.table site.loc).newBlock (name ++ "-join")

theorem openArm (name : String) (site : TableSite) (start : Nat) :
    (l.openArm name site start label kind).Valid :=
  (h.addLabel label site.id).openFrom (name ++ "." ++ label) kind (some (site.guard label)) start

end Valid

end Layout

/-! ### What a layout leaves alone -/

namespace Layout

def Touched (i : Nat) (l l' : Layout) (k : Nat) : Prop := k = i ∨ (l.size ≤ k ∧ k < l'.size)

/-- A layout is made from another by elementary changes, which leave its blocks but `i` alone. -/
inductive Extends (i : Nat) (l : Layout) : Layout → Prop
  | refl : Extends i l l
  | newBlock {l' : Layout} (label : String) : Extends i l l' → Extends i l (l'.newBlock label)
  | newTarget {l' : Layout} (t : Target) : Extends i l l' → Extends i l (l'.newTarget t)
  | connect {l' : Layout} {k j : Nat} (kind : EdgeKind) (guard : Option Rvalue) : Extends i l l' →
      Touched i l l' k → j < l'.size → Extends i l (l'.connect k j kind guard)
  | emit {l' : Layout} (op : Op) : Extends i l l' → Touched i l l' l'.current →
      Extends i l (l'.emit op)
  | goTo {l' : Layout} {k : Nat} : Extends i l l' → l.size ≤ k → k < l'.size →
      Extends i l (l'.goTo k)
  | sites {l' : Layout} (sites : List TableSite) : Extends i l l' → Extends i l { l' with sites }

variable {l l'' : Layout}

section

variable (h : Touched i l l' k)

include h

theorem Touched.mono (hsize : l'.size ≤ l''.size) : Touched i l l'' k :=
  h.imp_right fun h => ⟨h.1, Nat.lt_of_lt_of_le h.2 hsize⟩

theorem Touched.lt_size (hi : i < l'.size) : k < l'.size := by
  rcases h with rfl | h
  · exact hi
  · exact h.2

theorem Touched.ne (hj : j < l.size) (hne : i ≠ j) : k ≠ j := by
  rcases h with rfl | h
  · exact hne
  · exact Nat.ne_of_gt (Nat.lt_of_lt_of_le hj h.1)

end

namespace Extends

theorem size_le (h : Extends i l l') : l.size ≤ l'.size := by
  induction h with
  | refl => exact Nat.le_refl _
  | newBlock | newTarget =>
    simp only [size_newBlock, size_newTarget]
    omega
  | connect | emit | goTo => simpa
  | sites _ _ ih => exact ih

theorem current (h : Extends i l l') :
    l'.current = l.current ∨ (l.size ≤ l'.current ∧ l'.current < l'.size) := by
  induction h with
  | refl => exact .inl rfl
  | newBlock | newTarget =>
    simp only [current_newBlock, current_newTarget, size_newBlock, size_newTarget]
    omega
  | connect _ _ _ _ _ ih | emit _ _ _ ih => simpa using ih
  | goTo _ hk hk' => exact .inr ⟨hk, hk'⟩
  | sites _ _ ih => exact ih

theorem code (h : Extends i l l') (hk : k < l.size) (hne : i ≠ k) : l'.code k = l.code k := by
  induction h with
  | refl => rfl
  | newBlock _ h ih =>
    have := h.size_le
    rw [code_newBlock, if_neg (by omega), ih]
  | newTarget _ h ih =>
    have := h.size_le
    rw [code_newTarget, if_neg (by omega), ih]
  | connect _ _ _ hi _ ih => rw [code_connect_of_ne (hi.ne hk hne), ih]
  | emit _ _ hi ih => rw [code_emit, if_neg (hi.ne hk hne), ih]
  | goTo _ _ _ ih | sites _ _ ih => exact ih

theorem valid (h : Extends i l l') (hl : l.Valid) : l'.Valid := by
  induction h with
  | refl => exact hl
  | newBlock label _ ih => exact ih.newBlock label
  | newTarget t _ ih => exact ih.newTarget t
  | connect kind guard _ _ hj ih => exact ih.connect kind guard _ hj
  | emit op _ _ ih => exact ih.emit op
  | goTo _ _ hk ih => exact ih.goTo hk
  | sites _ _ ih => exact ⟨ih.id, ih.current, ih.edge⟩

theorem touched (h : Extends l.current l l') : Touched l.current l l' l'.current := h.current

theorem trans (h : Extends i l l') (h' : Extends j l' l'') (hj : Touched i l l' j) :
    Extends i l l'' := by
  have hsize := h.size_le
  have htouched : ∀ {l'' k}, Extends j l' l'' → Touched j l' l'' k → Touched i l l'' k := by
    rintro l'' k h' (rfl | hk)
    · exact hj.mono h'.size_le
    · exact .inr ⟨by omega, hk.2⟩
  induction h' with
  | refl => exact h
  | newBlock label _ ih => exact ih.newBlock label
  | newTarget t _ ih => exact ih.newTarget t
  | connect kind guard h' hk hj ih => exact ih.connect kind guard (htouched h' hk) hj
  | emit op h' hk ih => exact ih.emit op (htouched h' hk)
  | goTo _ hk hk' ih => exact ih.goTo (Nat.le_trans hsize hk) hk'
  | sites sites _ ih => exact ih.sites sites

theorem openFrom (h : Extends i l l') (hk : Touched i l l' k) (label : String) (kind : EdgeKind)
    (guard : Option Rvalue) : Extends i l (l'.openFrom k label kind guard) := by
  refine .goTo (.connect kind guard (h.newBlock label) (hk.mono ?_) ?_) h.size_le ?_ <;> simp

theorem raise (h : Extends i l l') (hk : Touched i l l' l'.current) (t : Target)
    (guard : Option Rvalue) : Extends i l (l'.raise t guard) :=
  .connect .assertFail guard (h.newTarget t) (hk.mono (by simp)) (by simp)

theorem branch (h : Extends i l l') (hk : Touched i l l' k) {label : String} {kind : EdgeKind}
    {guard : Option Rvalue} (h' : Extends l'.size (l'.openFrom k label kind guard) l'') :
    Extends i l l'' ∧ l'.size ≤ l''.current ∧ l''.current < l''.size := by
  have hsize := h.size_le
  have hsize' := h'.size_le
  have hcurrent := h'.current
  rw [current_openFrom, size_openFrom] at hcurrent
  rw [size_openFrom] at hsize'
  refine ⟨(h.openFrom hk label kind guard).trans h' (.inr ⟨hsize, by simp⟩), ?_⟩
  omega

theorem targets (h : Extends i l l') : ∃ ts, l'.targets = l.targets ++ ts ∧
    ∀ t ∈ ts, ∃ n : Nat, t.block = n ∧ l.size ≤ n := by
  induction h with
  | refl => exact ⟨[], (append_nil _).symm, forall_mem_nil _⟩
  | @newTarget l' t h ih =>
    obtain ⟨ts, hts, hnew⟩ := ih
    refine ⟨ts ++ [l'.place t], ?_, forall_mem_append.2 ⟨hnew, ?_⟩⟩
    · rw [← append_assoc, ← hts]
      rfl
    · exact forall_mem_singleton.2 ⟨_, rfl, h.size_le⟩
  | newBlock _ _ ih | sites _ _ ih | connect _ _ _ _ _ ih
  | emit _ _ _ ih | goTo _ _ _ ih => exact ih

end Extends

end Layout

open Layout

mutual

theorem Plan.extends_lay : ∀ (a : Plan) (l : Layout), l.Extends l.current (a.lay l)
  | .skip, _ => .refl
  | .op op, _ => .emit op .refl (.inl rfl)
  | .seq a b, l => (a.extends_lay l).trans (b.extends_lay _) (a.extends_lay l).touched
  | .ifThen e yes, l => by
    obtain ⟨hyes, hexit, hexit'⟩ := Extends.refl.branch (.inl rfl) (yes.extends_lay (l.openThen e))
    refine (hyes.openFrom (.inl rfl) "join" .condFalse _).connect .fallthrough none ?_ ?_
    · exact .inr ⟨hexit, by rw [size_openFrom]; omega⟩
    · simp
  | .ifElse e yes no, l => by
    obtain ⟨hyes, hexit, hexit'⟩ := Extends.refl.branch (.inl rfl) (yes.extends_lay (l.openThen e))
    obtain ⟨hno, hend, hend'⟩ := (hyes.newBlock "join").branch (.inl rfl)
      (no.extends_lay ((yes.lay (l.openThen e)).openElse l.current e))
    rw [size_newBlock] at hend
    refine ((hno.connect .fallthrough none (.inr ⟨by omega, hend'⟩) ?_).connect .fallthrough none
      (.inr ⟨hexit, ?_⟩) ?_).goTo (by omega) ?_
    all_goals
      try simp only [size_connect]
      omega
  | .choose name site arms, l => by
    have hjoin : l.size < (l.openTable name site).size := by simp
    have htable : l.Extends l.current (l.openTable name site) :=
      .newBlock _ (.sites (l.newSite site.table site.loc).sites .refl)
    have harms := arms.extends_lay name site l.current l.size hjoin
    exact (htable.trans harms (.inl rfl)).goTo (Nat.le_refl _) (Nat.lt_of_lt_of_le hjoin harms.size_le)
  | .bug t, l => by
    have hraise : l.Extends l.current (l.raise t none) := Extends.refl.raise (.inl rfl) t none
    exact (hraise.newBlock "after-bug").goTo hraise.size_le (by simp)
  | .assert t e, _ => (Extends.refl.raise (.inl rfl) t _).openFrom (.inl rfl) "assert-ok" .condTrue _

theorem Arms.extends_lay (name : String) (site : TableSite) (start join : Nat) :
    ∀ (arms : Arms) {l : Layout}, join < l.size → l.Extends start (arms.lay name site start join l)
  | .nil, _, _ => .refl
  | .cons label kind body rest, l, hjoin => by
    obtain ⟨hbody, hexit, hexit'⟩ := (Extends.refl.sites (l.addLabel site.id label).sites).branch
      (.inl rfl) (body.extends_lay (l.openArm name site start label kind))
    have hjoin' := Nat.lt_of_lt_of_le hjoin hbody.size_le
    have hleave := hbody.connect .fallthrough none (.inr ⟨hexit, hexit'⟩) hjoin'
    refine hleave.trans (rest.extends_lay name site start join ?_) (.inl rfl)
    simpa using hjoin'

end

namespace Plan

variable (a : Plan) {l : Layout}

theorem size_le_lay (l : Layout) : l.size ≤ (a.lay l).size := (a.extends_lay l).size_le

theorem valid_lay (h : l.Valid) : (a.lay l).Valid := (a.extends_lay l).valid h

theorem current_lay_ne (hk : k < l.size) (hne : l.current ≠ k) : (a.lay l).current ≠ k :=
  (a.extends_lay l).touched.ne hk hne

theorem code_lay (hk : k < l.size) (hne : l.current ≠ k) : (a.lay l).code k = l.code k :=
  (a.extends_lay l).code hk hne

end Plan

/-! ### What a layout consists of -/

variable {α : Type}

theorem flatMap_modify_of_eq {β : Type} {f : α → α} {g : α → List β} (h : ∀ x, g (f x) = g x)
    (l : List α) (i : Nat) : (l.modify i f).flatMap g = l.flatMap g := by
  induction l generalizing i with
  | nil => cases i <;> rfl
  | cons x l ih => cases i <;> simp [h, ih]

theorem perm_flatMap_modify {β : Type} {f : α → α} {g : α → List β} {y : β} {l : List α} {i : Nat}
    (hi : i < l.length) (h : ∀ x, l[i]? = some x → g (f x) = g x ++ [y]) :
    ((l.modify i f).flatMap g).Perm (l.flatMap g ++ [y]) := by
  induction l generalizing i with
  | nil => cases hi
  | cons x l ih =>
    cases i with
    | zero =>
      simp only [modify_zero_cons, flatMap_cons, h x rfl, append_assoc]
      exact (perm_append_comm).append_left _
    | succ i =>
      simp only [modify_succ_cons, flatMap_cons, append_assoc]
      exact (ih (Nat.lt_of_succ_lt_succ hi) h).append_left _

namespace Layout

def ops (l : Layout) : List Op := l.blocks.flatMap FlowBlock.ops

variable (l : Layout) (label : String) (kind : EdgeKind) (guard : Option Rvalue)

@[simp] theorem ops_newBlock : (l.newBlock label).ops = l.ops := by
  simp [newBlock, ops]

@[simp] theorem ops_goTo (i : Nat) : (l.goTo i).ops = l.ops := rfl

@[simp] theorem ops_newSite (table : String) (loc : Option Location) :
    (l.newSite table loc).ops = l.ops := rfl

@[simp] theorem ops_connect (i j : Nat) : (l.connect i j kind guard).ops = l.ops := by
  unfold connect modifyBlock ops
  rw [flatMap_modify_of_eq, flatMap_modify_of_eq]
  · exact fun _ => rfl
  · exact fun _ => rfl

@[simp] theorem ops_openFrom (i : Nat) : (l.openFrom i label kind guard).ops = l.ops := by
  simp [openFrom]

@[simp] theorem ops_newTarget (t : Target) : (l.newTarget t).ops = l.ops := by
  refine Eq.trans (flatMap_modify_of_eq ?_ _ _) (l.ops_newBlock t.kind.text)
  exact fun _ => rfl

theorem ops_emit {l : Layout} (h : l.current < l.size) (op : Op) :
    (l.emit op).ops.Perm (l.ops ++ [op]) := perm_flatMap_modify h fun _ _ => rfl

end Layout

mutual

theorem Plan.ops_lay : ∀ (a : Plan) {l : Layout}, l.Valid → (a.lay l).ops.Perm (l.ops ++ a.ops)
  | .skip, l, _ => by simp [Plan.lay, Plan.ops]
  | .op op, l, h => ops_emit h.current op
  | .seq a b, l, h => by
    refine (b.ops_lay (a.valid_lay h)).trans ?_
    rw [Plan.ops, ← append_assoc]
    exact (a.ops_lay h).append_right _
  | .ifThen condition yes, l, h => by
    have hyes := yes.ops_lay (h.openThen condition)
    simpa [Plan.lay, Plan.ops, openThen, closeThen] using hyes
  | .ifElse condition yes no, l, h => by
    have hyes := yes.ops_lay (h.openThen condition)
    have hno := no.ops_lay ((yes.valid_lay (h.openThen condition)).openElse condition l.current)
    simp only [Plan.lay, Plan.ops, openThen, openElse, closeElse, leaveTo, ops_goTo, ops_connect,
      ops_openFrom, ops_newBlock] at hyes hno ⊢
    refine hno.trans ?_
    rw [← append_assoc]
    exact hyes.append_right _
  | .choose name site arms, l, h => by
    have := arms.ops_lay name site l.current l.size (by simp) (h.openTable name site)
    simpa [Plan.lay, Plan.ops, openTable] using this
  | .bug _, l, _ | .assert _ _, l, _ => by simp [Plan.lay, Plan.ops, raise]

theorem Arms.ops_lay (name : String) (site : TableSite) (start join : Nat) :
    ∀ (arms : Arms) {l : Layout}, join < l.size → l.Valid →
      (arms.lay name site start join l).ops.Perm (l.ops ++ arms.ops)
  | .nil, l, _, _ => by simp [Arms.lay, Arms.ops]
  | .cons label kind body rest, l, hjoin, h => by
    have hvalid := body.valid_lay (h.openArm label kind name site start)
    have hsize := body.size_le_lay (l.openArm name site start label kind)
    rw [size_openArm] at hsize
    have hjoin' : join < (body.lay (l.openArm name site start label kind)).size := by omega
    have hbody := body.ops_lay (h.openArm label kind name site start)
    have hrest := rest.ops_lay name site start join (by rwa [size_leaveTo])
      (hvalid.leaveTo hjoin')
    simp only [Arms.lay, Arms.ops, openArm, leaveTo, ops_connect, ops_openFrom] at hbody hrest ⊢
    refine hrest.trans ?_
    rw [← append_assoc]
    exact hbody.append_right _

end

/-! Table sites and error locations are numbered as they are made. -/

def Consecutive (n : Nat) (l : List Nat) : Prop := l = range' n l.length

theorem consecutive_append :
    Consecutive n (l ++ l') ↔ Consecutive n l ∧ Consecutive (n + l.length) l' := by
  unfold Consecutive
  rw [length_append, ← range'_append_1]
  constructor
  · intro h
    exact append_inj h (by simp)
  · rintro ⟨h, h'⟩
    rw [← h, ← h']

theorem consecutive_cons : Consecutive n (k :: l) ↔ k = n ∧ Consecutive (n + 1) l := by
  unfold Consecutive
  rw [length_cons, range'_succ, cons.injEq]

variable (sites : List TableSite)

def addLabels (i : Nat) (labels : List String) : List TableSite :=
  sites.modify i fun s => { s with labels := s.labels ++ labels }

theorem addLabels_nil (i : Nat) : addLabels sites i [] = sites := by
  refine (congrArg (sites.modify i) ?_).trans (modify_id _ _)
  funext s
  rw [append_nil]
  rfl

@[simp] theorem length_addLabels (i : Nat) (labels : List String) :
    (addLabels sites i labels).length = sites.length := length_modify _ _ _

theorem addLabels_addLabels (i : Nat) (labels labels' : List String) :
    addLabels (addLabels sites i labels) i labels' = addLabels sites i (labels ++ labels') := by
  unfold addLabels
  rw [modify_modify_eq]
  congr 1
  funext s
  simp

theorem addLabels_append {sites : List TableSite} (hi : i < sites.length) (more : List TableSite)
    (labels : List String) :
    addLabels (sites ++ more) i labels = addLabels sites i labels ++ more := by
  unfold addLabels
  induction sites generalizing i with
  | nil => cases hi
  | cons s sites ih =>
    cases i with
    | zero => rfl
    | succ i => simp [ih (Nat.lt_of_succ_lt_succ hi)]

theorem addLabels_concat (s : TableSite) (labels : List String) :
    addLabels (sites ++ [s]) sites.length labels =
      sites ++ [{ s with labels := s.labels ++ labels }] := by
  unfold addLabels
  induction sites with
  | nil => rfl
  | cons t sites ih => simp [ih]

mutual

theorem Plan.sites_lay : ∀ (a : Plan) {l : Layout},
    Consecutive l.sites.length (a.sites.map TableSite.id) → (a.lay l).sites = l.sites ++ a.sites
  | .skip, l, _ => by simp [Plan.lay, Plan.sites]
  | .op op, l, _ => by simp [Plan.lay, Plan.sites, emit, modifyBlock]
  | .seq a b, l, h => by
    rw [Plan.sites, map_append, consecutive_append, length_map] at h
    have ha := a.sites_lay h.1
    have hb := b.sites_lay (l := a.lay l) (by rw [ha, length_append]; exact h.2)
    rw [Plan.lay, hb, ha, Plan.sites, append_assoc]
  | .ifThen condition yes, l, h => yes.sites_lay (l := l.openThen condition) h
  | .ifElse condition yes no, l, h => by
    rw [Plan.sites, map_append, consecutive_append, length_map] at h
    have hyes := yes.sites_lay (l := l.openThen condition) h.1
    have hno := no.sites_lay (l := (yes.lay (l.openThen condition)).openElse l.current condition) <| by
      show Consecutive (yes.lay (l.openThen condition)).sites.length _
      rw [hyes, length_append]
      exact h.2
    refine hno.trans ?_
    show (yes.lay (l.openThen condition)).sites ++ no.sites = _
    rw [hyes, Plan.sites, ← append_assoc]
    rfl
  | .choose name site arms, l, h => by
    rw [Plan.sites, map_cons, consecutive_cons] at h
    obtain ⟨hid, hrest⟩ := h
    replace hid : site.id = l.sites.length := hid
    -- The site of the application is the last one when the choices are laid out.
    have hsites : (l.openTable name site).sites = l.sites ++ [{ site with labels := [] }] := by
      rw [hid]
      rfl
    refine (arms.sites_lay name site l.current l.size (l := l.openTable name site) ?_ ?_).trans ?_
    · simpa [hsites] using hrest
    · rw [hsites, length_append, hid]
      exact Nat.lt_succ_self _
    · have hlast := addLabels_concat l.sites { site with labels := [] } arms.labels
      rw [← hid] at hlast
      rw [hsites, hlast, Plan.sites, append_assoc]
      rfl
  | .bug _, l, _ | .assert _ _, l, _ => by
    rw [Plan.sites, append_nil]
    rfl

theorem Arms.sites_lay (name : String) (site : TableSite) (start join : Nat) :
    ∀ (arms : Arms) {l : Layout}, Consecutive l.sites.length (arms.sites.map TableSite.id) →
      site.id < l.sites.length →
      (arms.lay name site start join l).sites = addLabels l.sites site.id arms.labels ++ arms.sites
  | .nil, l, _, _ => by simp [Arms.lay, Arms.sites, Arms.labels, addLabels_nil]
  | .cons label kind body rest, l, h, hsite => by
    rw [Arms.sites, map_append, consecutive_append, length_map] at h
    have hbody : ((body.lay (l.openArm name site start label kind)).leaveTo join).sites =
        addLabels l.sites site.id [label] ++ body.sites := by
      refine body.sites_lay (l := l.openArm name site start label kind) ?_
      show Consecutive (addLabels l.sites site.id [label]).length _
      rw [length_addLabels]
      exact h.1
    have hsite' : site.id < (addLabels l.sites site.id [label]).length := by
      rwa [length_addLabels]
    have hrest := rest.sites_lay name site start join
      (l := (body.lay (l.openArm name site start label kind)).leaveTo join)
    rw [hbody, length_append, length_addLabels] at hrest
    rw [Arms.lay, hrest h.2 (by omega), addLabels_append hsite', addLabels_addLabels, Arms.labels,
      Arms.sites, append_assoc]
    rfl

end

variable {f : Target → α}

mutual

theorem Plan.map_targets_lay (hf : ∀ t i, f { t with block := i } = f t) :
    ∀ (a : Plan) (l : Layout), (a.lay l).targets.map f = l.targets.map f ++ a.targets.map f
  | .skip, l | .op _, l => (append_nil _).symm
  | .seq a b, l => by
    rw [Plan.lay, b.map_targets_lay hf, a.map_targets_lay hf, Plan.targets, map_append, append_assoc]
  | .ifThen condition yes, l => yes.map_targets_lay hf (l.openThen condition)
  | .ifElse condition yes no, l => by
    refine (no.map_targets_lay hf _).trans ?_
    show (yes.lay (l.openThen condition)).targets.map f ++ _ = _
    rw [yes.map_targets_lay hf, Plan.targets, map_append, append_assoc]
    rfl
  | .choose name site arms, l =>
    arms.map_targets_lay hf name site l.current l.size (l.openTable name site)
  | .bug t, l | .assert t _, l => by
    show (l.targets ++ [l.place t]).map f = _
    rw [map_append, map_singleton, place, hf]
    rfl

theorem Arms.map_targets_lay (hf : ∀ t i, f { t with block := i } = f t) (name : String)
    (site : TableSite) (start join : Nat) : ∀ (arms : Arms) (l : Layout),
      (arms.lay name site start join l).targets.map f = l.targets.map f ++ arms.targets.map f
  | .nil, l => (append_nil _).symm
  | .cons label kind body rest, l => by
    refine (rest.map_targets_lay hf name site start join _).trans ?_
    show (body.lay (l.openArm name site start label kind)).targets.map f ++ _ = _
    rw [body.map_targets_lay hf, Arms.targets, map_append, append_assoc]
    rfl

end

end ControlReach
