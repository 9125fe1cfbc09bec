import ControlReach.Proofs.PlanLayout

/-!
# Plans in layouts

A layout holds a plan between two spots: its operations follow one another, and the edges of each
branch lead to error locations, to parts of the plan, and to the block where they end.
-/

namespace ControlReach

open List

/-- A place in a block: the operations that are left, and the edges. -/
structure Spot where
  block : Nat
  ops : List Op
  edges : List Edge

/-- Where a branch leads: to an error location, to its end, or to a plan. -/
inductive Goal where
  | stop (t : Target) (block : Nat)
  | join
  | body (a : Plan) (start : Spot) (last : Nat)

/-- One of the ways on from a branch. -/
structure Way where
  kind : EdgeKind
  guard : Option Rvalue
  goal : Goal

def Goal.block (join : Nat) : Goal → Nat
  | .stop _ n => n
  | .join => join
  | .body _ p _ => p.block

def Goal.plan : Goal → Plan
  | .stop t _ => .bug t
  | .join => .skip
  | .body a _ _ => a

def Way.edge (join : Nat) (w : Way) : Edge := ⟨w.goal.block join, w.kind, w.guard⟩

def Arms.Ways (site : TableSite) : Arms → List Way → Prop
  | .nil, ws => ws = []
  | .cons label kind body rest, ws => ∃ p n ws', rest.Ways site ws' ∧
      ws = ⟨kind, some (site.guard label), .body body p n⟩ :: ws'

def Plan.Ways : Plan → List Way → Prop
  | .skip, _ | .op _, _ | .seq _ _, _ => False
  | .ifThen e yes, ws => ∃ p n,
      ws = [⟨.condTrue, some e, .body yes p n⟩, ⟨.condFalse, some (.not e), .join⟩]
  | .ifElse e yes no, ws => ∃ p n p' n',
      ws = [⟨.condTrue, some e, .body yes p n⟩, ⟨.condFalse, some (.not e), .body no p' n'⟩]
  | .choose _ site arms, ws => arms.Ways site ws
  | .bug t, ws => ∃ n, ws = [⟨.assertFail, none, .stop t n⟩]
  | .assert t e, ws => ∃ n,
      ws = [⟨.assertFail, some (.not e), .stop t n⟩, ⟨.condTrue, some e, .join⟩]

namespace Layout

variable (l : Layout)

def Leads (i j : Nat) : Prop :=
  ∃ c, l.code i = some c ∧ ∃ e ∈ c.2, e.target = (j : Int)

def target? (i : Nat) : Option Target := (l.blocks[i]?).bind FlowBlock.target

/-- The spot is the start of a block, which is not that of an error location. -/
def Enters (p : Spot) : Prop :=
  l.code p.block = some (p.ops, p.edges) ∧ l.target? p.block = none

def EndsAt (t : Target) (n : Nat) : Prop :=
  l.code n = some ([], []) ∧ l.target? n = some { t with block := n }

def HasGoal : Goal → Prop
  | .stop t n => l.EndsAt t n
  | .join => True
  | .body _ p _ => l.Enters p

end Layout

def Spot.last (n join : Nat) : Spot := ⟨n, [], [⟨join, .fallthrough, none⟩]⟩

/-- A layout holds a plan between two spots. -/
inductive Plan.Laid (l : Layout) : Plan → Spot → Spot → Prop
  | skip (p : Spot) : Laid l .skip p p
  | op (i : Nat) (o : Op) (ops : List Op) (edges : List Edge) :
      Laid l (.op o) ⟨i, o :: ops, edges⟩ ⟨i, ops, edges⟩
  | seq {a b : Plan} {p q r : Spot} : Laid l a p q → Laid l b q r → Laid l (.seq a b) p r
  | fork {a : Plan} {ws : List Way} (i : Nat) {q : Spot} : a.Ways ws → l.Enters q →
      (∀ w ∈ ws, l.HasGoal w.goal) →
      (∀ w ∈ ws, ∀ b p n, w.goal = .body b p n → Laid l b p (.last n q.block)) →
      Laid l a ⟨i, [], ws.map (Way.edge q.block)⟩ q

/-! ### Error locations of blocks -/

namespace Layout

variable {l : Layout}

theorem target?_modifyBlock (hf : ∀ b, (f b).target = b.target) :
    (l.modifyBlock i f).target? k = l.target? k := by
  unfold target? modifyBlock
  rw [getElem?_modify]
  split <;> cases l.blocks[k]? <;> simp [hf]

theorem target?_newBlock (label : String) : (l.newBlock label).target? k = l.target? k := by
  unfold target? newBlock
  rw [getElem?_append]
  split
  · rfl
  · rename_i hk
    rw [getElem?_eq_none (Nat.not_lt.1 hk), getElem?_singleton]
    split <;> rfl

@[simp] theorem target?_connect {kind : EdgeKind} {guard : Option Rvalue} :
    (l.connect i j kind guard).target? k = l.target? k := by
  rw [connect, target?_modifyBlock, target?_modifyBlock] <;> exact fun _ => rfl

theorem target?_newTarget (t : Target) :
    (l.newTarget t).target? k = if k = l.size then some (l.place t) else l.target? k := by
  have hnew := l.target?_newBlock (k := k) t.kind.text
  unfold target? at hnew ⊢
  show (((l.newBlock t.kind.text).blocks.modify l.size _)[k]?).bind _ = _
  rw [getElem?_modify, ← hnew]
  split
  · rename_i hk
    subst hk
    simp [newBlock, size]
  · rename_i hk
    simp [Ne.symm hk]

theorem target?_size : l.target? l.size = none := by
  rw [target?, size, getElem?_eq_none (Nat.le_refl _)]
  rfl

theorem Extends.target? (h : Extends i l l') (hk : k < l.size) : l'.target? k = l.target? k := by
  induction h with
  | refl => rfl
  | newBlock label _ ih => rw [target?_newBlock, ih]
  | newTarget t h ih =>
    have := h.size_le
    rw [target?_newTarget, if_neg (by omega), ih]
  | connect _ _ _ _ _ ih => rw [target?_connect, ih]
  | emit _ _ _ ih =>
    rw [← ih]
    exact target?_modifyBlock fun _ => rfl
  | goTo _ _ _ ih | sites _ _ ih => exact ih

end Layout

/-! ### What is laid out -/

namespace Layout

variable {l l' L : Layout} {p q : Spot} {i k : Nat} {ops : List Op}

def Pending (l : Layout) : Prop := ∃ ops, l.code l.current = some (ops, [])

/-- `L` goes on from the current block of `l` at a spot. -/
structure GoesOn (l L : Layout) (p : Spot) : Prop where
  block : p.block = l.current
  code : ∃ ops, l.code l.current = some (ops, []) ∧
    L.code l.current = some (ops ++ p.ops, p.edges)

/-- `L` has the blocks by which `l'` differs from `l`, and goes on from `l'` at a spot. -/
structure Settles (l l' L : Layout) (q : Spot) : Prop where
  code : ∀ {k}, Touched l.current l l' k → k ≠ l'.current → L.code k = l'.code k
  target? : ∀ {k}, k < l'.size → L.target? k = l'.target? k
  goesOn : l'.GoesOn L q

theorem GoesOn.code_eq (h : l.GoesOn L p) (hcode : l.code l.current = some (ops, [])) :
    L.code l.current = some (ops ++ p.ops, p.edges) := by
  obtain ⟨ops', hops', hL⟩ := h.code
  cases hcode.symm.trans hops'
  exact hL

theorem Settles.enters (h : Settles l l' L q) (hcode : l'.code l'.current = some ([], []))
    (htarget : l'.target? l'.current = none) : L.Enters q := by
  have hlt : l'.current < l'.size := by
    rw [← l'.code_isSome_iff, hcode]
    rfl
  rw [Enters, h.goesOn.block, h.goesOn.code_eq hcode, h.target? hlt]
  exact ⟨rfl, htarget⟩

variable {label : String} {kind : EdgeKind} {guard : Option Rvalue}

theorem code_openFrom_new (hi : i < l.size) :
    (l.openFrom i label kind guard).code l.size = some ([], []) := by
  rw [openFrom, code_goTo, code_connect_of_ne (Nat.ne_of_lt hi), code_newBlock, if_pos rfl]

theorem target?_openFrom : (l.openFrom i label kind guard).target? k = l.target? k := by
  show ((l.newBlock label).connect i l.size kind guard).target? k = _
  rw [target?_connect, target?_newBlock]

theorem code_openFrom_source (hi : i < l.size) : (l.openFrom i label kind guard).code i =
      (l.code i).map fun c => (c.1, c.2 ++ [⟨l.size, kind, guard⟩]) := by
  rw [openFrom, code_goTo, code_connect, if_pos rfl, code_newBlock, if_neg (Nat.ne_of_lt hi)]

theorem code_raise_source (hi : l.current < l.size) (t : Target) :
    (l.raise t guard).code l.current =
      (l.code l.current).map fun c => (c.1, c.2 ++ [⟨l.size, .assertFail, guard⟩]) := by
  rw [raise, code_connect, if_pos rfl, code_newTarget, if_neg (Nat.ne_of_lt hi)]

end Layout

open Layout

/-- A layout has been made from another for a plan. -/
structure Plan.Lays (a : Plan) (l l' : Layout) : Prop where
  extends_lay : l.Extends l.current l'
  pending : l'.Pending
  laid : ∀ {L : Layout} {q : Spot}, Settles l l' L q → ∃ p, l.GoesOn L p ∧ a.Laid L p q

namespace Plan.Lays

variable {a : Plan} {l l' L : Layout} {k : Nat}

section Branch

variable {label : String} {kind : EdgeKind} {guard : Option Rvalue}
  (h : a.Lays (l.openFrom k label kind guard) l')

include h

theorem size_branch : l.size < l'.size := by
  have := h.extends_lay.size_le
  rwa [size_openFrom] at this

theorem current_branch : l.size ≤ l'.current ∧ l'.current < l'.size := by
  have hsize := h.size_branch
  have := h.extends_lay.current
  rw [current_openFrom, size_openFrom] at this
  omega

theorem target?_branch (hm : m ≤ l.size) : l'.target? m = l.target? m := by
  rw [h.extends_lay.target? (by rw [size_openFrom]; omega), target?_openFrom]

theorem code_branch (hm : m < l.size) : l'.code m = (l.openFrom k label kind guard).code m :=
  h.extends_lay.code (by rw [size_openFrom]; omega) (Nat.ne_of_gt hm)

theorem branch (hk : k < l.size)
    (hcode : ∀ m, l.size ≤ m → m < l'.size → m ≠ l'.current → L.code m = l'.code m)
    (hlast : L.code l'.current = (l'.leaveTo j).code l'.current)
    (htarget : ∀ m < l'.size, L.target? m = l'.target? m) :
    ∃ p, p.block = l.size ∧ L.Enters p ∧ a.Laid L p (.last l'.current j) := by
  obtain ⟨ops, hops⟩ := h.pending
  have hsize := h.size_branch
  rw [leaveTo, code_connect, if_pos rfl, hops] at hlast
  obtain ⟨p, hp, hlaid⟩ := h.laid (L := L) (q := .last _ j) {
    code := by
      rintro m (hm | hm) hne
      · exact hcode m (Nat.le_of_eq hm.symm) (by rw [hm, current_openFrom]; omega) hne
      · rw [size_openFrom] at hm
        exact hcode m (by omega) hm.2 hne
    target? := fun hm => htarget _ hm
    goesOn := ⟨rfl, ops, hops, by simpa [Spot.last] using hlast⟩ }
  refine ⟨p, hp.block, ⟨?_, ?_⟩, hlaid⟩
  · rw [hp.block]
    exact hp.code_eq (code_openFrom_new hk)
  · rw [hp.block, current_openFrom, htarget _ hsize, h.target?_branch (Nat.le_refl _), target?_size]

end Branch

/-- A plan that branches ends in an empty block. -/
theorem fork {ops : List Op} (hl : l.Valid) (hcode : l.code l.current = some (ops, []))
    (hextends : l.Extends l.current l') (hlast : l.size ≤ l'.current)
    (hjoin : l'.code l'.current = some ([], [])) (htarget : l'.target? l'.current = none)
    (h : ∀ {L : Layout}, (∀ k, l.size ≤ k → k < l'.size → k ≠ l'.current → L.code k = l'.code k) →
      (∀ k < l'.size, L.target? k = l'.target? k) →
      ∃ ws, a.Ways ws ∧ l'.code l.current = some (ops, ws.map (Way.edge l'.current)) ∧
        (∀ w ∈ ws, L.HasGoal w.goal) ∧
        ∀ w ∈ ws, ∀ b p n, w.goal = .body b p n → b.Laid L p (.last n l'.current)) :
    a.Lays l l' := by
  refine ⟨hextends, ⟨[], hjoin⟩, fun {L q} hs => ?_⟩
  obtain ⟨ws, hways, hstart, hgoals, hbodies⟩ := h (L := L)
    (fun k hk hk' hne => hs.code (.inr ⟨hk, hk'⟩) hne) fun _ => hs.target?
  have hne : l.current ≠ l'.current := Nat.ne_of_lt (Nat.lt_of_lt_of_le hl.current hlast)
  rw [← hs.goesOn.block] at hstart hbodies
  refine ⟨_, ⟨rfl, ops, hcode, ?_⟩, .fork l.current hways (hs.enters hjoin htarget) hgoals hbodies⟩
  rw [append_nil, hs.code (.inl rfl) hne, hstart]

theorem raise {ops : List Op} {t : Target} {guard : Option Rvalue} {ws : List Way} (hl : l.Valid)
    (hops : l.code l.current = some (ops, [])) (hextends : l.Extends l.current l')
    (hlast : l'.current = l.size + 1) (hjoin : l'.code l'.current = some ([], []))
    (hcode : l'.code l.size = (l.raise t guard).code l.size)
    (htarget : ∀ k, l'.target? k = (l.raise t guard).target? k)
    (hways : a.Ways (⟨.assertFail, guard, .stop t l.size⟩ :: ws)) (hws : ∀ w ∈ ws, w.goal = .join)
    (hstart : l'.code l.current = some (ops, (⟨.assertFail, guard, .stop t l.size⟩ :: ws).map
      (Way.edge l'.current))) : a.Lays l l' := by
  have hlt : l.size < l'.size := by
    have := (l'.code_isSome_iff _).1 (by rw [hjoin]; rfl)
    omega
  refine .fork hl hops hextends (by omega) hjoin ?_ fun {L} hL hL' => ⟨_, hways, hstart,
    forall_mem_cons.2 ⟨⟨?_, ?_⟩, fun w hw => ?_⟩, forall_mem_cons.2 ⟨nofun, fun w hw b p n h => ?_⟩⟩
  · rw [htarget, hlast, ← l.size_raise guard t, target?_size]
  · rw [hL _ (Nat.le_refl _) hlt (by omega), hcode, Layout.raise,
      code_connect_of_ne (Nat.ne_of_lt hl.current), code_newTarget, if_pos rfl]
  · rw [hL' _ hlt, htarget, Layout.raise, target?_connect, target?_newTarget, if_pos rfl]
    rfl
  · rw [hws w hw]
    trivial
  · cases (hws w hw).symm.trans h

end Plan.Lays

mutual

theorem Plan.lays : ∀ (a : Plan) {l : Layout}, l.Valid → l.Pending → a.Lays l (a.lay l)
  | .skip, l, _, hp => ⟨.refl, hp, fun {_ q} hs => ⟨q, hs.goesOn, .skip q⟩⟩
  | .op o, l, hl, ⟨ops, hops⟩ => by
    have hcode : (l.emit o).code (l.emit o).current = some (ops ++ [o], []) := by
      rw [current_emit, code_emit, if_pos rfl, hops]
      rfl
    refine ⟨(Plan.op o).extends_lay l, ⟨_, hcode⟩, fun {L q} hs => ?_⟩
    have hblock : q.block = l.current := hs.goesOn.block
    have hL := hs.goesOn.code_eq hcode
    rw [append_assoc] at hL
    obtain ⟨i, rest, edges⟩ := q
    cases hblock
    exact ⟨⟨l.current, o :: rest, edges⟩, ⟨rfl, ops, hops, hL⟩, .op _ _ _ _⟩
  | .seq a b, l, hl, hp => by
    have ha := a.lays hl hp
    have hb := b.lays (a.valid_lay hl) ha.pending
    have hsize := a.size_le_lay l
    refine ⟨(Plan.seq a b).extends_lay l, hb.pending, fun {L q} hs => ?_⟩
    obtain ⟨m, hm, hlaid⟩ := hb.laid (L := L) (q := q) {
      code := by
        rintro k (rfl | hk) hne
        · exact hs.code ((a.extends_lay l).touched.mono (b.size_le_lay _)) hne
        · exact hs.code (.inr ⟨Nat.le_trans hsize hk.1, hk.2⟩) hne
      target? := hs.target?
      goesOn := hs.goesOn }
    obtain ⟨p, hp, hlaid'⟩ := ha.laid (L := L) (q := m) {
      code := by
        intro k hk hne
        have hlt := hk.lt_size (Nat.lt_of_lt_of_le hl.current hsize)
        rw [← b.code_lay hlt (Ne.symm hne)]
        exact hs.code (hk.mono (b.size_le_lay _)) (b.current_lay_ne hlt (Ne.symm hne)).symm
      target? := by
        intro k hk
        rw [← (b.extends_lay _).target? hk]
        exact hs.target? (Nat.lt_of_lt_of_le hk (b.size_le_lay _))
      goesOn := hm }
    exact ⟨p, hp, .seq hlaid' hlaid⟩
  | .ifThen e yes, l, hl, ⟨ops, hops⟩ => by
    have hi := hl.current
    have hyes := yes.lays (hl.openThen e) ⟨[], code_openFrom_new hi⟩
    have hextends := (Plan.ifThen e yes).extends_lay l
    rw [Plan.lay] at hextends ⊢
    generalize yes.lay (l.openThen e) = l' at *
    have hsize := hyes.size_branch
    obtain ⟨hx, hx'⟩ := hyes.current_branch
    have htarget : ∀ k, (l'.closeThen l.current e).target? k = l'.target? k := by
      intro k
      rw [closeThen, target?_connect, target?_openFrom]
    refine .fork hl hops hextends (by simp; omega) ?_ ?_ fun {L} hcode hL => ?_
    · rw [current_closeThen, closeThen, code_connect_of_ne (Nat.ne_of_lt hx'),
        code_openFrom_new (by omega)]
    · rw [htarget, current_closeThen, target?_size]
    simp only [current_closeThen, size_closeThen] at hcode hL ⊢
    obtain ⟨p, hp, henter, hlaid⟩ := hyes.branch (L := L) (j := l'.size) hi
      (fun m hm hm' hne => by
        rw [hcode m hm (by omega) (by omega), closeThen, code_connect_of_ne (Ne.symm hne),
          code_openFrom_of_ne (by omega) hm'])
      (by
        rw [hcode _ hx (by omega) (by omega), closeThen, leaveTo, code_connect, code_connect,
          code_openFrom_of_ne (by omega) hx'])
      (fun m hm => by rw [hL m (by omega), htarget])
    refine ⟨_, ⟨p, l'.current, rfl⟩, ?_, by simpa [HasGoal] using henter, by simpa using hlaid⟩
    rw [closeThen, code_connect_of_ne (by omega), code_openFrom_source (by omega),
      hyes.code_branch hi, code_openFrom_source hi, hops, ← hp]
    rfl
  | .ifElse e yes no, l, hl, ⟨ops, hops⟩ => by
    have hi := hl.current
    have hyes := yes.lays (hl.openThen e) ⟨[], code_openFrom_new hi⟩
    have hvalid := yes.valid_lay (hl.openThen e)
    have hextends := (Plan.ifElse e yes no).extends_lay l
    rw [Plan.lay] at hextends ⊢
    generalize yes.lay (l.openThen e) = l₁ at *
    have hsize := hyes.size_branch
    obtain ⟨hx, hx'⟩ := hyes.current_branch
    have hno := no.lays (hvalid.openElse e l.current)
      ⟨[], code_openFrom_new (by simp; omega)⟩
    generalize no.lay (l₁.openElse l.current e) = l₂ at *
    have hsize' := hno.size_branch
    obtain ⟨hy, hy'⟩ := hno.current_branch
    rw [size_newBlock] at hsize' hy
    have htarget : ∀ k, (l₂.closeElse l₁.current l₁.size).target? k = l₂.target? k := by
      intro k
      show ((l₂.leaveTo l₁.size).connect l₁.current l₁.size .fallthrough none).target? k = _
      rw [target?_connect, leaveTo, target?_connect]
    -- What was there before the other side stays, but for the block where the branch begins.
    have hkeep : ∀ k ≤ l₁.size, k ≠ l.current → l₂.code k = (l₁.newBlock "join").code k := by
      intro k hk hne
      rw [hno.code_branch (by simp; omega), code_openFrom_of_ne (Ne.symm hne) (by simp; omega)]
    have hclose : ∀ k, k ≠ l₁.current → k ≠ l₂.current →
        (l₂.closeElse l₁.current l₁.size).code k = l₂.code k := by
      intro k hk hk'
      rw [closeElse, code_goTo, code_connect_of_ne (Ne.symm hk), leaveTo,
        code_connect_of_ne (Ne.symm hk')]
    refine .fork hl hops hextends (by simp; omega) ?_ ?_ fun {L} hcode hL => ?_
    · rw [current_closeElse, hclose _ (by omega) (by omega), hkeep _ (Nat.le_refl _) (by omega),
        code_newBlock, if_pos rfl]
    · rw [htarget, current_closeElse, hno.target?_branch (by simp), target?_newBlock, target?_size]
    simp only [current_closeElse, size_closeElse] at hcode hL ⊢
    obtain ⟨p, hp, henter, hlaid⟩ := hyes.branch (L := L) (j := l₁.size) hi
      (fun m hm hm' hne => by
        rw [hcode m hm (by omega) (by omega), hclose m hne (by omega),
          hkeep m (by omega) (by omega), code_newBlock, if_neg (by omega)])
      (by
        rw [hcode _ hx (by omega) (by omega), closeElse, code_goTo, leaveTo, leaveTo, code_connect,
          if_pos rfl, code_connect_of_ne (by omega), hkeep _ (by omega) (by omega), code_newBlock,
          if_neg (by omega), code_connect, if_pos rfl])
      (fun m hm => by
        rw [hL m (by omega), htarget, hno.target?_branch (by simp; omega), target?_newBlock])
    obtain ⟨p', hp', henter', hlaid'⟩ := hno.branch (L := L) (j := l₁.size) (by simp; omega)
      (fun m hm hm' hne => by
        rw [size_newBlock] at hm
        rw [hcode m (by omega) hm' (by omega), hclose m (by omega) hne])
      (by
        rw [hcode _ (by omega) hy' (by omega), closeElse, code_goTo, code_connect_of_ne (by omega)])
      (fun m hm => by rw [hL m hm, htarget])
    refine ⟨_, ⟨p, l₁.current, p', l₂.current, rfl⟩, ?_, by simp [HasGoal, henter, henter'],
      by simp [hlaid, hlaid']⟩
    rw [hclose _ (by omega) (by omega), hno.code_branch (by simp; omega),
      code_openFrom_source (by simp; omega), code_newBlock, if_neg (by omega),
      hyes.code_branch hi, code_openFrom_source hi, hops]
    simp [Way.edge, Goal.block, hp, hp']
  | .choose name site arms, l, hl, ⟨ops, hops⟩ => by
    have hi := hl.current
    have hextends := (Plan.choose name site arms).extends_lay l
    have harms := arms.extends_lay name site l.current l.size (l := l.openTable name site) (by simp)
    have hsize := harms.size_le
    rw [size_openTable] at hsize
    refine .fork hl hops hextends (Nat.le_refl _) ?_ ?_ fun {L} hcode hL => ?_
    · show (arms.lay name site l.current l.size (l.openTable name site)).code l.size = _
      rw [harms.code (by simp) (Nat.ne_of_lt hi), openTable, code_newBlock, size_newSite,
        if_pos rfl]
    · show (arms.lay name site l.current l.size (l.openTable name site)).target? l.size = _
      rw [harms.target? (by simp), openTable, target?_newBlock]
      exact l.target?_size
    have hstart : (l.openTable name site).code l.current = some (ops, []) := by
      rw [openTable, code_newBlock, size_newSite, if_neg (Nat.ne_of_lt hi), code_newSite, hops]
    refine arms.lays name site l.current l.size (hl.openTable name site) (by simp; omega) (by simp)
      (Nat.ne_of_lt hi) hstart (fun m hm hm' => ?_) hL
    rw [size_openTable] at hm
    exact hcode m (by omega) hm' (Nat.ne_of_gt hm)
  | .bug t, l, hl, ⟨ops, hops⟩ => by
    have hi := hl.current
    have hsize := l.size_raise none t
    have hcode : ∀ k ≤ l.size, ((Plan.bug t).lay l).code k = (l.raise t none).code k := by
      intro k hk
      rw [Plan.lay, code_goTo, code_newBlock, if_neg (by omega)]
    refine .raise hl hops ((Plan.bug t).extends_lay l) hsize ?_ (hcode _ (Nat.le_refl _))
      (fun k => target?_newBlock _) ⟨l.size, rfl⟩ nofun ?_
    · rw [Plan.lay, current_goTo, code_goTo, code_newBlock, if_pos rfl]
    · rw [hcode _ (by omega), code_raise_source hi, hops]
      rfl
  | .assert t e, l, hl, ⟨ops, hops⟩ => by
    have hi := hl.current
    have hsize := l.size_raise (some (.not e)) t
    refine .raise hl hops ((Plan.assert t e).extends_lay l) hsize (code_openFrom_new (by omega))
      (code_openFrom_of_ne (Nat.ne_of_lt hi) (by omega)) (fun k => target?_openFrom) ⟨l.size, rfl⟩
      (by simp) ?_
    rw [Plan.lay, code_openFrom_source (by omega), code_raise_source hi, hops]
    rfl

theorem Arms.lays (name : String) (site : TableSite) (start join : Nat) :
    ∀ (arms : Arms) {l L : Layout} {ops : List Op} {edges : List Edge}, l.Valid → start < l.size →
      join < l.size → start ≠ join → l.code start = some (ops, edges) →
      (∀ m, l.size ≤ m → m < (arms.lay name site start join l).size →
        L.code m = (arms.lay name site start join l).code m) →
      (∀ m < (arms.lay name site start join l).size,
        L.target? m = (arms.lay name site start join l).target? m) →
      ∃ ws, arms.Ways site ws ∧ (arms.lay name site start join l).code start =
          some (ops, edges ++ ws.map (Way.edge join)) ∧ (∀ w ∈ ws, L.HasGoal w.goal) ∧
        ∀ w ∈ ws, ∀ b p n, w.goal = .body b p n → b.Laid L p (.last n join)
  | .nil, _, _, _, _, _, _, _, _, h, _, _ =>
    ⟨[], rfl, by simpa [Arms.lay] using h, by simp, by simp⟩
  | .cons label kind body rest, l, L, ops, edges, hl, hstart, hjoin, hne, h, hcode, hL => by
    have hopen : (l.openArm name site start label kind).code start =
        some (ops, edges ++ [⟨l.size, kind, some (site.guard label)⟩]) := by
      refine (code_openFrom_source (l := l.addLabel site.id label) hstart).trans ?_
      rw [code_addLabel, h]
      rfl
    have hbody := body.lays (hl.openArm label kind name site start)
      ⟨[], code_openFrom_new (l := l.addLabel site.id label) hstart⟩
    have hvalid := body.valid_lay (hl.openArm label kind name site start)
    rw [Arms.lay] at hcode hL ⊢
    generalize body.lay (l.openArm name site start label kind) = l' at *
    have hsize : l.size < l'.size := hbody.size_branch
    obtain ⟨hx, hx'⟩ := hbody.current_branch
    rw [size_addLabel] at hx
    have hjoin' : join < (l'.leaveTo join).size := by
      rw [size_leaveTo]
      omega
    have hrest := rest.extends_lay name site start join hjoin'
    have hsize' := hrest.size_le
    rw [size_leaveTo] at hsize'
    -- The choices that follow leave the blocks of this one alone.
    have hkeep : ∀ m, l.size ≤ m → m < l'.size → L.code m = (l'.leaveTo join).code m := by
      intro m hm hm'
      rw [hcode m hm (by omega), hrest.code (by rwa [size_leaveTo]) (by omega)]
    obtain ⟨p, hp, henter, hlaid⟩ := hbody.branch (L := L) (j := join) hstart
      (fun m hm hm' hne => by
        rw [hkeep m hm hm', leaveTo, code_connect_of_ne (Ne.symm hne)])
      (hkeep _ hx hx')
      (fun m hm => by
        rw [hL m (by omega), hrest.target? (by rwa [size_leaveTo]), leaveTo, target?_connect])
    have hbegun : (l'.leaveTo join).code start =
        some (ops, edges ++ [⟨l.size, kind, some (site.guard label)⟩]) := by
      rw [leaveTo, code_connect_of_ne (by omega), hbody.code_branch hstart]
      exact hopen
    obtain ⟨ws, hways, hlast, hgoals, hbodies⟩ := rest.lays name site start join
      (hvalid.leaveTo (by omega)) (by rw [size_leaveTo]; omega) hjoin' hne hbegun
      (fun m hm hm' => hcode m (by rw [size_leaveTo] at hm; omega) hm') hL
    refine ⟨_, ⟨p, l'.current, ws, hways, rfl⟩, ?_, forall_mem_cons.2 ⟨henter, hgoals⟩,
      forall_mem_cons.2 ⟨?_, hbodies⟩⟩
    · rw [hlast, append_assoc, ← l.size_addLabel label site.id, ← hp]
      rfl
    · rintro b p' n ⟨⟩
      exact hlaid

end

end ControlReach
