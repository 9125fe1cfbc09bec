import ControlReach.Proofs.DataTerm
import ControlReach.Proofs.NormalTerm
import ControlReach.Proofs.QuerySound
import ControlReach.Query.Straight

/-!
# Straight lines

On a straight line nothing is joined. So the formula of an error location at its end is the
conjunction of what executing the blocks one after another assumes, and of one equation for each
observed leaf of the store at the end.
-/

namespace ControlReach

open List Relation

namespace Term

theorem mkAnd_mkAnd (hxs : ∀ a ∈ xs, Normal a) : mkAnd (mkAnd xs :: ys) = mkAnd (xs ++ ys) := by
  simp only [mkAnd_eq_connect]
  exact connect_connect [] hxs

theorem mkAnd_mkAnd_tt (has : ∀ a ∈ as, Normal a) : mkAnd [mkAnd as, tt] = mkAnd as := by
  rw [mkAnd_mkAnd has, mkAnd_eq_connect, mkAnd_eq_connect, connect, connect, flatMap_append,
    gather_append]
  cases gather true [] (as.flatMap (parts true)) <;> rfl

end Term

/-! ### Lines -/

namespace FlowGraph

variable {g : FlowGraph} {t i j : BlockId} {l : List BlockId}

/-- One unguarded edge after another leads over the blocks of a list to a block without edges. -/
inductive Lane (g : FlowGraph) (t : BlockId) : BlockId → List BlockId → Prop
  | last : t ∈ g.ids → g.edgesOf t = [] → Lane g t t []
  | next {i j kind l} : g.edgesOf i = [⟨j, kind, none⟩] → i ∈ g.predecessors j → Lane g t j l →
      Lane g t i (j :: l)

namespace Lane

section

variable (h : g.Lane t i l)

include h

theorem unique (h' : g.Lane t i l') : l = l' := by
  induction h generalizing l' with
  | last _ hend =>
    cases h' with
    | last => rfl
    | next hedge => rw [hend] at hedge; cases hedge
  | next hedge _ _ ih =>
    cases h' with
    | last _ hend => rw [hend] at hedge; cases hedge
    | next hedge' _ hrest =>
      rw [hedge] at hedge'
      cases hedge'
      rw [ih hrest]

theorem from_mem (hj : j ∈ l) : ∃ l', g.Lane t j l' ∧ l'.length < l.length := by
  induction h with
  | last => cases hj
  | next _ _ hrest ih =>
    rcases mem_cons.1 hj with rfl | hj
    · exact ⟨_, hrest, Nat.lt_succ_self _⟩
    · obtain ⟨l', hl', hlt⟩ := ih hj
      exact ⟨l', hl', Nat.lt_succ_of_lt hlt⟩

/-- A block that came again would be followed by two lines of different lengths. -/
theorem nodup : (i :: l).Nodup := by
  induction h with
  | last => exact nodup_singleton _
  | next hedge hpred hrest ih =>
    refine nodup_cons.2 ⟨fun hmem => ?_, ih⟩
    obtain ⟨l', hl', hlt⟩ := (next hedge hpred hrest).from_mem hmem
    rw [hl'.unique (next hedge hpred hrest)] at hlt
    exact Nat.lt_irrefl _ hlt

theorem mem_ids : ∀ j ∈ i :: l, j ∈ g.ids := by
  induction h with
  | last ht => exact forall_mem_singleton.2 ht
  | next _ hpred _ ih => exact forall_mem_cons.2 ⟨mem_ids_of_predecessors hpred, ih⟩

theorem length_le : (i :: l).length ≤ g.blocks.length :=
  Nat.le_trans (Search.length_le_of_nodup h.nodup h.mem_ids) length_ids

theorem ends : t ∈ g.ids ∧ g.edgesOf t = [] := by
  induction h with
  | last ht hend => exact ⟨ht, hend⟩
  | next _ _ _ ih => exact ih

theorem reaches : ∀ j ∈ i :: l, j ∈ g.reaching t := by
  have hback : ReflTransGen (Search.Edge g.predecessors) t i ∧
      ∀ j ∈ l, ReflTransGen (Search.Edge g.predecessors) t j := by
    induction h with
    | last => exact ⟨.refl, by simp⟩
    | next _ hpred _ ih => exact ⟨ih.1.tail hpred, forall_mem_cons.2 ih⟩
  simp only [mem_reaching_iff h.ends.1]
  exact forall_mem_cons.2 hback

theorem done_visit (hin : ∀ j ∈ l, j ∈ within) (hfuel : l.length < fuel) (path : List BlockId)
    (tr : Search.Trace BlockId) (hseen : ∀ j ∈ l, tr.seen.contains j = false) :
    (Search.visit (g.inside within) fuel path i tr).done = i :: l ++ tr.done := by
  induction h generalizing fuel path tr with
  | last _ hend =>
    obtain ⟨fuel, rfl⟩ := Nat.exists_eq_add_of_lt hfuel
    simp [Search.visit, inside, successors, hend]
  | @next i j _ l hedge hpred hrest ih =>
    obtain ⟨fuel, rfl⟩ := Nat.exists_eq_add_of_lt hfuel
    obtain ⟨hj, hin⟩ := forall_mem_cons.1 hin
    have hne := (next hedge hpred hrest).nodup
    have hfresh : ∀ k ∈ j :: l, (tr.seen.insert i).contains k = false := by
      intro k hk
      rw [← Bool.not_eq_true, Search.contains_insert_iff, not_or, hseen k hk]
      exact ⟨fun hki => (nodup_cons.1 hne).1 (hki ▸ hk), Bool.false_ne_true⟩
    have hnext : g.inside within i = [j] := by simp [inside, successors, hedge, hj]
    obtain ⟨hjfresh, hlfresh⟩ := forall_mem_cons.1 hfresh
    simp only [Search.visit, hnext, foldl_cons, foldl_nil, hjfresh, Bool.not_false, if_true]
    rw [ih hin (by simp only [length_cons]; omega) _ _ hlfresh]
    rfl

end

theorem topological_eq (h : g.Lane t g.entry l) : g.topological (g.reaching t) = g.entry :: l := by
  obtain ⟨hentry, hin⟩ := forall_mem_cons.1 h.reaches
  have hempty : ∀ j : BlockId, (Search.Trace.empty : Search.Trace BlockId).seen.contains j = false :=
    fun _ => Std.TreeSet.contains_emptyc
  have hdone := h.done_visit hin h.length_le [] Search.Trace.empty fun j _ => hempty j
  rw [topological, if_pos hentry, Search.explore, foldl_cons, foldl_nil, hempty, if_neg (by simp)]
  exact hdone.trans (append_nil _)

end Lane

/-- Executing a block and what follows it, where no block branches. -/
theorem straightFrom_succ (hi : i ∈ g.ids)
    (hedges : ∀ e ∈ g.edgesOf i, g.edgesOf i = [e] ∧ e.guard = none)
    (h : g.straightFrom (fuel + 1) i s assumed = .ok r) :
    ∃ s' assumed', execute (g.opsOf i) s assumed = .ok (s', assumed') ∧
      (g.edgesOf i = [] → r = (s', assumed')) ∧
      ∀ e ∈ g.edgesOf i, g.straightFrom fuel e.target s' assumed' = .ok r := by
  obtain ⟨b, hb⟩ := exists_block hi
  rw [edgesOf_of_block hb] at hedges ⊢
  rw [opsOf, hb, Option.map_some, Option.getD_some]
  simp only [straightFrom, hb] at h
  split at h
  · cases h
  · rename_i s' assumed' hexec
    refine ⟨s', assumed', hexec, ?_⟩
    cases hout : b.edges with
    | nil =>
      simp only [FlowBlock.branches, hout] at h
      cases h
      simp
    | cons e rest =>
      rw [hout] at hedges
      obtain ⟨hone, hguard⟩ := hedges e mem_cons_self
      cases hone
      simp only [FlowBlock.branches, hout, any_cons, any_nil, hguard] at h
      simpa using h

/-- One arrival passes through a block as it is. -/
theorem pass_single {p : Progress} (hp : p.arrivals i = [⟨Term.mkAnd assumed, s⟩])
    (hnormal : ∀ a ∈ assumed, a.Normal)
    (hexec : execute (g.opsOf i) s assumed = .ok (s', assumed')) :
    g.pass i p = .ok (some ⟨p.definitions, Term.mkAnd assumed', s'⟩) := by
  obtain ⟨new, hnew, rfl⟩ := execute_eq_ok hexec
  rw [pass, hp, join, ← Term.mkAnd_mkAnd hnormal]
  simp only [bind, Except.bind, hnew, append_nil]
  rfl

/-- Visiting the blocks of a line collects what executing them assumes. -/
theorem Lane.visitBlocks_eq {target : Target} (h : g.Lane target.block i l)
    (hin : ∀ j ∈ l, j ∈ relevant) {Q : Term → Prop} (hQ : Term.Kept Q)
    (hnormal : ∀ a, Q a → a.Normal)
    (hops : ∀ j ∈ i :: l, ∀ op ∈ g.opsOf j, op.Within (fun _ _ => True) (fun _ => True) Q)
    (hfuel : l.length < fuel) {p : Progress} (hdefs : p.definitions = [])
    (hhere : p.arrivals i = [⟨Term.mkAnd assumed, s⟩]) (hrest : ∀ j ∈ l, p.arrivals j = [])
    (hs : s.All (fun _ _ => True) (fun _ => True) Q) (hassumed : ∀ a ∈ assumed, Q a)
    (hrun : g.straightFrom fuel i s assumed = .ok (s', assumed')) :
    (visitBlocks g target relevant (i :: l) .never p).1 =
        .ok (Passage.outcome ⟨[], Term.mkAnd assumed', s'⟩ target) ∧
      s'.All (fun _ _ => True) (fun _ => True) Q ∧ ∀ a ∈ assumed', Q a := by
  induction h generalizing fuel p s assumed with
  | last ht hend =>
    obtain ⟨fuel, rfl⟩ := Nat.exists_eq_add_of_lt hfuel
    obtain ⟨s₁, assumed₁, hexec, hr, -⟩ := straightFrom_succ ht (by simp [hend]) hrun
    cases hr hend
    have hpass := pass_single hhere (fun a ha => hnormal a (hassumed a ha)) hexec
    refine ⟨?_, all_execute hQ (hops _ mem_cons_self) hs hassumed hexec⟩
    rw [visitBlocks, visitBlock_eq, hpass, hdefs]
    simp [Token.never, Token.poll, bind, Except.bind, pure, Except.pure]
  | @next i j kind l hedge hpred hlane ih =>
    obtain ⟨fuel, rfl⟩ := Nat.exists_eq_add_of_lt hfuel
    obtain ⟨s₁, assumed₁, hexec, -, hr⟩ :=
      straightFrom_succ (mem_ids_of_predecessors hpred) (by simp [hedge]) hrun
    have hpass := pass_single hhere (fun a ha => hnormal a (hassumed a ha)) hexec
    obtain ⟨hops, hops'⟩ := forall_mem_cons.1 hops
    obtain ⟨hj, hin⟩ := forall_mem_cons.1 hin
    obtain ⟨hs₁, hassumed₁⟩ := all_execute hQ hops hs hassumed hexec
    have hi : i ≠ target.block := by
      rintro rfl
      rw [hlane.ends.2] at hedge
      cases hedge
    have hfollow : follow relevant (Term.mkAnd assumed₁) s₁ ⟨p.incoming, []⟩ (g.edgesOf i) =
        .ok (Progress.arrive ⟨p.incoming, []⟩ j ⟨Term.mkAnd assumed₁, s₁⟩) := by
      have hopen := Term.mkAnd_mkAnd_tt fun a ha => hnormal a (hassumed₁ a ha)
      rw [hedge, follow_cons hj]
      exact congrArg (fun c => Except.ok (Progress.arrive _ j ⟨c, s₁⟩)) hopen
    rw [visitBlocks, visitBlock_eq, hpass, hdefs]
    simp only [Token.never, Token.poll, bind, Except.bind, pure, Except.pure, if_neg hi, hfollow]
    have hnodup := (nodup_cons.1 hlane.nodup).1
    obtain ⟨hj, hrest⟩ := forall_mem_cons.1 hrest
    have hlt : l.length < (j :: l).length + fuel := by rw [length_cons]; omega
    refine ih hin hops' hlt rfl ?_ (fun k hk => ?_) hs₁ hassumed₁
      (hr _ (by rw [hedge]; exact mem_cons_self))
    · rw [Progress.arrivals_arrive, if_pos rfl]
      exact congrArg (· ++ _) hj
    · rw [Progress.arrivals_arrive, if_neg fun hkj : k = j => hnodup (hkj ▸ hk), append_nil]
      exact hrest k hk

end FlowGraph

/-! ### Where unknowns come from -/

section Origins

variable {Q : Term → Prop}

mutual

theorem Rvalue.within_of_guards : ∀ e : Rvalue, (∀ p ∈ e.guards, Q (.flag p.2.2)) →
    e.Within (fun _ => True) Q
  | .bool _, _ | .text _, _ | .read _, _ => trivial
  | .field base _, h => within_of_guards base h
  | .struct fields, h => withinFields_of_guards fields h
  | .not e, h => within_of_guards e h
  | .and a b, h | .or a b, h | .equal _ a b, h =>
    ⟨within_of_guards a fun p hp => h p (mem_append_left _ hp),
      within_of_guards b fun p hp => h p (mem_append_right _ hp)⟩
  | .guard site label name, h => h (site, label, name) mem_cons_self

theorem Rvalue.withinFields_of_guards : ∀ fields : List (String × Rvalue),
    (∀ p ∈ guardsOf fields, Q (.flag p.2.2)) → WithinFields (fun _ => True) Q fields
  | [], _ => trivial
  | (_, e) :: rest, h =>
    ⟨trivial, within_of_guards e fun p hp => h p (mem_append_left _ hp),
      withinFields_of_guards rest fun p hp => h p (mem_append_right _ hp)⟩

end

mutual

theorem SymValue.all_fresh : ∀ name path ty,
    (∀ p ∈ ty.unknowns name path, Q (.symbol p.2)) → (fresh name ty).All (fun _ => True) Q
  | _, _, .bool, h | _, _, .string, h => h _ mem_cons_self
  | name, path, .struct _ fields, h => all_freshFields name path fields h

theorem SymValue.all_freshFields : ∀ name path fields,
    (∀ p ∈ Ty.unknownsOf name path fields, Q (.symbol p.2)) →
    AllFields (fun _ => True) Q (freshFields name fields)
  | _, _, [], _ => trivial
  | name, path, (f, ty) :: rest, h =>
    ⟨trivial, all_fresh _ (path ++ [f]) ty fun p hp => h p (mem_append_left _ hp),
      all_freshFields name path rest fun p hp => h p (mem_append_right _ hp)⟩

end

/-- The unknowns that an operation brings in: leaves of an arbitrary value, or guards. -/
def Op.unknowns : Op → List Symbol
  | .havoc x n _ => (x.ty.unknowns (freshName x n) []).map Prod.snd
  | op => op.guards.map fun p => ⟨p.2.2, .bool⟩

theorem Op.within_of_unknowns {op : Op} (h : ∀ sym ∈ op.unknowns, Q (.symbol sym)) :
    op.Within (fun _ _ => True) (fun _ => True) Q := by
  cases op with
  | assign x path e loc =>
    exact ⟨trivial, e.within_of_guards fun p hp => h _ (mem_map_of_mem hp)⟩
  | havoc x n loc => exact ⟨trivial, SymValue.all_fresh _ [] _ fun p hp => h _ (mem_map_of_mem hp)⟩
  | assume e loc => exact e.within_of_guards fun p hp => h _ (mem_map_of_mem hp)

end Origins

theorem Term.Kept.and {Q Q' : Term → Prop} (h : Kept Q) (h' : Kept Q') :
    Kept fun t => Q t ∧ Q' t where
  bool b := ⟨h.bool b, h'.bool b⟩
  text s := ⟨h.text s, h'.text s⟩
  mkNot ha := ⟨h.mkNot ha.1, h'.mkNot ha.2⟩
  mkAnd has := ⟨h.mkAnd fun a ha => (has a ha).1, h'.mkAnd fun a ha => (has a ha).2⟩
  mkOr has := ⟨h.mkOr fun a ha => (has a ha).1, h'.mkOr fun a ha => (has a ha).2⟩
  mkEq ha hb := ⟨h.mkEq ha.1 hb.1, h'.mkEq ha.2 hb.2⟩

theorem Term.kept_normal : Term.Kept Term.Normal :=
  ⟨fun _ => trivial, fun _ => trivial, .mkNot, .mkAnd, .mkOr, .mkEq⟩

namespace FlowGraph

/-- The formula of an error location at the end of a line is the conjunction of what executing the
line assumes and of an equation for each observed leaf of the store at its end. Its unknowns are
those of the observations and those that the operations on the line bring in; nothing is selected
and nothing is joined. -/
theorem generate_lane (g : FlowGraph) (t : Target) (hback : g.backEdges = []) (l : List BlockId)
    (hlane : g.Lane t.block g.entry l) {s : Store} {assumed : List Term}
    (hrun : g.straight = .ok (s, assumed)) (exclusive : Bool) :
    ∃ (q : Query) (symbol : String → Symbol), (g.generate exclusive t .never).1 = .ok q ∧
      q.formula = Term.mkAnd (assumed ++ (s.reported t.observed).map fun leaf =>
        Term.mkEq (.symbol (symbol leaf.1)) leaf.2) ∧
      (∀ leaf ∈ s.reported t.observed, q.observations.lookup leaf.1 = some (symbol leaf.1) ∧
        ∃ u, (leaf.1, u) ∈ s.reported t.observed ∧
          symbol leaf.1 = ⟨t.id ++ "|" ++ leaf.1, u.sort⟩) ∧
      ∀ sym ∈ q.formula.symbols, (∃ key, q.observations.lookup key = some sym) ∨
        ∃ i ∈ g.entry :: l, ∃ op ∈ g.opsOf i, sym ∈ op.unknowns := by
  let P : Symbol → Prop := fun sym => ∃ i ∈ g.entry :: l, ∃ op ∈ g.opsOf i, sym ∈ op.unknowns
  have hops : ∀ i ∈ g.entry :: l, ∀ op ∈ g.opsOf i,
      op.Within (fun _ _ => True) (fun _ => True) fun u => u.Normal ∧ u.Over P :=
    fun i hi op hop => Op.within_of_unknowns fun sym hsym =>
      ⟨trivial, Term.over_symbol.2 ⟨i, hi, op, hop, hsym⟩⟩
  have hentry : g.start.arrivals g.entry = [⟨Term.mkAnd [], []⟩] := by
    rw [arrivals_start, if_pos rfl]
    rfl
  have hrest : ∀ i ∈ l, g.start.arrivals i = [] := by
    intro i hi
    rw [arrivals_start, if_neg]
    rintro rfl
    exact (nodup_cons.1 hlane.nodup).1 hi
  obtain ⟨hvisits, hs, hassumed⟩ := hlane.visitBlocks_eq (forall_mem_cons.1 hlane.reaches).2
    (Term.kept_normal.and (Term.kept_over P)) (fun _ h => h.1) hops hlane.length_le rfl hentry hrest
    (by simp [Store.All]) (by simp) hrun
  rw [← hlane.topological_eq] at hvisits
  obtain ⟨q, hq, hout, -⟩ := generate_of_formula hback hlane.ends.1 exclusive hvisits
  have hbound := bindKeys_spec t [] (s.reported t.observed)
  obtain ⟨symbol, hsymbol, hequations⟩ := hbound.exists_symbol
  simp only [Passage.outcome, observe_eq_bindKeys, hequations, nil_append, Prod.mk.injEq,
    Term.mkAnd_mkAnd fun a ha => (hassumed a ha).1] at hout
  obtain ⟨hformula, hobservations⟩ := hout
  rw [← hobservations] at hbound hsymbol
  refine ⟨q, symbol, hq, hformula, fun leaf hleaf => ⟨hsymbol leaf hleaf, ?_⟩, ?_⟩
  · rcases hbound.origin _ _ (hsymbol leaf hleaf) with h | h
    · cases h
    · exact h
  · rw [hformula]
    refine Term.Over.mkAnd (forall_mem_append.2 ⟨fun a ha sym hsym => ?_, fun a ha => ?_⟩)
    · exact .inr ((hassumed a ha).2 sym hsym)
    · obtain ⟨⟨key, u⟩, hleaf, rfl⟩ := mem_map.1 ha
      refine .mkEq (Term.over_symbol.2 (.inl ⟨key, hsymbol _ hleaf⟩)) fun sym hsym => .inr ?_
      obtain ⟨x, y, w, path, -, hw, hmem, -⟩ := Store.mem_reported.1 hleaf
      exact (SymValue.All.leaves [] (hs.value hw) _ hmem).2 sym hsym

end FlowGraph

namespace Corridor

open Fork (flag)

def goal : Target := ⟨"c", 0, .bug, 2, "", none, [("x", flag 0 "x"), ("y", flag 1 "y")]⟩

/-- An arbitrary `x` is assumed to be true and then negated into `y`. -/
def graph : FlowGraph where
  name := "c"
  blocks := [
    ⟨0, "entry", [.havoc (flag 0 "x") 0 none, .assume (.read (flag 0 "x")) none],
      [⟨1, .fallthrough, none⟩], [], none⟩,
    ⟨1, "next", [.assign (flag 1 "y") [] (.not (.read (flag 0 "x"))) none],
      [⟨2, .assertFail, none⟩], [0], none⟩,
    ⟨2, "bug", [], [], [1], some goal⟩]
  entry := 0
  targets := [goal]
  deadTargets := []
  sites := []
  inputs := []
  pruned := 0

theorem lane : graph.Lane goal.block graph.entry [1, 2] :=
  .next rfl (by decide) (.next rfl (by decide) (.last (by decide) rfl))

theorem generate_lane_corridor : ∃ (q : Query) (symbol : String → Symbol),
    (graph.generate true goal .never).1 = .ok q ∧
      q.formula = Term.mkAnd [.flag "x@0", Term.mkEq (.symbol (symbol "x")) (.flag "x@0"),
        Term.mkEq (.symbol (symbol "y")) (.not (.flag "x@0"))] := by
  have hrun : graph.straight = .ok ([(0, flag 0 "x", .term (.flag "x@0")),
      (1, flag 1 "y", .term (.not (.flag "x@0")))], [.flag "x@0"]) := rfl
  obtain ⟨q, symbol, hq, hformula, -⟩ :=
    graph.generate_lane goal (by decide +kernel) [1, 2] lane hrun true
  exact ⟨q, symbol, hq, hformula⟩

end Corridor

end ControlReach
