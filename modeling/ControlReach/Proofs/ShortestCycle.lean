import ControlReach.Proofs.CallCycles
import ControlReach.Proofs.CallEdges
import Mathlib.Data.List.Chain

/-!
# The search for a shortest cycle

A search level by level keeps one path to each node it knows, until an edge leads back to the root
or a level has no new node. A level holds the nodes at one distance, so the first cycle found is a
shortest one.
-/

namespace ControlReach.Search

open List Relation

variable {α : Type}

def fronts (paths : List (List α)) : List α := paths.filterMap List.head?

theorem fronts_cons (v : α) (path : List α) (paths : List (List α)) :
    fronts ((v :: path) :: paths) = v :: fronts paths := rfl

variable [Ord α] {next : α → List α} {root : α}

def branch (v : α) (path : List α) (found : List (List α)) (known : Std.TreeSet α) (ws : List α) :
    List (List α) × Std.TreeSet α :=
  ws.foldl (fun (found, known) w =>
    if known.contains w then (found, known) else ((w :: v :: path) :: found, known.insert w))
    (found, known)

/-- What paths that go on lead to. -/
structure Extends (paths paths' : List (List α)) (known known' : Std.TreeSet α) (ws : List α) :
    Prop where
  knows : ∀ a, known'.contains a ↔ known.contains a ∨ a ∈ ws
  ends : ∀ a, a ∈ fronts paths' ↔ a ∈ fronts paths ∨ ¬ known.contains a ∧ a ∈ ws

theorem Extends.trans {paths paths' paths'' : List (List α)} {known known' known'' : Std.TreeSet α}
    {ws ws' : List α} (h : Extends paths paths' known known' ws)
    (h' : Extends paths' paths'' known' known'' ws') :
    Extends paths paths'' known known'' (ws ++ ws') where
  knows := by
    intro a
    rw [h'.knows, h.knows, mem_append, or_assoc]
  ends := by
    intro a
    rw [h'.ends, h.ends, h.knows, mem_append]
    tauto

theorem Extends.refl (paths : List (List α)) (known : Std.TreeSet α) :
    Extends paths paths known known [] := by
  constructor <;> simp

theorem branch_cons (v : α) (path : List α) (found : List (List α)) (known : Std.TreeSet α) (w : α)
    (ws : List α) : branch v path found known (w :: ws) =
      if known.contains w then branch v path found known ws
      else branch v path ((w :: v :: path) :: found) (known.insert w) ws := by
  rw [branch, foldl_cons]
  dsimp only
  split <;> rfl

variable [Std.TransOrd α] [Std.LawfulEqOrd α]

theorem branch_spec (v : α) (path : List α) (found : List (List α)) (known : Std.TreeSet α)
    (ws : List α) : Extends found (branch v path found known ws).1 known
      (branch v path found known ws).2 ws := by
  induction ws generalizing found known with
  | nil => exact .refl found known
  | cons w ws ih =>
    rw [branch_cons]
    by_cases hw : known.contains w = true
    · rw [if_pos hw]
      have hstep : Extends found found known known [w] := by constructor <;> grind
      exact hstep.trans (ih found known)
    · rw [if_neg hw]
      have hstep : Extends found ((w :: v :: path) :: found) known (known.insert w) [w] := by
        refine ⟨fun a => ?_, fun a => ?_⟩
        · rw [contains_insert_iff, mem_singleton, or_comm]
        · rw [fronts_cons, mem_cons, mem_singleton, or_comm]
          exact or_congr_right ⟨fun h => ⟨h ▸ hw, h⟩, And.right⟩
      exact hstep.trans (ih _ _)

theorem extend_spec (next : α → List α) (paths found : List (List α)) (known : Std.TreeSet α) :
    Extends found (extend next paths found known).1 known (extend next paths found known).2
      ((fronts paths).flatMap next) := by
  induction paths generalizing found known with
  | nil =>
    rw [extend]
    exact ⟨by simp [fronts], by simp [fronts]⟩
  | cons p paths ih =>
    cases p with
    | nil => exact ih found known
    | cons v path =>
      rw [fronts_cons, flatMap_cons]
      exact (branch_spec v path found known (next v)).trans (ih _ _)

/-! ### Distances -/

/-- A node is the end of so many edges from the root. -/
def Within (next : α → List α) (root : α) : Nat → α → Prop
  | 0, a => a = root
  | n + 1, a => ∃ b, Within next root n b ∧ Edge next b a

/-- A path from the root, with its end in front. -/
def Path (next : α → List α) (root : α) (path : List α) : Prop :=
  path.IsChain (fun a b => Edge next b a) ∧ path.getLast? = some root

section

omit [Ord α] [Std.TransOrd α] [Std.LawfulEqOrd α]

theorem Within.reached : ∀ {n} {a}, Within next root n a → ReflTransGen (Edge next) root a
  | 0, _, h => by rw [show _ = root from h]
  | _ + 1, _, ⟨_, hb, hedge⟩ => hb.reached.tail hedge

theorem Path.within (h : Path next root (a :: path)) : Within next root path.length a := by
  induction path generalizing a with
  | nil => simpa [Path, Within] using h
  | cons b path ih =>
    obtain ⟨hchain, hlast⟩ := h
    rw [isChain_cons_cons] at hchain
    rw [getLast?_cons_cons] at hlast
    exact ⟨b, ih ⟨hchain.2, hlast⟩, hchain.1⟩

end

/-- The nodes `n` edges away from the root and no fewer, with a path to each; closer ones are known.
-/
structure Level (next : α → List α) (root : α) (n : Nat) (level : List (List α))
    (known : Std.TreeSet α) : Prop where
  paths : ∀ path ∈ level, Path next root path ∧ path.length = n + 1
  ends : ∀ a, a ∈ fronts level ↔ Within next root n a ∧ ∀ m < n, ¬ Within next root m a
  knows : ∀ a, known.contains a ↔ ∃ m ≤ n, Within next root m a
  left : ∀ m < n, ∀ a, Within next root m a → root ∉ next a

section

omit [Std.TransOrd α] [Std.LawfulEqOrd α]

theorem forall_branch {P : List α → Prop} (hfound : ∀ q ∈ found, P q)
    (hnew : ∀ w ∈ ws, P (w :: v :: path)) (known : Std.TreeSet α) :
    ∀ q ∈ (branch v path found known ws).1, P q := by
  induction ws generalizing found known with
  | nil => exact hfound
  | cons w ws ih =>
    obtain ⟨hw, hws⟩ := forall_mem_cons.1 hnew
    rw [branch_cons]
    split
    · exact ih hfound hws known
    · exact ih (forall_mem_cons.2 ⟨hw, hfound⟩) hws _

theorem forall_extend {P : List α → Prop} (hfound : ∀ q ∈ found, P q)
    (hnew : ∀ v path, v :: path ∈ paths → ∀ w ∈ next v, P (w :: v :: path))
    (known : Std.TreeSet α) : ∀ q ∈ (extend next paths found known).1, P q := by
  induction paths generalizing found known with
  | nil => simpa [extend] using hfound
  | cons p paths ih =>
    have hrest := fun v path hp => hnew v path (mem_cons_of_mem _ hp)
    cases p with
    | nil => exact ih hfound hrest known
    | cons v path => exact ih (forall_branch hfound (hnew v path mem_cons_self) known) hrest _

theorem Level.closer_or_mem (h : Level next root n level known) (hm : m ≤ n)
    (ha : Within next root m a) : (∃ k < n, Within next root k a) ∨ a ∈ fronts level := by
  by_cases hcloser : ∃ k < n, Within next root k a
  · exact .inl hcloser
  · have hfar : ∀ k < n, ¬ Within next root k a := fun k hk ha => hcloser ⟨k, hk, ha⟩
    obtain rfl : m = n := Nat.le_antisymm hm (Nat.not_lt.1 fun hlt => hfar m hlt ha)
    exact .inr ((h.ends a).2 ⟨ha, hfar⟩)

theorem Level.acyclic (h : Level next root n [] known) : ¬ TransGen (Edge next) root root := by
  intro hcycle
  obtain ⟨a, hreach, hback⟩ := TransGen.tail'_iff.1 hcycle
  have hcloser : ∃ k < n, Within next root k a := by
    clear hcycle hback
    induction hreach with
    | refl => exact (h.closer_or_mem (Nat.zero_le n) rfl).resolve_right not_mem_nil
    | tail _ hedge ih =>
      obtain ⟨k, hk, hb⟩ := ih
      exact (h.closer_or_mem hk ⟨_, hb, hedge⟩).resolve_right not_mem_nil
  obtain ⟨k, hk, ha⟩ := hcloser
  exact h.left k hk a ha hback

end

theorem Level.start (next : α → List α) (root : α) :
    Level next root 0 [[root]] (Std.TreeSet.empty.insert root) := by
  refine ⟨by simp [Path], by simp [fronts, Within], fun a => ?_, by simp⟩
  rw [contains_insert_iff]
  simp [Within]

theorem Level.extend (h : Level next root n level known)
    (hback : ∀ v ∈ fronts level, root ∉ next v) :
    Level next root (n + 1) (Search.extend next level [] known).1
      (Search.extend next level [] known).2 := by
  have hext := extend_spec next level [] known
  have hknows : ∀ a, (Search.extend next level [] known).2.contains a ↔
      ∃ m ≤ n + 1, Within next root m a := by
    intro a
    rw [hext.knows, h.knows]
    constructor
    · rintro (⟨m, hm, ha⟩ | ha)
      · exact ⟨m, Nat.le_succ_of_le hm, ha⟩
      · obtain ⟨v, hv, ha⟩ := mem_flatMap.1 ha
        exact ⟨n + 1, Nat.le_refl _, v, ((h.ends v).1 hv).1, ha⟩
    · rintro ⟨m, hm, ha⟩
      rcases Nat.le_succ_iff.1 hm with hm | rfl
      · exact .inl ⟨m, hm, ha⟩
      · obtain ⟨b, hb, hedge⟩ := ha
        rcases h.closer_or_mem (Nat.le_refl n) hb with ⟨k, hk, hb⟩ | hb
        · exact .inl ⟨k + 1, hk, b, hb, hedge⟩
        · exact .inr (mem_flatMap.2 ⟨b, hb, hedge⟩)
  refine ⟨forall_extend (by simp) (fun v path hp w hw => ?_) known, fun a => ⟨fun ha => ?_, ?_⟩,
    hknows, fun m hm a ha => ?_⟩
  · obtain ⟨⟨hchain, hlast⟩, hlength⟩ := h.paths _ hp
    exact ⟨⟨isChain_cons_cons.2 ⟨hw, hchain⟩, by rwa [getLast?_cons_cons]⟩, by simpa using hlength⟩
  · obtain ⟨hnew, ha⟩ := ((hext.ends a).1 ha).resolve_left nofun
    obtain ⟨v, hv, ha⟩ := mem_flatMap.1 ha
    exact ⟨⟨v, ((h.ends v).1 hv).1, ha⟩, fun m hm ha =>
      hnew ((h.knows a).2 ⟨m, Nat.le_of_lt_succ hm, ha⟩)⟩
  · rintro ⟨ha, hfar⟩
    have hnew : ¬ known.contains a := by
      intro hknown
      obtain ⟨m, hm, ha⟩ := (h.knows a).1 hknown
      exact hfar m (Nat.lt_succ_of_le hm) ha
    have hknown := (hknows a).2 ⟨n + 1, Nat.le_refl _, ha⟩
    exact (hext.ends a).2 (.inr ⟨hnew, ((hext.knows a).1 hknown).resolve_left hnew⟩)
  · rcases h.closer_or_mem (Nat.le_of_lt_succ hm) ha with ⟨k, hk, ha⟩ | ha
    · exact h.left k hk a ha
    · exact hback a ha

/-! ### Cycles -/

/-- A list that starts and ends with the root, with an edge from each node to the next. -/
structure Cycle (edge : α → α → Prop) (root : α) (c : List α) : Prop where
  head : c.head? = some root
  last : c.getLast? = some root
  chain : c.IsChain edge
  length : 2 ≤ c.length

/-- Nothing if there is no cycle through the root, and otherwise a shortest one. -/
def Shortest (edge : α → α → Prop) (root : α) (c : List α) : Prop :=
  (c = [] ∧ ¬ TransGen edge root root) ∨
    (Cycle edge root c ∧ ∀ c', Cycle edge root c' → c.length ≤ c'.length)

section

omit [Ord α] [Std.TransOrd α] [Std.LawfulEqOrd α]

theorem Cycle.within (h : Cycle (Edge next) root c) :
    ∃ n a, c.length = n + 2 ∧ Within next root n a ∧ Edge next a root := by
  obtain ⟨hhead, hlast, hchain, hlength⟩ := h
  rw [← reverse_reverse c] at hhead hlast hchain
  rw [← length_reverse] at hlength ⊢
  generalize c.reverse = l at hhead hlast hchain hlength ⊢
  rw [head?_reverse] at hhead
  rw [getLast?_reverse] at hlast
  rw [isChain_reverse] at hchain
  match l with
  | b :: a :: path =>
    obtain rfl : b = root := by simpa using hlast
    rw [isChain_cons_cons] at hchain
    rw [getLast?_cons_cons] at hhead
    exact ⟨path.length, a, rfl, Path.within ⟨hchain.2, hhead⟩, hchain.1⟩

theorem Shortest.ne_nil_iff (h : Shortest (Edge next) root c) :
    c ≠ [] ↔ TransGen (Edge next) root root := by
  rcases h with ⟨rfl, hacyclic⟩ | ⟨hcycle, -⟩
  · simp [hacyclic]
  · obtain ⟨n, a, hlength, ha, hback⟩ := hcycle.within
    have hpath : TransGen (Edge next) root root := .tail' ha.reached hback
    refine iff_of_true ?_ hpath
    rintro rfl
    cases hlength

end

variable [DecidableEq α]

omit [Ord α] [Std.TransOrd α] [Std.LawfulEqOrd α] in
theorem not_back {level : List (List α)}
    (h : level.find? (fun path => path.head?.any fun v => root ∈ next v) = none) :
    ∀ v ∈ fronts level, root ∉ next v := by
  intro v hv hroot
  obtain ⟨path, hpath, hhead⟩ := mem_filterMap.1 hv
  have hnot := find?_eq_none.1 h path hpath
  rw [hhead] at hnot
  exact hnot (decide_eq_true hroot)

/-- A shortest cycle is found if there is one. Each level has a new node, so the fuel lasts. -/
theorem returnFrom_shortest {univ : List α}
    (huniv : ∀ a, ReflTransGen (Edge next) root a → a ∈ univ) {known : Std.TreeSet α}
    (h : Level next root n level known) {l : List α} (hnodup : l.Nodup)
    (hl : ∀ a ∈ l, known.contains a) (hfuel : univ.length < fuel + l.length) :
    Shortest (Edge next) root (returnFrom next root fuel level known) := by
  induction fuel generalizing n level known l with
  | zero =>
    have hmem : ∀ a ∈ l, a ∈ univ := by
      intro a ha
      obtain ⟨m, -, ha⟩ := (h.knows a).1 (hl a ha)
      exact huniv a ha.reached
    have hlength := length_le_of_nodup hnodup hmem
    omega
  | succ fuel ih =>
    rw [returnFrom]
    cases hfind : level.find? fun path => path.head?.any fun v => root ∈ next v with
    | some path =>
      have hany := find?_some hfind
      obtain ⟨v, hv, hback⟩ := (Option.any_eq_true _ _).1 hany
      obtain ⟨⟨hchain, hlast⟩, hlength⟩ := h.paths path (mem_of_find?_eq_some hfind)
      obtain ⟨rest, rfl⟩ := head?_eq_some_iff.1 hv
      have hroot : root ∈ next v := of_decide_eq_true hback
      refine .inr ⟨⟨?_, by simp, ?_, by simp⟩, fun c hc => ?_⟩
      · rw [head?_reverse, getLast?_cons_cons]
        exact hlast
      · rw [isChain_reverse, isChain_cons_cons]
        exact ⟨hroot, hchain⟩
      · -- An edge from a node closer to the root would have been met before.
        obtain ⟨m, a, hm, ha, hlast⟩ := hc.within
        rw [length_reverse, length_cons, hlength, hm]
        by_contra hlt
        exact h.left m (by omega) a ha hlast
    | none =>
      have hnext := h.extend (not_back hfind)
      have hext := extend_spec next level [] known
      dsimp only
      generalize Search.extend next level [] known = r at hnext hext
      obtain ⟨level', known'⟩ := r
      dsimp only at hnext hext ⊢
      cases level' with
      | nil => exact .inl ⟨rfl, hnext.acyclic⟩
      | cons path rest =>
        obtain ⟨a, ha⟩ : ∃ a, a ∈ fronts (path :: rest) := by
          cases path with
          | nil => exact nomatch (hnext.paths [] mem_cons_self).2
          | cons a path => exact ⟨a, mem_cons_self⟩
        -- The end of a path of the new level was not known before.
        have hnew := ((hext.ends a).1 ha).resolve_left nofun
        have hknown := (hext.knows a).2 (.inr hnew.2)
        refine ih hnext (l := a :: l) (nodup_cons.2 ⟨fun hmem => hnew.1 (hl a hmem), hnodup⟩)
          (forall_mem_cons.2 ⟨hknown, fun b hb => ?_⟩) ?_
        · exact (hext.knows b).2 (.inl (hl b hb))
        · rw [length_cons]
          omega

theorem shortestCycle_shortest {univ : List α}
    (huniv : ∀ a, ReflTransGen (Edge next) root a → a ∈ univ) (hfuel : univ.length ≤ fuel) :
    Shortest (Edge next) root (shortestCycle next fuel root) :=
  returnFrom_shortest huniv (.start next root) (nodup_singleton root) (by simp)
    (Nat.lt_succ_of_le hfuel)

end ControlReach.Search

namespace ControlReach

open List Relation Search

/-! ### Cycles of calls -/

namespace CallGraph

variable {g : CallGraph}

theorem edge_callees : Edge (Neighbours.of g.callerNames g.callees).at f h ↔ (f, h) ∈ g.edges := by
  rw [Edge, Neighbours.at_of]
  split
  · exact mem_callees
  · rename_i hnot
    refine ⟨fun h => absurd h not_mem_nil, fun hedge => absurd ?_ hnot⟩
    obtain ⟨f, hf, hmem⟩ := mem_flatMap.1 hedge
    obtain ⟨_, -, heq⟩ := mem_map.1 hmem
    exact (Prod.mk.inj heq).1 ▸ hf

theorem edge_eq :
    Edge (Neighbours.of g.callerNames g.callees).at = fun f h => (f, h) ∈ g.edges := by
  funext f h
  exact propext edge_callees

theorem shortest_cycleThrough (g : CallGraph) (f : String) :
    Shortest (fun f h => (f, h) ∈ g.edges) f (g.cycleThrough f) := by
  rw [cycleThrough, ← edge_eq]
  have hreached : ∀ h, ReflTransGen (Edge (Neighbours.of g.callerNames g.callees).at) f h →
      h ∈ f :: g.edges.map Prod.snd := by
    intro h hreach
    rcases ReflTransGen.cases_tail hreach with heq | ⟨n, -, hlast⟩
    · exact heq ▸ mem_cons_self
    · exact mem_cons_of_mem _ (mem_map.2 ⟨_, edge_callees.1 hlast, rfl⟩)
  exact shortestCycle_shortest hreached (by simp [bound])

theorem cycleThrough_ne_nil_iff :
    g.cycleThrough f ≠ [] ↔ TransGen (fun f h => (f, h) ∈ g.edges) f f := by
  have hshortest := g.shortest_cycleThrough f
  rw [← edge_eq] at hshortest ⊢
  exact hshortest.ne_nil_iff

end CallGraph

namespace Program

variable {p : Program} {f h : String}

theorem calls_callGraph : p.callGraph.Calls f h ↔ (f, h) ∈ p.callGraph.edges := by
  refine ⟨fun hcalls => hcalls.2.2, fun hedge => ?_⟩
  obtain ⟨c, hc, hinvokes⟩ := mem_edges_callGraph.1 hedge
  have hcallee : ∀ x, (c.callTargets (p.controls.map ControlDecl.name)).lookup x = some h →
      h ∈ p.callGraph.names := by
    intro x hx
    obtain ⟨l, hl, htarget⟩ := ControlDecl.exists_of_callTargets hx
    cases htarget with
    | action | table => exact mem_names_callGraph.2 ⟨c, hc, ControlDecl.mem_nodes hl rfl⟩
    | inst hcontrol =>
      obtain ⟨c', hc', hname⟩ := mem_map.1 hcontrol
      exact mem_names_callGraph.2 ⟨c', hc', hname ▸ mem_cons_self⟩
  cases hinvokes with
  | action hd _ hx | table hd _ hx =>
    exact ⟨mem_names_callGraph.2 ⟨c, hc, ControlDecl.mem_nodes hd rfl⟩, hcallee _ hx, hedge⟩
  | body _ hx => exact ⟨mem_names_callGraph.2 ⟨c, hc, mem_cons_self⟩, hcallee _ hx, hedge⟩

theorem cycleThrough_ne_nil_iff : p.callGraph.cycleThrough f ≠ [] ↔ f ∈ p.callGraph.recursive := by
  have hcalls : p.callGraph.Calls = fun f h => (f, h) ∈ p.callGraph.edges := by
    funext f h
    exact propext calls_callGraph
  rw [CallGraph.cycleThrough_ne_nil_iff, CallGraph.mem_recursive_iff, hcalls]

/-- Edges join functions, callers and callees are their ends, and a function is recursive exactly if
a shortest cycle through it is found. -/
theorem callGraph_cycles (p : Program) :
    (∀ f h, h ∈ p.callGraph.callees f → f ∈ p.callGraph.names ∧ h ∈ p.callGraph.names) ∧
    (∀ f h, f ∈ p.callGraph.callers h ↔ h ∈ p.callGraph.callees f) ∧
    ∀ f, (f ∈ p.callGraph.recursive ↔ p.callGraph.cycleThrough f ≠ []) ∧
      (p.callGraph.cycleThrough f ≠ [] →
        Cycle (fun a b => b ∈ p.callGraph.callees a) f (p.callGraph.cycleThrough f) ∧
        ∀ c, Cycle (fun a b => b ∈ p.callGraph.callees a) f c →
          (p.callGraph.cycleThrough f).length ≤ c.length) := by
  refine ⟨fun f h hmem => ?_, fun f h => ?_, fun f => ⟨?_, fun hcycle => ?_⟩⟩
  · obtain ⟨hf, hh, -⟩ := calls_callGraph.2 (CallGraph.mem_callees.1 hmem)
    exact ⟨hf, hh⟩
  · exact p.built_callGraph.mem_callers
  · exact cycleThrough_ne_nil_iff.symm
  · simp only [CallGraph.mem_callees]
    exact (p.callGraph.shortest_cycleThrough f).resolve_left fun h => hcycle h.1

end Program

end ControlReach
