import ControlReach.Search
import Mathlib.Data.List.Nodup
import Mathlib.Data.List.Perm.Subperm
import Mathlib.Logic.Relation
import Std.Data.TreeSet.Lemmas

/-!
# What a search finds

A search finishes exactly the nodes that are reachable, each once and after its successors, except
those at which an edge was noted to close a cycle.
-/

namespace ControlReach.Search

open List Relation

variable {α : Type}

def Edge (next : α → List α) (a b : α) : Prop := b ∈ next a

/-- No path leads from a node back to it. -/
def Acyclic (next : α → List α) : Prop := ∀ a, ¬ TransGen (Edge next) a a

variable {a w : α} {path : List α}

theorem length_le_of_nodup {univ : List α} (hn : path.Nodup) (hs : ∀ a ∈ path, a ∈ univ) :
    path.length ≤ univ.length :=
  (hn.subperm hs).length_le

variable [Ord α]

def Noted (t : Trace α) (a b : α) : Prop := ∃ l ∈ t.loops, l.source = a ∧ l.target = b

/-- What holds of a search at any time, with the nodes of `path` entered and not finished. -/
structure Sound (next : α → List α) (path : List α) (t : Trace α) : Prop where
  seen : ∀ a, t.seen.contains a = true ↔ a ∈ t.done ∨ a ∈ path
  nodup : (t.done ++ path).Nodup
  closed : ∀ a ∈ t.done, ∀ b ∈ next a, b ∈ t.done ∨ b ∈ path
  ordered : ∀ before a after, t.done = before ++ a :: after →
    ∀ b ∈ next a, b ∈ after ∨ Noted t a b
  loops : ∀ l ∈ t.loops, Edge next l.source l.target ∧
    ReflTransGen (Edge next) l.target l.source

/-- A search has gone on from one state to another, below `v`. -/
structure Grown (next : α → List α) (v : α) (t t' : Trace α) : Prop where
  done : t.done ⊆ t'.done
  reached : ∀ a ∈ t'.done, a ∈ t.done ∨ ReflTransGen (Edge next) v a
  loops : t.loops ⊆ t'.loops

namespace Grown

variable {next : α → List α} {v : α} {t t' : Trace α}

theorem refl (next : α → List α) (v : α) (t : Trace α) : Grown next v t t :=
  ⟨Subset.refl _, fun _ => .inl, Subset.refl _⟩

theorem trans (h : Grown next v t t') (h' : Grown next v t' t'') : Grown next v t t'' :=
  ⟨Subset.trans h.done h'.done, fun a ha => (h'.reached a ha).elim (h.reached a) .inr,
    Subset.trans h.loops h'.loops⟩

theorem below (huv : Edge next u v) (h : Grown next v t t') : Grown next u t t' :=
  ⟨h.done, fun a ha => (h.reached a ha).imp_right fun hr => hr.head huv, h.loops⟩

theorem noted (h : Grown next v t t') : Noted t a b → Noted t' a b :=
  fun ⟨l, hl, hs⟩ => ⟨l, h.loops hl, hs⟩

end Grown

/-! ### Finished searches -/

section Finished

/-- Without the edges noted to close a cycle, no cycle leads through a finished node. -/
theorem Sound.not_cyclic {next : α → List α} (h : Sound next [] t) (ha : a ∈ t.done) :
    ¬ TransGen (fun a b => Edge next a b ∧ ¬ Noted t a b) a a := by
  have hbehind : ∀ {a b : α}, TransGen (fun a b => Edge next a b ∧ ¬ Noted t a b) a b →
      ∀ before after : List α, t.done = before ++ a :: after → b ∈ after := by
    intro a b hab before after hd
    induction hab with
    | single hab => exact (h.ordered before a after hd _ hab.1).resolve_right hab.2
    | tail _ hbc ih =>
      obtain ⟨between, rest, rfl⟩ := append_of_mem ih
      have hd' := hd.trans (append_assoc before (a :: between) _).symm
      have hc := (h.ordered _ _ rest hd' _ hbc.1).resolve_right hbc.2
      exact mem_append_right _ (mem_cons_of_mem _ hc)
  intro hcycle
  obtain ⟨before, after, hd⟩ := append_of_mem ha
  have hnodup : t.done.Nodup := by simpa using h.nodup
  rw [hd] at hnodup
  exact (nodup_cons.1 (nodup_append.1 hnodup).2.1).1 (hbehind hcycle before after hd)

end Finished

section Visit

variable {next : α → List α} {univ : List α}

variable {t : Trace α} {v : α}

/-- Finishing the end of the path, whose successors have all been looked at. -/
theorem Sound.finish (h : Sound next (v :: path) t) (hall : ∀ b ∈ next v, b ∈ t.done ∨ Noted t v b)
    (hseen : ∀ b ∈ next v, b ∈ t.done ∨ b ∈ v :: path) :
    Sound next path { t with done := v :: t.done } := by
  refine ⟨fun a => ?_, ?_, fun a ha b hb => ?_, fun before a after hd b hb => ?_, h.loops⟩
  · show t.seen.contains a = true ↔ _
    rw [h.seen a, mem_cons, mem_cons]
    tauto
  · have hperm : (t.done ++ v :: path).Perm (v :: t.done ++ path) := perm_middle
    exact hperm.nodup_iff.1 h.nodup
  · have hold : b ∈ t.done ∨ b ∈ v :: path := by
      rcases mem_cons.1 ha with rfl | ha
      · exact hseen b hb
      · exact h.closed a ha b hb
    simp only [mem_cons] at hold ⊢
    tauto
  · cases before with
    | nil =>
      obtain ⟨rfl, rfl⟩ := cons.inj hd
      exact hall b hb
    | cons c before => exact h.ordered before a after (cons.inj hd).2 b hb

theorem Sound.note (h : Sound next path t) (hw : w ∈ next v) (hback : ReflTransGen (Edge next) w v)
    (l : List α) : Sound next path { t with loops := t.loops ++ [⟨v, w, l⟩] } := by
  refine ⟨h.seen, h.nodup, h.closed, fun before a after hd b hb => ?_, fun l hl => ?_⟩
  · rcases h.ordered before a after hd b hb with hb | ⟨l, hl, hs⟩
    · exact .inl hb
    · exact .inr ⟨l, mem_append_left _ hl, hs⟩
  · rcases mem_append.1 hl with hl | hl
    · exact h.loops l hl
    · rw [mem_singleton.1 hl]
      exact ⟨hw, hback⟩

/-- The successors `ws` of `v` have been looked at. -/
def Looked (v : α) (path ws : List α) (t : Trace α) : Prop :=
  ∀ b ∈ ws, (b ∈ t.done ∨ Noted t v b) ∧ (b ∈ t.done ∨ b ∈ v :: path)

variable [Std.TransOrd α] [Std.LawfulEqOrd α]

theorem contains_insert_iff (s : Std.TreeSet α) (v a : α) :
    (s.insert v).contains a = true ↔ a = v ∨ s.contains a = true := by
  rw [Std.TreeSet.contains_insert, Bool.or_eq_true, beq_iff_eq, Std.LawfulEqCmp.compare_eq_iff_eq,
    eq_comm]

theorem Sound.enter (h : Sound next path t) (hv : t.seen.contains v = false) :
    Sound next (v :: path) { t with seen := t.seen.insert v } := by
  have hnot : ¬(v ∈ t.done ∨ v ∈ path) := by
    rw [← h.seen v, hv]
    simp
  refine ⟨fun a => ?_, ?_, fun a ha b hb => ?_, h.ordered, h.loops⟩
  · rw [contains_insert_iff, h.seen a, mem_cons]
    tauto
  · have hperm : (t.done ++ v :: path).Perm (v :: (t.done ++ path)) := perm_middle
    rw [hperm.nodup_iff, nodup_cons, mem_append]
    exact ⟨hnot, h.nodup⟩
  · rcases h.closed a ha b hb with hb | hb
    · exact .inl hb
    · exact .inr (mem_cons_of_mem _ hb)

variable [DecidableEq α]

/-- One visit finishes everything behind `v`, and the fuel lasts. -/
theorem visit_spec (hclosed : ∀ a ∈ univ, ∀ b ∈ next a, b ∈ univ) :
    ∀ fuel path v t, Sound next path t →
      t.seen.contains v = false → (∀ a ∈ path, a ∈ univ) → v ∈ univ →
      (∀ a ∈ path, ReflTransGen (Edge next) a v) → univ.length ≤ fuel + path.length →
      Sound next path (visit next fuel path v t) ∧ Grown next v t (visit next fuel path v t) ∧
        v ∈ (visit next fuel path v t).done := by
  intro fuel
  induction fuel with
  | zero =>
    intro path v t ht hv hpath hvu _ hfuel
    have hlen : (v :: path).length ≤ univ.length := by
      refine length_le_of_nodup ?_ (forall_mem_cons.2 ⟨hvu, hpath⟩)
      exact (ht.enter hv).nodup.of_append_right
    simp at hlen
    omega
  | succ fuel ih =>
    intro path v t ht hv hpath hvu hchain hfuel
    set follow : Trace α → α → Trace α := fun t w =>
      if !t.seen.contains w then visit next fuel (v :: path) w t
      else if w ∈ v :: path then
        { t with loops := t.loops ++ [⟨v, w, segment w (v :: path)⟩] }
      else t with hfollow
    have hhere : ∀ a ∈ v :: path, a ∈ univ := forall_mem_cons.2 ⟨hvu, hpath⟩
    have hreach : ∀ a ∈ v :: path, ReflTransGen (Edge next) a v :=
      forall_mem_cons.2 ⟨.refl, hchain⟩
    -- One successor: visited, noted, or finished before.
    have hstep : ∀ t' w, Sound next (v :: path) t' → w ∈ next v →
        Sound next (v :: path) (follow t' w) ∧ Grown next v t' (follow t' w) ∧
          ((w ∈ (follow t' w).done ∨ Noted (follow t' w) v w) ∧
            (w ∈ (follow t' w).done ∨ w ∈ v :: path)) := by
      intro t' w ht' hw
      by_cases hs : t'.seen.contains w = true
      · by_cases hp : w ∈ v :: path
        · have he : follow t' w =
              { t' with loops := t'.loops ++ [⟨v, w, segment w (v :: path)⟩] } := by
            simp only [hfollow, hs, Bool.not_true, Bool.false_eq_true, if_false, if_pos hp]
          rw [he]
          refine ⟨ht'.note hw (hreach w hp) _,
            ⟨Subset.refl _, fun _ => .inl, subset_append_left _ _⟩, ?_, .inr hp⟩
          exact .inr ⟨_, mem_append_right _ (mem_singleton_self _), rfl, rfl⟩
        · have he : follow t' w = t' := by
            simp only [hfollow, hs, Bool.not_true, Bool.false_eq_true, if_false, if_neg hp]
          have hd : w ∈ t'.done := ((ht'.seen w).1 hs).resolve_right hp
          rw [he]
          exact ⟨ht', Grown.refl next v t', .inl hd, .inl hd⟩
      · have hs' : t'.seen.contains w = false := Bool.not_eq_true _ ▸ hs
        have he : follow t' w = visit next fuel (v :: path) w t' := by
          simp only [hfollow, hs', Bool.not_false, if_true]
        have hsub := ih (v :: path) w t' ht' hs' hhere (hclosed v hvu w hw)
          (fun a ha => (hreach a ha).tail hw) (by simp; omega)
        rw [he]
        exact ⟨hsub.1, hsub.2.1.below hw, .inl hsub.2.2, .inl hsub.2.2⟩
    -- All successors, by induction on those not yet looked at.
    have hfold : ∀ (ws : List α) (t' : Trace α), (∀ w ∈ ws, w ∈ next v) →
        Sound next (v :: path) t' → Sound next (v :: path) (ws.foldl follow t') ∧
          Grown next v t' (ws.foldl follow t') ∧ Looked v path ws (ws.foldl follow t') := by
      intro ws
      induction ws with
      | nil => exact fun t' _ ht' => ⟨ht', Grown.refl next v t', forall_mem_nil _⟩
      | cons w ws ihw =>
        intro t' hws ht'
        obtain ⟨hw, hws⟩ := forall_mem_cons.1 hws
        obtain ⟨hs, hg, hdone, hseen⟩ := hstep t' w ht' hw
        obtain ⟨hs', hg', hl⟩ := ihw (follow t' w) hws hs
        exact ⟨hs', hg.trans hg', forall_mem_cons.2
          ⟨⟨hdone.imp (hg'.done ·) hg'.noted, hseen.imp_left (hg'.done ·)⟩, hl⟩⟩
    obtain ⟨hs, hg, hl⟩ := hfold (next v) { t with seen := t.seen.insert v } (fun _ hw => hw)
      (ht.enter hv)
    have he : visit next (fuel + 1) path v t =
        { (next v).foldl follow { t with seen := t.seen.insert v } with
          done := v :: ((next v).foldl follow { t with seen := t.seen.insert v }).done } := rfl
    rw [he]
    exact ⟨hs.finish (fun b hb => (hl b hb).1) (fun b hb => (hl b hb).2),
      ⟨fun a ha => mem_cons_of_mem _ (hg.done ha), forall_mem_cons.2 ⟨.inr .refl, hg.reached⟩,
        hg.loops⟩, mem_cons_self⟩

end Visit

/-! ### Whole searches -/

section Explore

variable [DecidableEq α] {next : α → List α} {univ : List α} {fuel : Nat} {v : α}

omit [Ord α] in
theorem mem_segment (w : α) (path : List α) : v ∈ segment w (v :: path) := by
  rw [segment, mem_reverse, mem_append, mem_singleton]
  by_cases h : v = w
  · exact .inr h
  · exact .inl (by simp [h])

omit [Ord α] in
theorem mem_of_mem_segment (hw : w ∈ path) (ha : a ∈ segment w path) : a ∈ path := by
  rw [segment, mem_reverse, mem_append, mem_singleton] at ha
  rcases ha with ha | rfl
  · exact takeWhile_subset _ ha
  · exact hw

omit [Ord α] in
theorem target_mem_segment (w : α) (path : List α) : w ∈ segment w path := by
  simp [segment]

def Loop.Within (univ : List α) (l : Loop α) : Prop :=
  (l.source ∈ l.path ∧ l.target ∈ l.path) ∧ ∀ a ∈ l.path, a ∈ univ

section Loops

variable {J : List α → Prop} {P : Loop α → Prop}
  (hnext : ∀ v path, J (v :: path) → ∀ w ∈ next v, J (w :: v :: path) ∧
    (w ∈ v :: path → P ⟨v, w, segment w (v :: path)⟩))

include hnext

theorem loops_visit : ∀ fuel path v t, J (v :: path) →
    (∀ l ∈ t.loops, P l) → ∀ l ∈ (visit next fuel path v t).loops, P l := by
  intro fuel
  induction fuel with
  | zero => exact fun _ _ _ _ h => h
  | succ fuel ih =>
    intro path v t hpath ht
    refine foldlRecOn (motive := fun t : Trace α => ∀ l ∈ t.loops, P l)
      (next v) _ ht fun t ht w hw => ?_
    obtain ⟨hdeeper, hnoted⟩ := hnext v path hpath w hw
    split
    · exact ih _ _ _ hdeeper ht
    · split
      · exact forall_mem_append.2 ⟨ht, forall_mem_singleton.2 (hnoted ‹_›)⟩
      · exact ht

theorem loops_explore (hroots : ∀ v ∈ roots, J [v]) (fuel : Nat) :
    ∀ l ∈ (explore next fuel roots).loops, P l := by
  refine foldlRecOn (motive := fun t : Trace α => ∀ l ∈ t.loops, P l)
    roots _ (by simp [Trace.empty]) fun t ht v hv => ?_
  split
  · exact ht
  · exact loops_visit hnext fuel [] v t (hroots v hv) ht

end Loops

theorem within_explore (hclosed : ∀ a ∈ univ, ∀ b ∈ next a, b ∈ univ)
    (hroots : ∀ v ∈ roots, v ∈ univ) (fuel : Nat) :
    ∀ l ∈ (explore next fuel roots).loops, l.Within univ := by
  refine loops_explore (J := fun path => ∀ a ∈ path, a ∈ univ) (fun v path hpath w hw => ?_)
    (fun v hv => forall_mem_singleton.2 (hroots v hv)) fuel
  refine ⟨forall_mem_cons.2 ⟨hclosed v (hpath v mem_cons_self) w hw, hpath⟩, fun hback => ?_⟩
  exact ⟨⟨mem_segment w path, target_mem_segment w _⟩,
    fun a ha => hpath a (mem_of_mem_segment hback ha)⟩

/-- Every node of the path noted with an edge that closes a cycle is on a cycle. -/
def Loop.Cyclic (next : α → List α) (l : Loop α) : Prop :=
  ∀ a ∈ l.path, TransGen (Edge next) a a

omit [Ord α] in
theorem between_of_mem_segment (hchain : (v :: path).IsChain fun x y => Edge next y x)
    (hw : w ∈ v :: path) (ha : a ∈ segment w (v :: path)) :
    ReflTransGen (Edge next) w a ∧ ReflTransGen (Edge next) a v := by
  induction path generalizing v a with
  | nil =>
    have hv := mem_singleton.1 (mem_of_mem_segment hw ha)
    rw [mem_singleton.1 hw, hv]
    exact ⟨.refl, .refl⟩
  | cons u path ih =>
    rw [isChain_cons_cons] at hchain
    by_cases hvw : v = w
    · have hseg : segment w (v :: u :: path) = [w] := by simp [segment, hvw]
      rw [hseg, mem_singleton] at ha
      rw [ha, hvw]
      exact ⟨.refl, .refl⟩
    · have hrest : w ∈ u :: path := (mem_cons.1 hw).resolve_left (Ne.symm hvw)
      have hseg : segment w (v :: u :: path) = segment w (u :: path) ++ [v] := by
        simp [segment, hvw]
      rw [hseg, mem_append, mem_singleton] at ha
      obtain ha | rfl := ha
      · exact (ih hchain.2 hrest ha).imp_right fun h => h.tail hchain.1
      · have hend : u ∈ segment w (u :: path) := mem_segment w path
        exact ⟨(ih hchain.2 hrest hend).1.tail hchain.1, .refl⟩

theorem cyclic_explore (roots : List α) (fuel : Nat) :
    ∀ l ∈ (explore next fuel roots).loops, l.Cyclic next := by
  refine loops_explore (J := IsChain fun x y => Edge next y x) (fun v path hchain w hw => ?_)
    (fun v _ => .singleton v) fuel
  refine ⟨isChain_cons_cons.2 ⟨hw, hchain⟩, fun hback a ha => ?_⟩
  obtain ⟨hwa, hav⟩ := between_of_mem_segment hchain hback ha
  exact TransGen.trans_left (TransGen.tail' hav hw) hwa

omit [DecidableEq α] in
theorem sound_empty [Std.TransOrd α] (next : α → List α) :
    Sound next [] (Trace.empty : Trace α) := by
  refine ⟨fun a => ?_, nodup_nil, ?_, ?_, ?_⟩ <;> simp [Trace.empty]

variable [Std.TransOrd α] [Std.LawfulEqOrd α]

variable (hclosed : ∀ a ∈ univ, ∀ b ∈ next a, b ∈ univ) (hfuel : univ.length ≤ fuel)

include hclosed hfuel

/-- A search from several nodes finishes them, and nothing but what is reachable from them. -/
theorem explore_spec (hroots : ∀ v ∈ roots, v ∈ univ) :
    Sound next [] (explore next fuel roots) ∧ (∀ v ∈ roots, v ∈ (explore next fuel roots).done) ∧
      ∀ a ∈ (explore next fuel roots).done, ∃ v ∈ roots, ReflTransGen (Edge next) v a := by
  -- By induction on the roots that are left; `t` is what has been found from those before.
  have hrest : ∀ (rest : List α) (t : Trace α), (∀ v ∈ rest, v ∈ univ) → Sound next [] t →
      let t' := rest.foldl (fun t v => if t.seen.contains v then t else visit next fuel [] v t) t
      Sound next [] t' ∧ (∀ a ∈ t.done, a ∈ t'.done) ∧ (∀ v ∈ rest, v ∈ t'.done) ∧
        ∀ a ∈ t'.done, a ∈ t.done ∨ ∃ v ∈ rest, ReflTransGen (Edge next) v a := by
    intro rest
    induction rest with
    | nil => exact fun t _ ht => ⟨ht, fun a ha => ha, by simp, fun a ha => .inl ha⟩
    | cons v rest ih =>
      intro t hrest ht
      obtain ⟨hv, hrest⟩ := forall_mem_cons.1 hrest
      -- Whether `v` was entered before or not, it is finished after its turn.
      obtain ⟨hs, hgrown, hmem⟩ : let t₁ := if t.seen.contains v then t else visit next fuel [] v t
          Sound next [] t₁ ∧ Grown next v t t₁ ∧ v ∈ t₁.done := by
        by_cases hseen : t.seen.contains v = true
        · have hdone : v ∈ t.done := ((ht.seen v).1 hseen).resolve_right (by simp)
          dsimp only
          rw [if_pos hseen]
          exact ⟨ht, Grown.refl next v t, hdone⟩
        · dsimp only
          rw [if_neg hseen]
          exact visit_spec hclosed fuel [] v t ht (Bool.not_eq_true _ ▸ hseen) (by simp) hv
            (by simp) (by simpa using hfuel)
      obtain ⟨hs', hkept, hall, hnew⟩ := ih _ hrest hs
      refine ⟨hs', fun a ha => hkept a (hgrown.done ha),
        forall_mem_cons.2 ⟨hkept v hmem, hall⟩, fun a ha => ?_⟩
      rcases hnew a ha with ha | ⟨w, hw, hreach⟩
      · exact (hgrown.reached a ha).imp_right fun hr => ⟨v, mem_cons_self, hr⟩
      · exact .inr ⟨w, mem_cons_of_mem _ hw, hreach⟩
  obtain ⟨hs, -, hall, hnew⟩ := hrest roots Trace.empty hroots (sound_empty next)
  refine ⟨hs, hall, fun a ha => (hnew a ha).resolve_left ?_⟩
  simp [Trace.empty]

variable (hv : v ∈ univ)

include hv

theorem explore_singleton_spec :
    Sound next [] (explore next fuel [v]) ∧ v ∈ (explore next fuel [v]).done ∧
      ∀ a ∈ (explore next fuel [v]).done, ReflTransGen (Edge next) v a := by
  have hroots : ∀ w ∈ [v], w ∈ univ := by simpa using hv
  obtain ⟨hs, hall, hreach⟩ := explore_spec hclosed hfuel hroots
  refine ⟨hs, hall v mem_cons_self, fun a ha => ?_⟩
  obtain ⟨w, hw, h⟩ := hreach a ha
  rwa [mem_singleton.1 hw] at h

theorem mem_explore_done_iff (a : α) :
    a ∈ (explore next fuel [v]).done ↔ ReflTransGen (Edge next) v a := by
  obtain ⟨hs, hmem, hreach⟩ := explore_singleton_spec hclosed hfuel hv
  refine ⟨hreach a, fun h => ?_⟩
  induction h with
  | refl => exact hmem
  | tail _ hbc ih => exact (hs.closed _ ih _ hbc).resolve_right (by simp)

theorem mem_reachable_iff (a : α) : a ∈ reachable next fuel v ↔ ReflTransGen (Edge next) v a :=
  mem_explore_done_iff hclosed hfuel hv a

theorem explore_done_nodup : (explore next fuel [v]).done.Nodup := by
  simpa using (explore_singleton_spec hclosed hfuel hv).1.nodup

/-- If no cycle is reached, every node is listed before its successors. -/
theorem explore_done_ordered
    (hacyclic : ∀ a, ReflTransGen (Edge next) v a → ¬ TransGen (Edge next) a a)
    {before after : List α} {b : α} (hd : (explore next fuel [v]).done = before ++ a :: after)
    (hb : b ∈ next a) : b ∈ after := by
  obtain ⟨hs, -, hreach⟩ := explore_singleton_spec hclosed hfuel hv
  rcases hs.ordered before a after hd b hb with hb | ⟨l, hl, rfl, -⟩
  · exact hb
  · obtain ⟨he, hback⟩ := hs.loops l hl
    have hsource := hreach l.source (hd ▸ mem_append_right _ mem_cons_self)
    exact absurd (TransGen.trans_left (.single he) hback) (hacyclic _ hsource)

theorem acyclic_of_loops_eq_nil (hloops : (explore next fuel [v]).loops = [])
    (hall : ∀ a b, Edge next a b → ReflTransGen (Edge next) v a) : Acyclic next := by
  intro a ha
  obtain ⟨b, hab, -⟩ := TransGen.head'_iff.1 ha
  have hdone := (mem_explore_done_iff hclosed hfuel hv a).2 (hall a b hab)
  have hsound := (explore_singleton_spec hclosed hfuel hv).1
  refine hsound.not_cyclic hdone (TransGen.mono (fun a b hab => ⟨hab, ?_⟩) a a ha)
  rintro ⟨l, hl, -⟩
  rw [hloops] at hl
  cases hl

end Explore

end ControlReach.Search
