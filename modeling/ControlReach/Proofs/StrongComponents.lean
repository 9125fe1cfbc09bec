import ControlReach.Calls.Components
import ControlReach.Proofs.SearchOrder
import Std.Data.TreeMap.Lemmas

/-!
# The components that are found

A node on the stack reaches a node of the current path that was entered no later, and a node of the
path reaches everything entered after it on the stack. When the low link of a node is its own
number, no edge leads from it or from what is above it to the rest of the stack.
-/

namespace ControlReach.Tarjan

open List Relation Search

variable {next : String → List String} {path new done univ : List String} {s t : Tarjan}
  {v w : String}

theorem getD_insert {β : Type} (m : Std.TreeMap String β) (v w : String) (a b : β) :
    (m.insert v a).getD w b = if w = v then a else m.getD w b := by
  rw [Std.TreeMap.getD_insert]
  exact if_congr (Std.LawfulEqCmp.compare_eq_iff_eq.trans eq_comm) rfl rfl

theorem contains_insert {β : Type} (m : Std.TreeMap String β) (v w : String) (a : β) :
    (m.insert v a).contains w = true ↔ w = v ∨ m.contains w = true := by
  rw [Std.TreeMap.contains_insert, Bool.or_eq_true, beq_iff_eq, Std.LawfulEqCmp.compare_eq_iff_eq,
    eq_comm]

theorem getD_clear (l : List String) (m : Std.TreeMap String Bool) (w : String) :
    (l.foldl (fun m w => m.insert w false) m).getD w false = true ↔
      w ∉ l ∧ m.getD w false = true := by
  induction l generalizing m with
  | nil => simp
  | cons v l ih =>
    rw [foldl_cons, ih, getD_insert, mem_cons]
    split <;> simp_all

theorem pop_eq (h : v ∉ new) (rest : List String) :
    pop v (new ++ v :: rest) = (new ++ [v], rest) := by
  induction new with
  | nil => simp [pop]
  | cons w new ih =>
    obtain ⟨hw, hnew⟩ := not_or.1 (mem_cons.not.1 h)
    simp [pop, ih hnew, Ne.symm hw]

/-! ### Complete components -/

/-- Components with no edge out of them, and none from one of them to a later one. -/
structure Complete (next : String → List String) (l : List (List String)) : Prop where
  nonempty : [] ∉ l
  nodup : l.flatten.Nodup
  closed : ∀ x ∈ l.flatten, ∀ y ∈ next x, y ∈ l.flatten
  connected : ∀ c ∈ l, ∀ x ∈ c, ∀ y ∈ c, ReflTransGen (Edge next) x y
  ordered : l.Pairwise fun c c' => ∀ x ∈ c, ∀ y ∈ c', y ∉ next x

theorem Complete.add (h : Complete next l) (hnil : c ≠ []) (hnodup : c.Nodup)
    (hnew : ∀ x ∈ c, x ∉ l.flatten) (hedges : ∀ x ∈ c, ∀ y ∈ next x, y ∈ c ∨ y ∈ l.flatten)
    (hconnected : ∀ x ∈ c, ∀ y ∈ c, ReflTransGen (Edge next) x y) : Complete next (l ++ [c]) := by
  have hflatten : (l ++ [c]).flatten = l.flatten ++ c := by simp
  refine ⟨?_, ?_, ?_, forall_mem_append.2 ⟨h.connected, forall_mem_singleton.2 hconnected⟩, ?_⟩
  · simp [h.nonempty, hnil.symm]
  · rw [hflatten]
    exact h.nodup.append hnodup fun x hx hc => hnew x hc hx
  · rw [hflatten]
    refine forall_mem_append.2 ⟨fun x hx y hy => mem_append_left _ (h.closed x hx y hy), ?_⟩
    exact fun x hx y hy => mem_append.2 (hedges x hx y hy).symm
  · refine pairwise_append.2 ⟨h.ordered, pairwise_singleton _ _, fun c' hc' => ?_⟩
    refine forall_mem_singleton.2 fun x hx y hy hedge => hnew y hy ?_
    exact h.closed x (mem_flatten_of_mem hc' hx) y hedge

/-- What is reached from a component is in it or in an earlier one. -/
theorem Complete.mem_of_reaches {before after : List (List String)}
    (h : Complete next (before ++ after)) (hx : x ∈ before.flatten)
    (hxy : ReflTransGen (Edge next) x y) : y ∈ before.flatten := by
  induction hxy with
  | refl => exact hx
  | @tail y z _ hedge ih =>
    have hz := h.closed y (flatten_append ▸ mem_append_left _ ih) z hedge
    rw [flatten_append] at hz
    refine (mem_append.1 hz).resolve_right fun hafter => ?_
    obtain ⟨c, hc, hy⟩ := mem_flatten.1 ih
    obtain ⟨c', hc', hz⟩ := mem_flatten.1 hafter
    exact (pairwise_append.1 h.ordered).2.2 c hc c' hc' y hy z hz hedge

theorem Complete.mem_iff (h : Complete next l) (hc : c ∈ l) (hx : x ∈ c) :
    y ∈ c ↔ ReflTransGen (Edge next) x y ∧ ReflTransGen (Edge next) y x := by
  refine ⟨fun hy => ⟨h.connected c hc x hx y hy, h.connected c hc y hy x hx⟩, ?_⟩
  rintro ⟨hxy, hyx⟩
  -- The other node is no later than this component, and not before it, for it leads back.
  obtain ⟨before, after, rfl⟩ := append_of_mem hc
  have hnodup := h.nodup
  have hy : y ∈ (before ++ [c]).flatten := by
    rw [append_cons] at h
    exact h.mem_of_reaches (by simp [hx]) hxy
  rw [flatten_append, mem_append, flatten_singleton] at hy
  refine hy.resolve_left fun hy => ?_
  rw [flatten_append, flatten_cons] at hnodup
  exact (nodup_append.1 hnodup).2.2 x (h.mem_of_reaches hy hyx) x (mem_append_left _ hx) rfl

/-! ### Searches under way -/

/-- What holds of a search among the nodes of `univ` at any time, with those of `path` entered and
not left. -/
structure Sound (next : String → List String) (univ path : List String) (t : Tarjan) : Prop where
  within : ∀ w, t.index.contains w = true → w ∈ univ
  complete : Complete next t.components
  known : ∀ w, t.index.contains w = true ↔ w ∈ t.stack ∨ w ∈ t.components.flatten
  onStack : ∀ w, t.onStack.getD w false = true ↔ w ∈ t.stack
  disjoint : ∀ w ∈ t.stack, w ∉ t.components.flatten
  sublist : path <+ t.stack
  counted : ∀ w ∈ t.stack, t.number w < t.counter
  decreasing : t.stack.Pairwise fun a b => t.number b < t.number a
  back : ∀ x ∈ t.stack, ∃ u ∈ path, t.number u ≤ t.number x ∧ ReflTransGen (Edge next) x u
  ahead : ∀ u ∈ path, ∀ x ∈ t.stack, t.number u ≤ t.number x → ReflTransGen (Edge next) u x
  left : ∀ x ∈ t.stack, x ∉ path → ∀ y ∈ next x, t.index.contains y = true

/-- What a search knows of a node stays the same. -/
structure Kept (t s : Tarjan) : Prop where
  counter : t.counter ≤ s.counter
  known : ∀ w, t.index.contains w = true →
    s.index.contains w = true ∧ s.number w = t.number w ∧ s.low w = t.low w

/-- A visit of `v` has put `new` on the stack. The low link of `v` is the least number that an edge
leads to from there, or all numbers on the stack are less. -/
structure Visited (next : String → List String) (v : String) (t : Tarjan) (new : List String)
    (s : Tarjan) : Prop where
  kept : Kept t s
  known : s.index.contains v = true
  stack : s.stack = new ++ t.stack
  low_le : ∀ x ∈ new, ∀ y ∈ next x, y ∈ t.stack → s.low v ≤ s.number y
  low : t.counter ≤ s.low v ∨
    ∃ y ∈ t.stack, ReflTransGen (Edge next) v y ∧ s.number y = s.low v

/-- The same while `v` is on the path, with those of its successors followed that are `done`. -/
structure Follows (next : String → List String) (v : String) (t : Tarjan) (done new : List String)
    (s : Tarjan) : Prop where
  kept : Kept t s
  stack : s.stack = new ++ v :: t.stack
  number : s.number v = t.counter
  low_le_number : s.low v ≤ t.counter
  low : ∃ y ∈ s.stack, ReflTransGen (Edge next) v y ∧ s.number y = s.low v
  low_le : ∀ x ∈ new, ∀ y ∈ next x, y ∈ t.stack → s.low v ≤ s.number y
  followed : ∀ w ∈ done, s.index.contains w = true ∧ (w ∈ t.stack → s.low v ≤ s.number w)

theorem Kept.trans (h : Kept t s) (h' : Kept s s') : Kept t s' := by
  refine ⟨Nat.le_trans h.counter h'.counter, fun w hw => ?_⟩
  obtain ⟨hs, hnumber, hlow⟩ := h.known w hw
  obtain ⟨hs', hnumber', hlow'⟩ := h'.known w hs
  exact ⟨hs', hnumber'.trans hnumber, hlow'.trans hlow⟩

theorem Kept.refl (t : Tarjan) : Kept t t := ⟨Nat.le_refl _, fun _ hw => ⟨hw, rfl, rfl⟩⟩

theorem low_lower (v w : String) (n : Nat) (t : Tarjan) :
    (t.lower v n).low w = if w = v then min (t.low v) n else t.low w :=
  getD_insert _ _ _ _ _

theorem Kept.lower (h : Kept t s) (hv : t.index.contains v = false) (n : Nat) :
    Kept t (s.lower v n) := by
  refine ⟨h.counter, fun w hw => ?_⟩
  obtain ⟨hknown, hnumber, hlow⟩ := h.known w hw
  have hne : w ≠ v := fun heq => by simp [← heq, hw] at hv
  exact ⟨hknown, hnumber, by rw [low_lower, if_neg hne, hlow]⟩

namespace Sound

theorem lower (h : Sound next univ path t) (v : String) (n : Nat) : Sound next univ path (t.lower v n) :=
  ⟨h.within, h.complete, h.known, h.onStack, h.disjoint, h.sublist, h.counted, h.decreasing, h.back,
    h.ahead, h.left⟩

theorem known_of_mem (h : Sound next univ path t) (hw : w ∈ t.stack) : t.index.contains w = true :=
  (h.known w).2 (.inl hw)

theorem nodup (h : Sound next univ path t) : t.stack.Nodup := by
  refine h.decreasing.imp fun hlt => ?_
  rintro rfl
  exact Nat.lt_irrefl _ hlt

/-- Numbers grow towards the top of the stack. -/
theorem numbers (h : Sound next univ path s) (hstack : s.stack = new ++ v :: rest) :
    (∀ x ∈ new, s.number v < s.number x) ∧ ∀ y ∈ rest, s.number y < s.number v := by
  have hdecreasing := h.decreasing
  rw [hstack, pairwise_append, pairwise_cons] at hdecreasing
  exact ⟨fun x hx => hdecreasing.2.2 x hx v mem_cons_self, hdecreasing.2.1.1⟩

theorem initial (next : String → List String) (univ : List String) :
    Sound next univ [] Tarjan.initial := by
  refine ⟨?_, ⟨?_, ?_, ?_, ?_, ?_⟩, ?_, ?_, ?_, ?_, ?_, ?_, ?_, ?_, ?_⟩ <;> simp [Tarjan.initial]

theorem enter (h : Sound next univ path t) (hv : t.index.contains v = false) (hvu : v ∈ univ)
    (hchain : ∀ u ∈ path, ReflTransGen (Edge next) u v) :
    Sound next univ (v :: path) (t.enter v) ∧ Follows next v t [] [] (t.enter v) := by
  have hnew : v ∉ t.stack ∧ v ∉ t.components.flatten := by
    rw [← not_or, ← h.known v, hv]
    exact Bool.false_ne_true
  have hne : ∀ w ∈ t.stack, w ≠ v := fun w hw heq => hnew.1 (heq ▸ hw)
  have hself : (t.enter v).number v = t.counter :=
    (getD_insert _ _ _ _ _).trans (if_pos rfl)
  have hnumber : ∀ {w}, w ≠ v → (t.enter v).number w = t.number w :=
    fun hne => (getD_insert _ _ _ _ _).trans (if_neg hne)
  have hlow : ∀ w, (t.enter v).low w = if w = v then t.counter else t.low w :=
    fun w => getD_insert _ _ _ _ _
  have hknown : ∀ w, (t.enter v).index.contains w = true ↔ w = v ∨ t.index.contains w = true :=
    fun w => contains_insert _ _ _ _
  refine ⟨⟨fun w hw => ?_, h.complete, fun w => ?_, fun w => ?_, ?_, h.sublist.cons_cons v, ?_, ?_,
    ?_, ?_, ?_⟩,
    ⟨⟨Nat.le_succ _, fun w hw => ?_⟩, rfl, hself, ?_, ?_, forall_mem_nil _, forall_mem_nil _⟩⟩
  · obtain rfl | hw := (hknown w).1 hw
    · exact hvu
    · exact h.within w hw
  · rw [hknown, h.known]
    simp only [Tarjan.enter, mem_cons, or_assoc]
  · simp only [Tarjan.enter, getD_insert, mem_cons, ← h.onStack]
    split <;> simp [*]
  · exact forall_mem_cons.2 ⟨hnew.2, h.disjoint⟩
  · refine forall_mem_cons.2 ⟨?_, fun w hw => ?_⟩
    · rw [hself]
      exact Nat.lt_succ_self _
    · rw [hnumber (hne w hw)]
      exact Nat.lt_succ_of_lt (h.counted w hw)
  · refine pairwise_cons.2 ⟨fun w hw => ?_, h.decreasing.imp_of_mem fun ha hb hlt => ?_⟩
    · rw [hself, hnumber (hne w hw)]
      exact h.counted w hw
    · rwa [hnumber (hne _ ha), hnumber (hne _ hb)]
  · refine forall_mem_cons.2 ⟨⟨v, mem_cons_self, Nat.le_refl _, .refl⟩, fun x hx => ?_⟩
    obtain ⟨u, hu, hle, hpath⟩ := h.back x hx
    rw [hnumber (hne x hx)]
    refine ⟨u, mem_cons_of_mem _ hu, ?_, hpath⟩
    rwa [hnumber (hne u (h.sublist.subset hu))]
  · -- Nothing on the stack has a greater number than the node that is entered.
    refine forall_mem_cons.2 ⟨forall_mem_cons.2 ⟨fun _ => .refl, fun x hx hle => ?_⟩, fun u hu =>
      forall_mem_cons.2 ⟨fun _ => hchain u hu, fun x hx hle => h.ahead u hu x hx ?_⟩⟩
    · rw [hself, hnumber (hne x hx)] at hle
      exact absurd (h.counted x hx) (Nat.not_lt.2 hle)
    · rwa [hnumber (hne x hx), hnumber (hne u (h.sublist.subset hu))] at hle
  · intro x hx hpath y hy
    obtain ⟨hxv, hpath⟩ := not_or.1 (mem_cons.not.1 hpath)
    exact (hknown y).2 (.inr (h.left x ((mem_cons.1 hx).resolve_left hxv) hpath y hy))
  · have hwv : w ≠ v := fun heq => by simp [← heq, hw] at hv
    exact ⟨(hknown w).2 (.inr hw), hnumber hwv, by rw [hlow, if_neg hwv]⟩
  · exact Nat.le_of_eq ((hlow v).trans (if_pos rfl))
  · exact ⟨v, mem_cons_self, .refl, by rw [hself, hlow, if_pos rfl]⟩

end Sound

/-! ### Following edges -/

namespace Follows

variable (hs : Sound next univ (v :: path) s) (hf : Follows next v t done new s)

include hs hf

theorem known : s.index.contains v = true :=
  hs.known_of_mem (by simp [hf.stack])

theorem known_of_mem (hw : w ∈ t.stack) : s.index.contains w = true :=
  hs.known_of_mem (by simp [hf.stack, hw])

omit hs in
theorem add (hw : s.index.contains w = true) (hle : w ∈ t.stack → s.low v ≤ s.number w) :
    Follows next v t (w :: done) new s :=
  { hf with followed := forall_mem_cons.2 ⟨⟨hw, hle⟩, hf.followed⟩ }

section

variable (hv : t.index.contains v = false)

include hv

/-- The search has gone on from `v` to `w`, and the low link is lowered to a number that is reached.
-/
theorem advance {new' : List String} (hkept : Kept s s')
    (hstack : s'.stack = new' ++ s.stack)
    (hnew : ∀ x ∈ new', ∀ y ∈ next x, y ∈ s.stack → n ≤ s'.number y)
    (hw : s'.index.contains w = true ∧ (w ∈ t.stack → n ≤ s'.number w))
    (hn : s.low v ≤ n ∨ ∃ y ∈ s.stack, ReflTransGen (Edge next) v y ∧ s'.number y = n) :
    Follows next v t (w :: done) (new' ++ new) (s'.lower v n) := by
  obtain ⟨-, hnumber, hlow⟩ := hkept.known v (hf.known hs)
  have hlower : (s'.lower v n).low v = min (s.low v) n := by
    rw [low_lower, if_pos rfl, hlow]
  have hsame : ∀ {y}, y ∈ s.stack → s'.number y = s.number y :=
    fun hy => (hkept.known _ (hs.known_of_mem hy)).2.1
  have hmem : ∀ {y}, y ∈ t.stack → y ∈ s.stack := fun hy => by simp [hf.stack, hy]
  refine ⟨(hf.kept.trans hkept).lower hv n, ?_, hnumber.trans hf.number, ?_, ?_, ?_, ?_⟩
  · show s'.stack = _
    rw [hstack, hf.stack, append_assoc]
  · exact hlower ▸ Nat.le_trans (Nat.min_le_left _ _) hf.low_le_number
  · obtain ⟨y, hy, hpath, hat⟩ : ∃ y ∈ s.stack, ReflTransGen (Edge next) v y ∧
        s'.number y = min (s.low v) n := by
      by_cases hmin : s.low v ≤ n
      · obtain ⟨y, hy, hpath, hat⟩ := hf.low
        exact ⟨y, hy, hpath, by rw [hsame hy, hat, Nat.min_eq_left hmin]⟩
      · rw [Nat.min_eq_right (Nat.le_of_not_le hmin)]
        exact hn.resolve_left hmin
    refine ⟨y, ?_, hpath, hat.trans hlower.symm⟩
    show y ∈ s'.stack
    exact hstack ▸ mem_append_right _ hy
  · rw [hlower]
    refine forall_mem_append.2 ⟨fun x hx y hy hy' => ?_, fun x hx y hy hy' => ?_⟩
    · exact Nat.le_trans (Nat.min_le_right _ _) (hnew x hx y hy (hmem hy'))
    · refine Nat.le_trans (Nat.min_le_left _ _) ?_
      exact (hsame (hmem hy')).symm ▸ hf.low_le x hx y hy hy'
  · rw [hlower]
    refine forall_mem_cons.2 ⟨⟨hw.1, fun hw' => ?_⟩, fun u hu => ?_⟩
    · exact Nat.le_trans (Nat.min_le_right _ _) (hw.2 hw')
    · obtain ⟨hknown, hle⟩ := hf.followed u hu
      refine ⟨(hkept.known u hknown).1, fun hu' => Nat.le_trans (Nat.min_le_left _ _) ?_⟩
      exact (hsame (hmem hu')).symm ▸ hle hu'

/-- An edge to a node on the stack. -/
theorem cross (hw : w ∈ s.stack) (hedge : w ∈ next v) :
    Follows next v t (w :: done) new (s.lower v (s.number w)) :=
  hf.advance hs hv (.refl s) rfl (forall_mem_nil _) ⟨hs.known_of_mem hw, fun _ => Nat.le_refl _⟩
    (.inr ⟨w, hw, .single hedge, rfl⟩)

/-- An edge to a node that is entered along it. -/
theorem tree (hw : s.index.contains w = false)
    (hedge : w ∈ next v) (hvisit : Visited next w s new' s') :
    Follows next v t (w :: done) (new' ++ new) (s'.lower v (s'.low w)) := by
  refine hf.advance hs hv hvisit.kept hvisit.stack hvisit.low_le ⟨hvisit.known, fun hw' => ?_⟩ ?_
  · rw [hf.known_of_mem hs hw'] at hw
    cases hw
  · refine hvisit.low.imp (fun hle => ?_) fun ⟨y, hy, hpath, hat⟩ => ⟨y, hy, hpath.head hedge, hat⟩
    have hlt := hs.counted v (by simp [hf.stack])
    have := hf.low_le_number
    rw [hf.number] at hlt
    omega

end

/-- A node whose low link is less than its number stays on the stack when it is left. -/
theorem keep (hall : ∀ w ∈ next v, w ∈ done) (hlow : s.low v ≠ s.number v) :
    Sound next univ path s ∧ Visited next v t (new ++ [v]) s := by
  obtain ⟨habove, hbelow⟩ := hs.numbers hf.stack
  have hlt : s.low v < s.number v := by
    have := hf.low_le_number
    have := hf.number
    omega
  -- The low link is the number of a node below, from which the search goes on back.
  obtain ⟨y, hy, hpath, hat⟩ := hf.low
  have hyt : y ∈ t.stack := by
    rw [hf.stack, mem_append, mem_cons] at hy
    obtain hy | rfl | hy := hy
    · have := habove y hy
      omega
    · omega
    · exact hy
  have hback : ∃ u ∈ path, s.number u < s.number v ∧ ReflTransGen (Edge next) v u := by
    obtain ⟨u, hu, hle, hyu⟩ := hs.back y hy
    have hltu : s.number u < s.number v := by omega
    refine ⟨u, (mem_cons.1 hu).resolve_left fun heq => ?_, hltu, hpath.trans hyu⟩
    exact Nat.lt_irrefl _ (heq ▸ hltu)
  refine ⟨⟨hs.within, hs.complete, hs.known, hs.onStack, hs.disjoint, (sublist_cons_self v path).trans
    hs.sublist, hs.counted, hs.decreasing, fun x hx => ?_, fun u hu => hs.ahead u
    (mem_cons_of_mem _ hu), fun x hx hpath z hz => ?_⟩, ⟨hf.kept, hf.known hs, ?_, ?_, ?_⟩⟩
  · obtain ⟨u, hu, hle, hxu⟩ := hs.back x hx
    obtain rfl | hu := mem_cons.1 hu
    · obtain ⟨u', hu', hlt', hvu⟩ := hback
      exact ⟨u', hu', by omega, hxu.trans hvu⟩
    · exact ⟨u, hu, hle, hxu⟩
  · by_cases hxv : x = v
    · exact (hf.followed z (hall z (hxv ▸ hz))).1
    · exact hs.left x hx (mem_cons.not.2 (not_or.2 ⟨hxv, hpath⟩)) z hz
  · rw [hf.stack, append_assoc, singleton_append]
  · refine forall_mem_append.2 ⟨hf.low_le, forall_mem_singleton.2 fun z hz => ?_⟩
    exact (hf.followed z (hall z hz)).2
  · exact .inr ⟨y, hyt, hpath, hat⟩

omit hs in
theorem mem_stack (x : String) : x ∈ s.stack ↔ x ∈ new ++ [v] ∨ x ∈ t.stack := by
  rw [hf.stack, append_cons, mem_append]

theorem apart (hx : x ∈ new ++ [v]) : x ∉ t.stack := by
  have hnodup := hs.nodup
  rw [hf.stack, append_cons] at hnodup
  exact fun hrest => (nodup_append.1 hnodup).2.2 x hx x hrest rfl

section Component

variable (ht : Sound next univ path t) (hall : ∀ w ∈ next v, w ∈ done) (hlow : s.low v = s.number v)

include ht hall hlow

/-- An edge from the component to the rest of the stack would have lowered the link. -/
theorem mem_of_edge (hx : x ∈ new ++ [v]) (hy : y ∈ next x) :
    y ∈ new ++ [v] ∨ y ∈ s.components.flatten := by
  obtain ⟨habove, hbelow⟩ := hs.numbers hf.stack
  have hy' : s.index.contains y = true ∧ (y ∈ t.stack → s.low v ≤ s.number y) := by
    obtain hnew | hv := mem_append.1 hx
    · refine ⟨hs.left x ((hf.mem_stack x).2 (.inl hx)) (fun hpath => ?_) y hy,
        hf.low_le x hnew y hy⟩
      obtain heq | hpath := mem_cons.1 hpath
      · exact Nat.lt_irrefl _ (habove v (heq ▸ hnew))
      · exact hf.apart hs hx (ht.sublist.subset hpath)
    · exact hf.followed y (hall y (mem_singleton.1 hv ▸ hy))
  rw [hs.known, hf.mem_stack] at hy'
  obtain ⟨(hnew | hrest) | hdone, hle⟩ := hy'
  · exact .inl hnew
  · have := hle hrest
    have := hbelow y hrest
    omega
  · exact .inr hdone

theorem connected (hx : x ∈ new ++ [v]) :
    ReflTransGen (Edge next) x v ∧ ReflTransGen (Edge next) v x := by
  have hstack := hf.mem_stack
  have hinside : ∀ {y}, ReflTransGen (Edge next) x y →
      y ∈ new ++ [v] ∨ y ∈ s.components.flatten := by
    intro y hxy
    induction hxy with
    | refl => exact .inl hx
    | tail _ hedge ih =>
      rcases ih with hy | hy
      · exact hf.mem_of_edge hs ht hall hlow hy hedge
      · exact .inr (hs.complete.closed _ hy _ hedge)
  constructor
  · obtain ⟨u, hu, -, hxu⟩ := hs.back x ((hstack x).2 (.inl hx))
    obtain rfl | hu := mem_cons.1 hu
    · exact hxu
    · have hrest := ht.sublist.subset hu
      obtain hin | hin := hinside hxu
      · exact absurd hrest (hf.apart hs hin)
      · exact absurd hin (hs.disjoint u ((hstack u).2 (.inr hrest)))
  · refine hs.ahead v mem_cons_self x ((hstack x).2 (.inl hx)) ?_
    obtain hx | hx := mem_append.1 hx
    · exact Nat.le_of_lt ((hs.numbers hf.stack).1 x hx)
    · exact Nat.le_of_eq (congrArg _ (mem_singleton.1 hx).symm)

/-- A node whose low link is its number is left with its component. -/
theorem close : Sound next univ path (s.close v) ∧ Visited next v t [] (s.close v) := by
  have hstack := hf.mem_stack
  have hapart : ∀ {x}, x ∈ new ++ [v] → x ∉ t.stack := fun hx => hf.apart hs hx
  have hold : ∀ x ∈ t.stack, s.number x = t.number x :=
    fun x hx => (hf.kept.known x (ht.known_of_mem hx)).2.1
  have hknown := hf.known hs
  have hclose : s.close v = { s with
      stack := t.stack
      onStack := (new ++ [v]).foldl (fun m w => m.insert w false) s.onStack
      components := s.components ++ [new ++ [v]] } := by
    have hv : v ∉ new := fun hv => Nat.lt_irrefl _ ((hs.numbers hf.stack).1 v hv)
    rw [Tarjan.close, hf.stack, pop_eq hv]
  have hflatten : (s.components ++ [new ++ [v]]).flatten = s.components.flatten ++ (new ++ [v]) := by
    simp only [flatten_append, flatten_cons, flatten_nil, append_nil]
  have hnodup := hs.nodup
  rw [hf.stack, append_cons] at hnodup
  rw [hclose]
  refine ⟨⟨hs.within, ?_, fun w => ?_, fun w => ?_, fun w hw => ?_, ht.sublist, fun w hw => ?_, ?_,
    ?_, ?_, ?_⟩,
    ⟨⟨hf.kept.counter, hf.kept.known⟩, hknown, rfl, forall_mem_nil _, ?_⟩⟩
  · refine hs.complete.add (by simp) (nodup_append.1 hnodup).1 (fun x hx => ?_)
      (fun x hx y => hf.mem_of_edge hs ht hall hlow hx) fun x hx y hy => ?_
    · exact hs.disjoint x ((hstack x).2 (.inl hx))
    · exact (hf.connected hs ht hall hlow hx).1.trans (hf.connected hs ht hall hlow hy).2
  · show s.index.contains w = true ↔ w ∈ t.stack ∨ _
    rw [hs.known, hstack, hflatten, mem_append (s := s.components.flatten)]
    tauto
  · rw [getD_clear, hs.onStack, hstack]
    exact ⟨fun ⟨hnot, h⟩ => h.resolve_left hnot, fun h => ⟨fun hin => hapart hin h, .inr h⟩⟩
  · rw [hflatten, mem_append, not_or]
    exact ⟨hs.disjoint w ((hstack w).2 (.inr hw)), fun hin => hapart hin hw⟩
  · exact hs.counted w ((hstack w).2 (.inr hw))
  · have hdecreasing := hs.decreasing
    rw [hf.stack, pairwise_append, pairwise_cons] at hdecreasing
    exact hdecreasing.2.1.2
  · intro x hx
    obtain ⟨u, hu, hle, hxu⟩ := ht.back x hx
    refine ⟨u, hu, ?_, hxu⟩
    show s.number u ≤ s.number x
    rwa [hold x hx, hold u (ht.sublist.subset hu)]
  · exact fun u hu x hx => hs.ahead u (mem_cons_of_mem _ hu) x ((hstack x).2 (.inr hx))
  · intro x hx hpath
    refine hs.left x ((hstack x).2 (.inr hx)) (mem_cons.not.2 (not_or.2 ⟨fun heq => ?_, hpath⟩))
    exact hapart (mem_append_right _ (mem_singleton.2 heq)) hx
  · exact .inl (Nat.le_of_eq (hf.number.symm.trans hlow.symm))

end Component

end Follows

/-! ### Whole searches -/

/-- Visiting a new node that all of the path leads to keeps a search sound. -/
def Visits (next : String → List String) (univ path : List String)
    (visit : String → Tarjan → Tarjan) : Prop :=
  ∀ v t, Sound next univ path t → t.index.contains v = false → v ∈ univ →
    (∀ u ∈ path, ReflTransGen (Edge next) u v) →
    Sound next univ path (visit v t) ∧ ∃ new, Visited next v t new (visit v t)

section Follow

variable {visit : String → Tarjan → Tarjan} (hvisit : Visits next univ (v :: path) visit)
  (hv : t.index.contains v = false) (hchain : ∀ u ∈ path, ReflTransGen (Edge next) u v)

include hvisit hv hchain

/-- One successor: entered now, on the stack, or in a complete component. -/
theorem follow_spec (hs : Sound next univ (v :: path) s) (hf : Follows next v t done new s)
    (hw : w ∈ next v) (hwu : w ∈ univ) : Sound next univ (v :: path) (follow visit v s w) ∧
      ∃ new', Follows next v t (w :: done) new' (follow visit v s w) := by
  unfold follow
  cases hindex : s.index.contains w with
  | false =>
    have hreach : ∀ u ∈ v :: path, ReflTransGen (Edge next) u w :=
      forall_mem_cons.2 ⟨.single hw, fun u hu => (hchain u hu).tail hw⟩
    obtain ⟨hs', new', hvisited⟩ := hvisit w s hs hindex hwu hreach
    exact ⟨hs'.lower v _, _, hf.tree hs hv hindex hw hvisited⟩
  | true =>
    simp only [Bool.not_true, Bool.false_eq_true, if_false]
    split
    · exact ⟨hs.lower v _, _, hf.cross hs hv ((hs.onStack w).1 ‹_›) hw⟩
    · refine ⟨hs, new, hf.add hindex fun hmem => ?_⟩
      exact absurd ((hs.onStack w).2 (by simp [hf.stack, hmem])) ‹_›

/-- All successors, by induction on those not yet followed. -/
theorem foldl_follow_spec (ws : List String) (hws : ∀ w ∈ ws, w ∈ next v ∧ w ∈ univ)
    (hs : Sound next univ (v :: path) s) (hf : Follows next v t done new s) :
    Sound next univ (v :: path) (ws.foldl (follow visit v) s) ∧
      ∃ new', Follows next v t (ws.reverse ++ done) new' (ws.foldl (follow visit v) s) := by
  induction ws generalizing s done new with
  | nil => exact ⟨hs, _, hf⟩
  | cons w ws ih =>
    obtain ⟨⟨hw, hwu⟩, hws⟩ := forall_mem_cons.1 hws
    obtain ⟨hs', new', hf'⟩ := follow_spec hvisit hv hchain hs hf hw hwu
    rw [foldl_cons, reverse_cons, append_assoc, singleton_append]
    exact ih hws hs' hf'

end Follow

/-- One visit enters everything behind `v`, and the fuel lasts. -/
theorem visits_connect (hclosed : ∀ a ∈ univ, ∀ b ∈ next a, b ∈ univ)
    (hfuel : univ.length ≤ fuel + path.length) : Visits next univ path (connect next fuel) := by
  induction fuel generalizing path with
  | zero =>
    intro v t ht hv hvu hchain
    obtain ⟨hs, -⟩ := ht.enter hv hvu hchain
    -- The path and `v` would be more nodes than there are.
    have := length_le_of_nodup (hs.nodup.sublist hs.sublist) fun u hu =>
      hs.within u (hs.known_of_mem (hs.sublist.subset hu))
    rw [length_cons] at this
    omega
  | succ fuel ih =>
    intro v t ht hv hvu hchain
    have hvisit : Visits next univ (v :: path) (connect next fuel) :=
      ih (by rw [length_cons]; omega)
    obtain ⟨hs, hf⟩ := ht.enter hv hvu hchain
    obtain ⟨hs, new, hf⟩ := foldl_follow_spec hvisit hv hchain (next v)
      (fun w hw => ⟨hw, hclosed v hvu w hw⟩) hs hf
    have hall : ∀ w ∈ next v, w ∈ (next v).reverse ++ [] := by simp
    unfold connect
    dsimp only
    split
    · exact (hf.close hs ht hall ‹_›).imp_right fun h => ⟨_, h⟩
    · exact (hf.keep hs hall ‹_›).imp_right fun h => ⟨_, h⟩

/-- When all roots have been visited, all components are complete. -/
theorem search_spec (hclosed : ∀ a ∈ univ, ∀ b ∈ next a, b ∈ univ) (hfuel : univ.length ≤ fuel)
    (hroots : ∀ v ∈ roots, v ∈ univ) :
    Complete next (search next fuel roots).components ∧
      (∀ v ∈ roots, v ∈ (search next fuel roots).components.flatten) ∧
      ∀ v ∈ (search next fuel roots).components.flatten, v ∈ univ := by
  have hvisit : ∀ {v t}, v ∈ univ → Sound next univ [] t →
      let s := if t.index.contains v then t else connect next fuel v t
      Sound next univ [] s ∧ Kept t s ∧ s.index.contains v = true := by
    intro v t hv ht
    dsimp only
    split
    · exact ⟨ht, .refl t, ‹_›⟩
    · obtain ⟨hs, new, hvisited⟩ := visits_connect hclosed hfuel v t ht
        (Bool.not_eq_true _ ▸ ‹_›) hv (forall_mem_nil _)
      exact ⟨hs, hvisited.kept, hvisited.known⟩
  have hrest : ∀ (rest : List String) {t}, (∀ v ∈ rest, v ∈ univ) → Sound next univ [] t →
      let s := rest.foldl (fun t v => if t.index.contains v then t else connect next fuel v t) t
      Sound next univ [] s ∧ Kept t s ∧ ∀ v ∈ rest, s.index.contains v = true := by
    intro rest
    induction rest with
    | nil => exact fun _ ht => ⟨ht, .refl _, forall_mem_nil _⟩
    | cons v rest ih =>
      intro t hrest ht
      obtain ⟨hv, hrest⟩ := forall_mem_cons.1 hrest
      obtain ⟨hs, hkept, hknown⟩ := hvisit hv ht
      obtain ⟨hs', hkept', hall⟩ := ih hrest hs
      exact ⟨hs', hkept.trans hkept', forall_mem_cons.2 ⟨(hkept'.known v hknown).1, hall⟩⟩
  obtain ⟨hs, -, hall⟩ := hrest roots hroots (.initial next univ)
  refine ⟨hs.complete, fun v hv => ((hs.known v).1 (hall v hv)).resolve_left fun hstack => ?_,
    fun v hv => hs.within v ((hs.known v).2 (.inr hv))⟩
  -- A node on the stack would lead back to the path, which is empty.
  obtain ⟨_, hmem, -⟩ := hs.back v hstack
  cases hmem

end ControlReach.Tarjan
