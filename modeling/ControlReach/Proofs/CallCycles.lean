import ControlReach.Calls.Graph
import ControlReach.Proofs.StrongComponents

/-!
# Cycles of calls

The components of a call graph are the classes of functions that call one another, and what a
component calls is listed before it.
-/

namespace ControlReach.CallGraph

open List Relation Search

variable {g : CallGraph} {f h : String}

def Calls (g : CallGraph) (f h : String) : Prop :=
  f ∈ g.names ∧ h ∈ g.names ∧ (f, h) ∈ g.edges

/-! ### Neighbours -/

theorem Neighbours.at_of (nodes : List String) (next : String → List String) (f : String) :
    (Neighbours.of nodes next).at f = if f ∈ nodes then next f else [] := by
  have hfold : ∀ (nodes : List String) (t : Std.TreeMap String (List String)),
      (nodes.foldl (fun t f => t.insert f (next f)) t).getD f [] =
        if f ∈ nodes then next f else t.getD f [] := by
    intro nodes
    induction nodes with
    | nil => intro t; simp
    | cons x nodes ih =>
      intro t
      rw [foldl_cons, ih, Std.TreeMap.getD_insert]
      grind
  exact (hfold nodes ∅).trans (by simp)

theorem mem_names : f ∈ g.names ↔ g.isFunction f = true := by
  rw [isFunction, Option.isSome_iff_ne_none, ne_eq, Assoc.lookup_eq_none_iff, not_not]
  rfl

theorem mem_callees : h ∈ g.callees f ↔ (f, h) ∈ g.edges := by
  rw [callees, Order.sortTexts, Order.mem_sort, mem_edges]

theorem edge_inner : Edge (Neighbours.of g.names g.inner).at f h ↔ g.Calls f h := by
  rw [Edge, Neighbours.at_of]
  split
  · rw [inner, mem_filter, mem_callees, ← mem_names]
    exact ⟨fun ⟨he, hh⟩ => ⟨‹_›, hh, he⟩, fun ⟨_, hh, he⟩ => ⟨he, hh⟩⟩
  · exact ⟨(fun hmem => nomatch hmem), fun hcalls => absurd hcalls.1 ‹_›⟩

theorem edge_inner_eq : Edge (Neighbours.of g.names g.inner).at = g.Calls :=
  funext₂ fun _ _ => propext edge_inner

theorem closed_inner : ∀ f ∈ g.names, ∀ h ∈ (Neighbours.of g.names g.inner).at f, h ∈ g.names :=
  fun _ _ _ hh => (edge_inner.1 hh).2.1

/-! ### Components -/

theorem flatten_map_sort (l : List (List String)) :
    (l.map Order.sortTexts).flatten.Perm l.flatten := by
  induction l with
  | nil => exact .nil
  | cons c l ih => exact (Order.sort_perm _ c).append ih

/-- Complete components stay so when each is sorted. -/
theorem complete_map_sort {next : String → List String} (h : Tarjan.Complete next l) :
    Tarjan.Complete next (l.map Order.sortTexts) := by
  have hmem : ∀ (c : List String) x, x ∈ Order.sortTexts c ↔ x ∈ c :=
    fun c x => Order.mem_sort _ x c
  have hflatten := flatten_map_sort l
  refine ⟨fun hnil => ?_, hflatten.nodup_iff.2 h.nodup, ?_, ?_, ?_⟩
  · obtain ⟨c, hc, heq⟩ := mem_map.1 hnil
    have hperm : Perm [] c := heq ▸ Order.sort_perm _ c
    exact h.nonempty (hperm.nil_eq ▸ hc)
  · simpa only [hflatten.mem_iff] using h.closed
  · simpa only [forall_mem_map, hmem] using h.connected
  · rw [pairwise_map]
    simpa only [hmem] using h.ordered

theorem complete_components (g : CallGraph) :
    Tarjan.Complete (Neighbours.of g.names g.inner).at g.components ∧
      ∀ f, f ∈ g.components.flatten ↔ f ∈ g.names := by
  have hroots : ∀ f ∈ Order.sortTexts g.names, f ∈ g.names := fun f => (Order.mem_sort _ f _).1
  obtain ⟨hcomplete, hcover, hfrom⟩ := Tarjan.search_spec closed_inner (Nat.le_refl _) hroots
  refine ⟨complete_map_sort hcomplete, fun f => ?_⟩
  rw [components, (flatten_map_sort _).mem_iff]
  exact ⟨hfrom f, fun hf => hcover f ((Order.mem_sort _ f _).2 hf)⟩

/-- The components are the classes of functions that call each other, each after those that it
calls. -/
theorem components_partition (g : CallGraph) :
    (g.components.flatten.Nodup ∧ (∀ f, f ∈ g.components.flatten ↔ f ∈ g.names) ∧
      [] ∉ g.components) ∧
    (∀ f ∈ g.names, ∀ h ∈ g.names, (∃ c ∈ g.components, f ∈ c ∧ h ∈ c) ↔
      ReflTransGen g.Calls f h ∧ ReflTransGen g.Calls h f) ∧
    ∀ f h, g.Calls f h → (∃ c ∈ g.components, f ∈ c ∧ h ∈ c) ∨
      ∃ before c after, g.components = before ++ c :: after ∧ f ∈ c ∧ ∃ c' ∈ before, h ∈ c' := by
  obtain ⟨hcomplete, hnames⟩ := g.complete_components
  refine ⟨⟨hcomplete.nodup, hnames, hcomplete.nonempty⟩, fun f hf h _ => ?_, fun f h hcalls => ?_⟩
  · rw [← edge_inner_eq]
    obtain ⟨c, hc, hf⟩ := mem_flatten.1 ((hnames f).2 hf)
    exact ⟨fun ⟨c', hc', hf', hh⟩ => (hcomplete.mem_iff hc' hf').1 hh,
      fun hpaths => ⟨c, hc, hf, (hcomplete.mem_iff hc hf).2 hpaths⟩⟩
  · obtain ⟨c, hc, hf⟩ := mem_flatten.1 ((hnames f).2 hcalls.1)
    obtain ⟨before, after, heq⟩ := append_of_mem hc
    -- What is called from a component is in it or in an earlier one.
    rw [heq, append_cons] at hcomplete
    have hh := hcomplete.mem_of_reaches (by simp [hf]) (.single (edge_inner.2 hcalls))
    rw [flatten_append, mem_append, flatten_singleton] at hh
    rcases hh with hh | hh
    · obtain ⟨c', hc', hh⟩ := mem_flatten.1 hh
      exact .inr ⟨before, c, after, heq, hf, c', hc', hh⟩
    · exact .inl ⟨c, hc, hf, hh⟩

/-! ### Cycles -/

/-- A component is a cycle if it has two members, or the only member calls itself. -/
theorem isCycle_iff (hc : c ∈ g.components) (hh : h ∈ c) :
    g.isCycle c = true ↔ TransGen g.Calls h h := by
  obtain ⟨hcomplete, hall⟩ := g.complete_components
  have hnodup : c.Nodup := (nodup_flatten.1 hcomplete.nodup).1 c hc
  have hnames : h ∈ g.names := (hall h).1 (mem_flatten_of_mem hc hh)
  have hclass : ∀ a, a ∈ c ↔ ReflTransGen g.Calls h a ∧ ReflTransGen g.Calls a h :=
    fun a => edge_inner_eq ▸ hcomplete.mem_iff hc hh
  have htwo : ∀ a ∈ c, a ≠ h → TransGen g.Calls h h := by
    intro a ha hne
    obtain ⟨hha, hah⟩ := (hclass a).1 ha
    obtain heq | hpath := reflTransGen_iff_eq_or_transGen.1 hha
    · exact absurd heq hne
    · exact hpath.trans_left hah
  clear hc
  match c with
  | [] => cases hh
  | [x] =>
    obtain rfl := mem_singleton.1 hh
    rw [isCycle, decide_eq_true_eq, mem_callees]
    constructor
    · exact fun hedge => .single ⟨hnames, hnames, hedge⟩
    · intro hcycle
      obtain ⟨b, hfirst, hrest⟩ := TransGen.head'_iff.1 hcycle
      obtain rfl := mem_singleton.1 ((hclass b).2 ⟨.single hfirst, hrest⟩)
      exact hfirst.2.2
  | x :: y :: rest =>
    refine ⟨fun _ => ?_, fun _ => by simp [isCycle]⟩
    have hxy : x ≠ y := by
      intro heq
      exact (nodup_cons.1 hnodup).1 (heq ▸ mem_cons_self)
    by_cases hx : x = h
    · exact htwo y (by simp) fun hy => hxy (hx.trans hy.symm)
    · exact htwo x (by simp) hx

/-- The functions of components that are cycles are those on some cycle of calls. -/
theorem mem_recursive_iff : f ∈ g.recursive ↔ TransGen g.Calls f f := by
  rw [recursive, mem_flatten]
  constructor
  · rintro ⟨c, hc, hf⟩
    obtain ⟨hc, hcycle⟩ := mem_filter.1 hc
    exact (isCycle_iff hc hf).1 hcycle
  · intro hcycle
    obtain ⟨_, -, hlast⟩ := TransGen.tail'_iff.1 hcycle
    obtain ⟨c, hc, hf⟩ := mem_flatten.1 ((g.complete_components.2 f).2 hlast.2.1)
    exact ⟨c, mem_filter.2 ⟨hc, (isCycle_iff hc hf).2 hcycle⟩, hf⟩

end ControlReach.CallGraph
