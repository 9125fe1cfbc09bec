import ControlReach.Assoc
import ControlReach.Solver.Choice
import Mathlib.Data.List.Nodup
import Std.Data.TreeMap.Lemmas

/-!
# The values of circuits

A gate has the value that its parts give it, and keeps it when more gates are added.
-/

namespace ControlReach

open List Wiring Literal

/-! ### Literals -/

namespace Literal

variable (choice : Nat → Bool) (l : Literal)

@[simp] theorem index_ofIndex (i : Nat) : (ofIndex i).index = i := by
  show 2 * i / 2 = i
  omega

@[simp] theorem holds_ofIndex (i : Nat) : (ofIndex i).holds choice = choice i := by
  have hplain : (ofIndex i).isPlain = true := by
    unfold ofIndex isPlain
    simp
  rw [holds, index_ofIndex, hplain, beq_true]

theorem opposite_cases : (l.isPlain = true ∧ l.opposite = ⟨l.code + 1⟩) ∨
    (l.isPlain = false ∧ 0 < l.code ∧ l.opposite = ⟨l.code - 1⟩) := by
  unfold opposite
  by_cases h : l.isPlain = true
  · exact .inl ⟨h, if_pos h⟩
  · refine .inr ⟨by simpa using h, ?_, if_neg h⟩
    unfold isPlain at h
    simp only [beq_iff_eq] at h
    omega

@[simp] theorem index_opposite : l.opposite.index = l.index := by
  obtain ⟨hplain, heq⟩ | ⟨hplain, hpos, heq⟩ := l.opposite_cases <;> rw [heq] <;>
    simp only [isPlain, beq_iff_eq, beq_eq_false_iff_ne] at hplain <;> unfold index <;> grind

theorem isPlain_opposite : l.opposite.isPlain = !l.isPlain := by
  obtain ⟨hplain, heq⟩ | ⟨hplain, hpos, heq⟩ := l.opposite_cases <;> rw [heq, hplain] <;>
    simp only [isPlain, beq_iff_eq, beq_eq_false_iff_ne, Bool.not_true, Bool.not_false]
      at hplain ⊢ <;> omega

@[simp] theorem holds_opposite : l.opposite.holds choice = !l.holds choice := by
  rw [holds, holds, index_opposite, isPlain_opposite]
  cases choice l.index <;> cases l.isPlain <;> rfl

theorem holds_congr {choice other : Nat → Bool} {l : Literal}
    (h : choice l.index = other l.index) : l.holds choice = l.holds other := by
  rw [holds, holds, h]

theorem code_injective : Function.Injective code := fun ⟨_⟩ ⟨_⟩ h => congrArg Literal.mk h

end Literal

theorem Wiring.plain_spec (h : plain l = (k, m)) :
    k.index = l.index ∧ ∀ choice, l.holds choice = (k.holds choice != m) := by
  unfold plain at h
  split at h
  · obtain ⟨rfl, rfl⟩ := Prod.mk.inj h
    exact ⟨rfl, fun choice => by simp⟩
  · obtain ⟨rfl, rfl⟩ := Prod.mk.inj h
    exact ⟨l.index_opposite, fun choice => by simp⟩

/-! ### Gates -/

namespace Gate

def parts : Gate → List Literal
  | .all parts => parts
  | .iff a b => [a, b]
  | .one parts => parts
  | _ => []

def key? : Gate → Option (List Nat)
  | .all parts => some (0 :: parts.map code)
  | .iff a b => some [1, a.code, b.code]
  | .one parts => some (2 :: parts.map code)
  | _ => none

theorem eq_of_key? {g h : Gate} (hg : g.key? = some key) (hh : h.key? = some key) : g = h := by
  have hcode := code_injective
  have hcodes := map_injective_iff.mpr hcode
  rw [← hg] at hh
  cases g <;> cases h <;>
    simp only [key?, Option.some.injEq, cons.injEq, reduceCtorEq] at hg hh
  all_goals grind [Function.Injective]

theorem value_congr {g : Gate} (v : Valuation StringValue) {known other : Nat → Bool}
    (h : ∀ l ∈ g.parts, known l.index = other l.index) : g.value v known = g.value v other := by
  have hholds : ∀ l ∈ g.parts, l.holds known = l.holds other := fun l hl =>
    holds_congr (h l hl)
  cases g with
  | truth | flag x | same s t => rfl
  | all parts =>
    rw [value, value, Bool.eq_iff_iff, all_eq_true, all_eq_true]
    exact forall₂_congr fun l hl => by rw [hholds l hl]
  | iff a b =>
    rw [value, value, hholds a mem_cons_self, hholds b (mem_cons_of_mem _ mem_cons_self)]
  | one parts =>
    rw [value, value]
    congr 1
    exact countP_congr fun l hl => by rw [hholds l hl]

end Gate

/-! ### Values -/

namespace Circuit

variable {c d : Circuit} {v : Valuation StringValue}

def value (c : Circuit) (v : Valuation StringValue) (n : Nat) : Bool := (c.values v).getD n false

def valueStep (v : Valuation StringValue) (known : Array Bool) (g : Gate) : Array Bool :=
  known.push (g.value v fun i => known.getD i false)

theorem values_eq (c : Circuit) (v : Valuation StringValue) :
    c.values v = c.gates.toList.foldl (valueStep v) #[] := by
  rw [Array.foldl_toList]
  rfl

theorem size_foldl_valueStep (gs : List Gate) (known : Array Bool) :
    (gs.foldl (valueStep v) known).size = known.size + gs.length := by
  induction gs generalizing known with
  | nil => rfl
  | cons g gs ih =>
    rw [foldl_cons, ih, valueStep, Array.size_push, length_cons]
    omega

theorem getD_foldl_valueStep (gs : List Gate) {known : Array Bool} (hn : n < known.size) :
    (gs.foldl (valueStep v) known).getD n false = known.getD n false := by
  induction gs generalizing known with
  | nil => rfl
  | cons g gs ih =>
    have hpush : n < (valueStep v known g).size := by
      rw [valueStep, Array.size_push]
      omega
    rw [foldl_cons, ih hpush, valueStep, Array.getD_eq_getD_getElem?,
      Array.getElem?_push_lt hn, Array.getD_eq_getD_getElem?, Array.getElem?_eq_getElem hn]

theorem value_of_prefix (h : c.gates.toList <+: d.gates.toList) (hn : n < c.gates.size) :
    d.value v n = c.value v n := by
  obtain ⟨rest, hrest⟩ := h
  unfold value
  rw [values_eq, values_eq, ← hrest, foldl_append, getD_foldl_valueStep]
  rw [size_foldl_valueStep]
  simpa using hn

theorem value_eq (hg : c.gates[n]? = some g) (hparts : ∀ l ∈ g.parts, l.index < n) :
    c.value v n = g.value v (c.value v) := by
  obtain ⟨before, after, hsplit, hn⟩ :
      ∃ before after, c.gates.toList = before ++ g :: after ∧ before.length = n := by
    rw [← Array.getElem?_toList] at hg
    obtain ⟨hn, hget⟩ := List.getElem?_eq_some_iff.mp hg
    refine ⟨c.gates.toList.take n, c.gates.toList.drop (n + 1), ?_, ?_⟩
    · rw [← hget, ← drop_eq_getElem_cons hn, take_append_drop]
    · rw [length_take]
      omega
  have hsize : (before.foldl (valueStep v) #[]).size = n := by
    rw [size_foldl_valueStep, hn]
    exact Nat.zero_add n
  have hbefore : ∀ i < n, c.value v i = (before.foldl (valueStep v) #[]).getD i false := by
    intro i hi
    rw [value, values_eq, hsplit, foldl_append]
    exact getD_foldl_valueStep _ (by omega)
  have hlast : c.value v n =
      g.value v fun i => (before.foldl (valueStep v) #[]).getD i false := by
    rw [value, values_eq, hsplit, foldl_append, foldl_cons, getD_foldl_valueStep]
    · rw [valueStep, Array.getD_eq_getD_getElem?, ← hsize, Array.getElem?_push_size]
      rfl
    · rw [valueStep, Array.size_push]
      omega
  rw [hlast]
  exact Gate.value_congr v fun l hl => (hbefore l.index (hparts l hl)).symm

/-! ### Growth -/

/-- Nothing is taken away from a circuit. -/
structure Extends (c d : Circuit) : Prop where
  gates : c.gates.toList <+: d.gates.toList
  strings : c.strings.toList <+: d.strings.toList

namespace Extends

theorem refl (c : Circuit) : c.Extends c := ⟨prefix_rfl, prefix_rfl⟩

variable (h : c.Extends d)

include h

theorem trans (h' : d.Extends e) : c.Extends e :=
  ⟨h.gates.trans h'.gates, h.strings.trans h'.strings⟩

theorem size_le : c.gates.size ≤ d.gates.size := by
  simpa using h.gates.length_le

theorem gate {n : Nat} {g : Gate} (hg : c.gates[n]? = some g) : d.gates[n]? = some g := by
  obtain ⟨rest, hrest⟩ := h.gates
  rw [← Array.getElem?_toList] at hg ⊢
  rw [← hrest, getElem?_append_left (List.getElem?_eq_some_iff.mp hg).1, hg]

theorem string {i : Nat} {s : Str} (hs : c.strings[i]? = some s) : d.strings[i]? = some s := by
  obtain ⟨rest, hrest⟩ := h.strings
  rw [← Array.getElem?_toList] at hs ⊢
  rw [← hrest, getElem?_append_left (List.getElem?_eq_some_iff.mp hs).1, hs]

theorem value {n : Nat} (hn : n < c.gates.size) : d.value v n = c.value v n :=
  value_of_prefix h.gates hn

theorem holds {l : Literal} (hl : l.index < c.gates.size) :
    l.holds (d.value v) = l.holds (c.value v) := holds_congr (h.value hl)

end Extends

/-! ### Tables -/

def Compares (c : Circuit) (n i j : Nat) : Prop :=
  ∃ s t, c.strings[i]? = some s ∧ c.strings[j]? = some t ∧
    (c.gates[n]? = some (.same s t) ∨ c.gates[n]? = some (.same t s))

variable {j : Nat}

theorem Compares.mono {n i : Nat} (h : c.Compares n i j) (hd : c.Extends d) : d.Compares n i j := by
  obtain ⟨s, t, hs, ht, hg⟩ := h
  exact ⟨s, t, hd.string hs, hd.string ht, hg.imp hd.gate hd.gate⟩

theorem Compares.symm {n i : Nat} (h : c.Compares n i j) : c.Compares n j i := by
  obtain ⟨s, t, hs, ht, hg⟩ := h
  exact ⟨t, s, ht, hs, hg.symm⟩

/-- The tables of a circuit tell the truth about its gates. -/
structure Sound (c : Circuit) : Prop where
  truth : c.gates[0]? = some .truth
  parts : ∀ (n : Nat) (g : Gate), c.gates[n]? = some g → ∀ l ∈ g.parts, l.index < n
  flags : ∀ (x : String) (n : Nat), c.flags[x]? = some n ↔ c.gates[n]? = some (.flag x)
  nodes : ∀ (key : List Nat) (n : Nat), c.nodes[key]? = some n →
    ∃ g, c.gates[n]? = some g ∧ g.key? = some key
  strings : c.strings.toList.Nodup
  compared : ∀ (n : Nat) (s t : Str), c.gates[n]? = some (.same s t) → s ∈ c.strings ∧ t ∈ c.strings
  size_links : c.links.size = c.strings.size
  nodup_links : ∀ i, ((c.links.getD i []).map Prod.fst).Nodup
  links : ∀ i j n, (j, n) ∈ c.links.getD i [] →
    i ≠ j ∧ (i, n) ∈ c.links.getD j [] ∧ c.Compares n i j
  ties : ∀ t ∈ c.ties, (∀ l ∈ t, l.index < c.gates.size) ∧ ∀ v, Clause.holds (c.value v) t = true

theorem sound_initial : initial.Sound where
  truth := rfl
  parts n g h l hl := by
    obtain rfl : g = .truth := by
      obtain ⟨hn, hg⟩ := Array.getElem?_eq_some_iff.mp h
      simpa [initial] using hg.symm
    simp [Gate.parts] at hl
  flags x n := by
    have hnone : initial.flags[x]? = none := Std.TreeMap.getElem?_emptyc
    rw [hnone]
    refine iff_of_false nofun fun h => ?_
    obtain ⟨hn, hg⟩ := Array.getElem?_eq_some_iff.mp h
    simp [initial] at hg
  nodes key n h := by
    have hnone : initial.nodes[key]? = none := Std.TreeMap.getElem?_emptyc
    rw [hnone] at h
    cases h
  strings := nodup_nil
  compared n s t h := by
    obtain ⟨hn, hg⟩ := Array.getElem?_eq_some_iff.mp h
    simp [initial] at hg
  size_links := rfl
  nodup_links i := by simp [initial]
  links i j n h := by simp [initial] at h
  ties t h := by simp [initial] at h

theorem extends_push (c : Circuit) (g : Gate) (flags : Std.TreeMap String Nat)
    (nodes : Std.TreeMap (List Nat) Nat) :
    c.Extends { c with gates := c.gates.push g, flags, nodes } :=
  ⟨by simp, prefix_rfl⟩

theorem getElem?_push_gate {g h : Gate} {n : Nat} :
    (c.gates.push g)[n]? = some h ↔ c.gates[n]? = some h ∨ n = c.gates.size ∧ g = h := by
  rw [Array.getElem?_push]
  split
  · rename_i hn
    subst hn
    simp
  · rename_i hn
    simp [hn]

namespace Sound

theorem tie_mono (h : c.Sound) (hd : c.Extends d) {t : Clause} (ht : t ∈ c.ties) :
    (∀ l ∈ t, l.index < d.gates.size) ∧ ∀ v, Clause.holds (d.value v) t = true := by
  obtain ⟨hbound, hholds⟩ := h.ties t ht
  refine ⟨fun l hl => Nat.lt_of_lt_of_le (hbound l hl) hd.size_le, fun v => ?_⟩
  rw [← hholds v, Clause.holds, Clause.holds, Bool.eq_iff_iff, any_eq_true, any_eq_true]
  exact exists_congr fun l => and_congr_right fun hl => by rw [hd.holds (hbound l hl)]

theorem push (h : c.Sound) {g : Gate} {flags : Std.TreeMap String Nat}
    {nodes : Std.TreeMap (List Nat) Nat} (hparts : ∀ l ∈ g.parts, l.index < c.gates.size)
    (hflags : ∀ (x : String) (n : Nat), flags[x]? = some n ↔
      c.flags[x]? = some n ∨ n = c.gates.size ∧ g = .flag x)
    (hnodes : ∀ (key : List Nat) (n : Nat), nodes[key]? = some n →
      c.nodes[key]? = some n ∨ n = c.gates.size ∧ g.key? = some key)
    (hsame : ∀ s t, g = .same s t → s ∈ c.strings ∧ t ∈ c.strings) :
    Sound { c with gates := c.gates.push g, flags, nodes } := by
  have hext := c.extends_push g flags nodes
  refine ⟨hext.gate h.truth, ?_, ?_, ?_, h.strings, ?_, h.size_links, h.nodup_links, ?_, ?_⟩
  · intro n g' hg' l hl
    obtain hg' | ⟨rfl, rfl⟩ := getElem?_push_gate.mp hg'
    · exact h.parts n g' hg' l hl
    · exact hparts l hl
  · intro x n
    rw [hflags, getElem?_push_gate, h.flags]
  · intro key n hn
    obtain hn | ⟨rfl, hkey⟩ := hnodes key n hn
    · obtain ⟨g', hg', hkey⟩ := h.nodes key n hn
      exact ⟨g', hext.gate hg', hkey⟩
    · exact ⟨g, getElem?_push_gate.mpr (.inr ⟨rfl, rfl⟩), hkey⟩
  · intro n s t hg
    obtain hg | ⟨-, hg⟩ := getElem?_push_gate.mp hg
    · exact h.compared n s t hg
    · exact hsame s t hg
  · intro i j n hn
    obtain ⟨hne, hback, hcomp⟩ := h.links i j n hn
    exact ⟨hne, hback, hcomp.mono hext⟩
  · exact fun t ht => h.tie_mono hext ht

theorem pushString (h : c.Sound) (hs : s ∉ c.strings) :
    Sound { c with strings := c.strings.push s, links := c.links.push [] } := by
  have hext : c.Extends { c with strings := c.strings.push s, links := c.links.push [] } :=
    ⟨prefix_rfl, by simp⟩
  have hget : ∀ i, (c.links.push []).getD i [] = c.links.getD i [] := by
    intro i
    rw [Array.getD_eq_getD_getElem?, Array.getD_eq_getD_getElem?, Array.getElem?_push]
    split
    · rename_i hi
      rw [hi, Array.getElem?_size]
      rfl
    · rfl
  refine ⟨h.truth, h.parts, h.flags, h.nodes, ?_, ?_, ?_, ?_, ?_, ?_⟩
  · rw [Array.toList_push, ← concat_eq_append]
    exact h.strings.concat (mt Array.mem_toList_iff.mp hs)
  · intro n a b hg
    obtain ⟨ha, hb⟩ := h.compared n a b hg
    exact ⟨Array.mem_push_of_mem _ ha, Array.mem_push_of_mem _ hb⟩
  · rw [Array.size_push, Array.size_push, h.size_links]
  · intro i
    rw [hget]
    exact h.nodup_links i
  · intro i j n hn
    rw [hget] at hn ⊢
    obtain ⟨hne, hback, hcomp⟩ := h.links i j n hn
    exact ⟨hne, hback, hcomp.mono hext⟩
  · exact fun t ht => h.tie_mono hext ht

theorem addLinks (h : c.Sound) {i n : Nat} (hne : i ≠ j) (hcomp : c.Compares n i j)
    (hnew : j ∉ (c.links.getD i []).map Prod.fst) :
    Sound { c with links := (c.links.modify i ((j, n) :: ·)).modify j ((i, n) :: ·) } := by
  have hsize : ∀ {k m n}, c.Compares n k m → k < c.links.size ∧ m < c.links.size := by
    rintro k m n ⟨s, t, hs, ht, -⟩
    rw [h.size_links]
    exact ⟨(Array.getElem?_eq_some_iff.mp hs).1, (Array.getElem?_eq_some_iff.mp ht).1⟩
  obtain ⟨hi, hj⟩ := hsize hcomp
  have hget : ∀ k, ((c.links.modify i ((j, n) :: ·)).modify j ((i, n) :: ·)).getD k [] =
      if k = i then (j, n) :: c.links.getD i []
      else if k = j then (i, n) :: c.links.getD j [] else c.links.getD k [] := by
    intro k
    simp only [Array.getD_eq_getD_getElem?, Array.getElem?_modify]
    by_cases hki : k = i
    · subst hki
      simp [hne.symm, hi]
    · by_cases hkj : k = j
      · subst hkj
        simp [hne, hj, hki]
      · simp [hki, hkj, Ne.symm hki, Ne.symm hkj]
  have hback : i ∉ (c.links.getD j []).map Prod.fst := by
    intro hmem
    obtain ⟨⟨_, m⟩, hm, rfl⟩ := mem_map.mp hmem
    exact hnew (mem_map.mpr ⟨_, (h.links j _ m hm).2.1, rfl⟩)
  refine ⟨h.truth, h.parts, h.flags, h.nodes, h.strings, h.compared, ?_, ?_, ?_, h.ties⟩
  · rw [Array.size_modify, Array.size_modify, h.size_links]
  · intro k
    rw [hget]
    by_cases hki : k = i
    · rw [if_pos hki]
      exact nodup_cons.mpr ⟨hnew, h.nodup_links i⟩
    · by_cases hkj : k = j
      · rw [if_neg hki, if_pos hkj]
        exact nodup_cons.mpr ⟨hback, h.nodup_links j⟩
      · rw [if_neg hki, if_neg hkj]
        exact h.nodup_links k
  · have hmem : ∀ k l m, (l, m) ∈ ((c.links.modify i ((j, n) :: ·)).modify j
        ((i, n) :: ·)).getD k [] ↔ (l, m) ∈ c.links.getD k [] ∨
          (k = i ∧ l = j ∧ m = n) ∨ (k = j ∧ l = i ∧ m = n) := by
      intro k l m
      rw [hget]
      grind
    intro k l m hm
    rw [hmem] at hm ⊢
    obtain hm | ⟨rfl, rfl, rfl⟩ | ⟨rfl, rfl, rfl⟩ := hm
    · obtain ⟨hne, hback, hcomp⟩ := h.links k l m hm
      exact ⟨hne, .inl hback, hcomp⟩
    · exact ⟨hne, .inr (.inr ⟨rfl, rfl, rfl⟩), hcomp⟩
    · exact ⟨hne.symm, .inr (.inl ⟨rfl, rfl, rfl⟩), hcomp.symm⟩

end Sound

/-! ### Steps -/

/-- A step adds to a circuit and gives a literal with a meaning. -/
structure Wired (c : Circuit) (r : Literal × Circuit) (means : Valuation StringValue → Bool) :
    Prop where
  sound : r.2.Sound
  grows : c.Extends r.2
  bound : r.1.index < r.2.gates.size
  holds : ∀ v, r.1.holds (r.2.value v) = means v

theorem Wired.congr {r : Literal × Circuit} {means means' : Valuation StringValue → Bool}
    (h : c.Wired r means) (heq : ∀ v, means v = means' v) : c.Wired r means' :=
  ⟨h.sound, h.grows, h.bound, fun v => (h.holds v).trans (heq v)⟩

theorem Wired.after {r : Literal × Circuit} {means : Valuation StringValue → Bool}
    (h : d.Wired r means) (hcd : c.Extends d) : c.Wired r means :=
  ⟨h.sound, hcd.trans h.grows, h.bound, h.holds⟩

theorem Wired.opposite (h : c.Wired (l, d) means) : c.Wired (l.opposite, d) fun v => !means v where
  sound := h.sound
  grows := h.grows
  bound := by
    rw [index_opposite]
    exact h.bound
  holds v := by
    rw [holds_opposite]
    exact congrArg (! ·) (h.holds v)

namespace Sound

theorem wired_self (h : c.Sound) {l : Literal} (hl : l.index < c.gates.size) :
    c.Wired (l, c) fun v => l.holds (c.value v) := ⟨h, .refl c, hl, fun _ => rfl⟩

variable {g : Gate} {parts : List Literal} {a b : Literal}

theorem value (h : c.Sound) (hg : c.gates[n]? = some g) :
    c.value v n = g.value v (c.value v) := value_eq hg (h.parts n g hg)

theorem wired_gate (h : c.Sound) (hg : c.gates[n]? = some g) :
    c.Wired (.ofIndex n, c) fun v => g.value v (c.value v) where
  sound := h
  grows := .refl c
  bound := by
    rw [index_ofIndex]
    exact (Array.getElem?_eq_some_iff.mp hg).1
  holds v := by
    rw [holds_ofIndex]
    exact h.value hg

theorem wired_constant (h : c.Sound) (b : Bool) : c.Wired (Wiring.constant b, c) fun _ => b := by
  have htruth : c.Wired (Wiring.truth, c) fun _ => true := h.wired_gate h.truth
  cases b with
  | true => exact htruth
  | false => exact htruth.opposite

theorem wired_last (hd : d.Sound) (hgrows : c.Extends d) (hg : d.gates[c.gates.size]? = some g)
    (hparts : ∀ l ∈ g.parts, l.index < c.gates.size) :
    c.Wired (.ofIndex c.gates.size, d) fun v => g.value v (c.value v) where
  sound := hd
  grows := hgrows
  bound := by
    rw [index_ofIndex]
    exact (Array.getElem?_eq_some_iff.mp hg).1
  holds v := by
    rw [holds_ofIndex]
    show d.value v _ = _
    rw [hd.value hg]
    exact Gate.value_congr v fun l hl => hgrows.value (hparts l hl)

variable (h : c.Sound)

include h

theorem wired_flag (x : String) : c.Wired ((flag x).run c) fun v => v.flag x := by
  cases hx : c.flags[x]? with
  | some n =>
    have hrun : (flag x).run c = pure (.ofIndex n, c) := by
      simp [flag, hx]
    rw [hrun]
    exact h.wired_gate ((h.flags x n).mp hx)
  | none =>
    have hrun : (flag x).run c = pure (.ofIndex c.gates.size,
        { c with gates := c.gates.push (.flag x), flags := c.flags.insert x c.gates.size }) := by
      simp [flag, add, hx]
    rw [hrun]
    refine wired_last (h.push (g := .flag x) nofun (fun y n => ?_) (fun _ _ hn => .inl hn) nofun)
      (c.extends_push _ _ _) (getElem?_push_gate.mpr (.inr ⟨rfl, rfl⟩)) nofun
    rw [Std.TreeMap.getElem?_insert, Gate.flag.injEq]
    by_cases hy : x = y
    · subst hy
      simp [hx, eq_comm]
    · simp [hy]

theorem wired_node {kind : Nat} (hkey : g.key? = some (kind :: parts.map code))
    (hparts : ∀ l ∈ g.parts, l.index < c.gates.size) :
    c.Wired ((node kind parts g).run c) fun v => g.value v (c.value v) := by
  cases hn : c.nodes[kind :: parts.map code]? with
  | some n =>
    have hrun : (node kind parts g).run c = pure (.ofIndex n, c) := by
      simp [node, hn]
    obtain ⟨g', hg', hkey'⟩ := h.nodes _ n hn
    obtain rfl := Gate.eq_of_key? hkey hkey'
    rw [hrun]
    exact h.wired_gate hg'
  | none =>
    have hrun : (node kind parts g).run c = pure (.ofIndex c.gates.size,
        { c with
          gates := c.gates.push g
          nodes := c.nodes.insert (kind :: parts.map code) c.gates.size }) := by
      simp [node, add, hn]
    rw [hrun]
    refine wired_last (h.push hparts ?_ ?_ ?_) (c.extends_push _ _ _)
      (getElem?_push_gate.mpr (.inr ⟨rfl, rfl⟩)) hparts
    · intro x n
      refine ⟨.inl, fun hx => hx.resolve_right ?_⟩
      rintro ⟨-, rfl⟩
      cases hkey
    · intro key n hn
      rw [Std.TreeMap.getElem?_insert] at hn
      split at hn
      · rename_i heq
        obtain rfl := Std.LawfulEqCmp.eq_of_compare heq
        exact .inr ⟨(Option.some.inj hn).symm, hkey⟩
      · exact .inl hn
    · rintro s t rfl
      cases hkey

section

variable (hparts : ∀ l ∈ parts, l.index < c.gates.size)

include hparts

theorem wired_conjunction :
    c.Wired ((conjunction parts).run c) fun v => parts.all (Literal.holds (c.value v)) := by
  match parts, hparts with
  | [], _ => exact h.wired_constant true
  | [l], hparts =>
    exact (h.wired_self (hparts l mem_cons_self)).congr fun v => by simp
  | a :: b :: rest, hparts => exact h.wired_node rfl hparts

theorem wired_disjunction :
    c.Wired ((disjunction parts).run c) fun v => parts.any (Literal.holds (c.value v)) := by
  have hopposite : ∀ l ∈ parts.map Literal.opposite, l.index < c.gates.size := by
    simpa using hparts
  refine (h.wired_conjunction hopposite).opposite.congr fun v => ?_
  simp [all_map, any_eq_not_all_not, Function.comp_def]

theorem wired_exactlyOne : c.Wired ((exactlyOne parts).run c) fun v =>
      parts.countP (Literal.holds (c.value v)) == 1 := by
  match parts, hparts with
  | [], _ => exact h.wired_constant false
  | [l], hparts =>
    show c.Wired (l, c) _
    refine (h.wired_self (hparts l mem_cons_self)).congr fun v => ?_
    cases hl : l.holds (c.value v) <;> simp [hl]
  | a :: b :: rest, hparts => exact h.wired_node rfl hparts

end

theorem wired_iff (ha : a.index < c.gates.size) (hb : b.index < c.gates.size)
    (keep : Bool) : c.Wired ((do
      let l ← node 1 [a, b] (.iff a b)
      return if keep then l else l.opposite : Wiring Literal).run c) fun v =>
        (a.holds (c.value v) == b.holds (c.value v)) == keep := by
  have hnode : c.Wired ((node 1 [a, b] (.iff a b)).run c) fun v =>
      a.holds (c.value v) == b.holds (c.value v) :=
    h.wired_node rfl (by simp [Gate.parts, ha, hb])
  cases keep with
  | true => exact hnode.congr fun v => (beq_true _).symm
  | false => exact hnode.opposite.congr fun v => (beq_false _).symm

theorem wired_equivalence (ha : a.index < c.gates.size) (hb : b.index < c.gates.size) :
    c.Wired ((equivalence a b).run c) fun v =>
      a.holds (c.value v) == b.holds (c.value v) := by
  obtain ⟨a', m, ha'⟩ : ∃ a' m, plain a = (a', m) := ⟨_, _, rfl⟩
  obtain ⟨b', n, hb'⟩ : ∃ b' n, plain b = (b', n) := ⟨_, _, rfl⟩
  obtain ⟨hai, hah⟩ := plain_spec ha'
  obtain ⟨hbi, hbh⟩ := plain_spec hb'
  rw [← hai] at ha
  rw [← hbi] at hb
  unfold equivalence
  rw [ha', hb']
  dsimp only
  split
  on_goal 1 => refine (h.wired_iff ha hb (m == n)).congr fun v => ?_
  on_goal 2 => refine (h.wired_iff hb ha (m == n)).congr fun v => ?_
  all_goals
    rw [hah, hbh]
    cases a'.holds (c.value v) <;> cases b'.holds (c.value v) <;> cases m <;> cases n <;> rfl

theorem string (s : Str) : ∃ i d, (Wiring.string s).run c = (i, d) ∧ d.Sound ∧ c.Extends d ∧
    d.strings[i]? = some s := by
  cases hfind : c.strings.findIdx? (· == s) with
  | some k =>
    obtain ⟨hk, hs, -⟩ := Array.findIdx?_eq_some_iff_getElem.mp hfind
    refine ⟨k, c, ?_, h, .refl c, Array.getElem?_eq_some_iff.mpr ⟨hk, by simpa using hs⟩⟩
    simp [Wiring.string, hfind]
    rfl
  | none =>
    have hnew : s ∉ c.strings := by
      intro hs
      have hne := Array.findIdx?_eq_none_iff.mp hfind s hs
      simp at hne
    refine ⟨_, _, ?_, h.pushString hnew, ⟨prefix_rfl, by simp⟩, Array.getElem?_push_size⟩
    simp [Wiring.string, hfind]
    rfl

theorem wired_equality (hne : i ≠ j) (hs : c.strings[i]? = some s) (ht : c.strings[j]? = some t) :
    c.Wired ((equality i j).run c) fun v => s.value v == t.value v := by
  cases hlink : (c.links.getD i []).lookup j with
  | some n =>
    have hrun : (equality i j).run c = pure (.ofIndex n, c) := by
      rw [Array.getD_eq_getD_getElem?] at hlink
      simp [equality, hlink]
    rw [hrun]
    obtain ⟨-, -, s', t', hs', ht', hg⟩ := h.links i j n (Assoc.mem_of_lookup hlink)
    obtain rfl := Option.some.inj (hs.symm.trans hs')
    obtain rfl := Option.some.inj (ht.symm.trans ht')
    obtain hg | hg := hg
    · exact h.wired_gate hg
    · exact (h.wired_gate hg).congr fun v => Bool.beq_comm
  | none =>
    have hrun : (equality i j).run c = pure (.ofIndex c.gates.size,
        { c with
          gates := c.gates.push (.same s t)
          links := (c.links.modify i ((j, c.gates.size) :: ·)).modify j
            ((i, c.gates.size) :: ·) }) := by
      rw [Array.getD_eq_getD_getElem?] at hlink
      simp [equality, add, link, hlink, hs, ht]
    rw [hrun]
    have hgate := c.extends_push (.same s t) c.flags c.nodes
    have hlast : (c.gates.push (.same s t))[c.gates.size]? = some (.same s t) :=
      Array.getElem?_push_size
    have hpush : Sound { c with gates := c.gates.push (.same s t) } := by
      refine h.push (g := .same s t) nofun (fun x n => ⟨.inl, fun hx => hx.resolve_right nofun⟩)
        (fun _ _ hn => .inl hn) fun s' t' heq => ?_
      obtain ⟨rfl, rfl⟩ := Gate.same.inj heq
      exact ⟨Array.mem_of_getElem? hs, Array.mem_of_getElem? ht⟩
    have hnew : j ∉ (c.links.getD i []).map Prod.fst := Assoc.lookup_eq_none_iff.mp hlink
    exact wired_last (hpush.addLinks hne ⟨s, t, hs, ht, .inl hlast⟩ hnew)
      ⟨hgate.gates, hgate.strings⟩ hlast nofun

theorem wired_strings (hst : s ≠ t) :
    c.Wired ((do Wiring.equality (← Wiring.string s) (← Wiring.string t) : Wiring Literal).run c)
      fun v => s.value v == t.value v := by
  obtain ⟨i, d, hs, hd, hcd, hi⟩ := h.string s
  obtain ⟨j, e, ht, he, hde, hj⟩ := hd.string t
  have hne : i ≠ j := by
    rintro rfl
    exact hst (Option.some.inj ((hde.string hi).symm.trans hj))
  rw [StateT.run_bind, hs]
  show c.Wired ((do Wiring.equality i (← Wiring.string t) : Wiring Literal).run d) _
  rw [StateT.run_bind, ht]
  exact (he.wired_equality hne (hde.string hi) hj).after (hcd.trans hde)

theorem wired_same (s t : Str) :
    c.Wired ((Wiring.same s t).run c) fun v => s.value v == t.value v := by
  unfold Wiring.same
  by_cases hst : s = t
  · rw [if_pos hst]
    exact (h.wired_constant true).congr fun v => by rw [hst, beq_self_eq_true]
  · rw [if_neg hst]
    match s, t, hst with
    | .const a, .const b, hst =>
      have hab : (a == b) = false := beq_false_of_ne fun heq => hst (congrArg Str.const heq)
      exact (h.wired_constant false).congr fun v => hab.symm
    | .const a, .sym y, hst | .sym x, t, hst => exact h.wired_strings hst

end Sound

end Circuit

end ControlReach
