import ControlReach.Proofs.ClauseEncoding
import ControlReach.Solver.Solve

/-!
# The choices that make a difference

Only equality of strings matters, so values that are no constants may be replaced by strings longer
than all constants. The choices that are tried contain these values, so they decide whether a
problem is satisfiable.
-/

namespace ControlReach

open List

/-! ### Values that cannot be told apart -/

variable {x : String}

namespace Circuit

variable {c : Circuit}

/-- Two valuations give the same values to flags and make the same strings equal. -/
structure Alike (c : Circuit) (v w : Valuation StringValue) : Prop where
  flags : ∀ x, x ∈ c.flags → v.flag x = w.flag x
  strings : ∀ s ∈ c.strings, ∀ t ∈ c.strings,
    s.value v = t.value v ↔ s.value w = t.value w

theorem Sound.value_eq_of_alike (h : c.Sound) (hvw : c.Alike v w) (hn : n < c.gates.size) :
    c.value v n = c.value w n := by
  induction n using Nat.strongRecOn with
  | ind n ih =>
    have hg : c.gates[n]? = some c.gates[n] := Array.getElem?_eq_getElem hn
    rw [h.value hg, h.value hg]
    have hparts : ∀ l ∈ c.gates[n].parts, c.value v l.index = c.value w l.index := fun l hl =>
      have hlt := h.parts n _ hg l hl
      ih l.index hlt (Nat.lt_trans hlt hn)
    rw [Gate.value_congr v hparts]
    -- With the same values for the parts only the unknowns can make a difference.
    cases hgate : c.gates[n] with
    | flag x =>
      rw [hgate] at hg
      refine hvw.flags x ?_
      rw [Std.TreeMap.mem_iff_isSome_getElem?, (h.flags x n).mpr hg]
      rfl
    | same s t =>
      rw [hgate] at hg
      obtain ⟨hs, ht⟩ := h.compared n s t hg
      show (s.value v == t.value v) = (s.value w == t.value w)
      rw [Bool.eq_iff_iff, beq_iff_eq, beq_iff_eq]
      exact hvw.strings s hs t ht
    | truth | all parts | iff a b | one parts => rfl

/-! ### What stands for a value -/

theorem ne_longer_append (h : s ∈ l) (t : StringValue) : s ≠ Choice.longer l ++ t := by
  intro heq
  have hle : s.length ≤ (l.map length).foldl max 0 := by
    rw [foldl_max]
    exact Nat.le_trans (le_max?_getD_of_mem (mem_map_of_mem h)) (Nat.le_max_right _ _)
  have hlen := congrArg length heq
  unfold Choice.longer at hlen
  rw [length_append, length_replicate] at hlen
  omega

instance : LawfulBEq StringValue := inferInstanceAs (LawfulBEq (List Nat))

def stand (c : Circuit) (v : Valuation StringValue) (x : String) : StringValue :=
  if v.text x ∈ c.constants then v.text x
  else Choice.longer c.constants ++
    replicate (c.unknowns.findIdx fun y => v.text y == v.text x) 97

variable {v : Valuation StringValue}

theorem eq_stand_iff (hs : s ∈ c.constants) (x : String) : s = c.stand v x ↔ s = v.text x := by
  unfold stand
  split
  · rfl
  · rename_i hx
    refine iff_of_false (ne_longer_append hs _) ?_
    rintro rfl
    exact hx hs

theorem stand_eq_stand_iff (hx : x ∈ c.unknowns) (hy : y ∈ c.unknowns) :
    c.stand v x = c.stand v y ↔ v.text x = v.text y := by
  constructor
  · intro h
    unfold stand at h
    split at h
    · rename_i hcx
      split at h
      · exact h
      · exact absurd h (ne_longer_append hcx _)
    · split at h
      · rename_i hcy
        exact absurd h.symm (ne_longer_append hcy _)
      · -- Both have the same first unknown with their value.
        have hidx := congrArg length (append_cancel_left h)
        rw [length_replicate, length_replicate] at hidx
        have hltx := findIdx_lt_length_of_exists (p := fun z => v.text z == v.text x)
          ⟨x, hx, beq_self_eq_true _⟩
        have hlty := findIdx_lt_length_of_exists (p := fun z => v.text z == v.text y)
          ⟨y, hy, beq_self_eq_true _⟩
        have hx' := beq_iff_eq.mp (findIdx_getElem (w := hltx))
        have hy' := beq_iff_eq.mp (findIdx_getElem (w := hlty))
        simp only [hidx] at hx'
        exact hx'.symm.trans hy'
  · intro h
    unfold stand
    rw [h]

theorem alike_of_stand (hflags : ∀ x, x ∈ c.flags → v.flag x = w.flag x)
    (htexts : ∀ x ∈ c.unknowns, w.text x = c.stand v x) : c.Alike v w := by
  refine ⟨hflags, fun s hs t ht => ?_⟩
  have hconst : ∀ a, Str.const a ∈ c.strings → a ∈ c.constants := fun a ha =>
    mem_filterMap.mpr ⟨_, Array.mem_toList_iff.mpr ha, rfl⟩
  have hsym : ∀ x, Str.sym x ∈ c.strings → x ∈ c.unknowns := fun x hx =>
    mem_filterMap.mpr ⟨_, Array.mem_toList_iff.mpr hx, rfl⟩
  cases s with
  | const a =>
    cases t with
    | const b => rfl
    | sym y =>
      show a = v.text y ↔ a = w.text y
      rw [htexts y (hsym y ht), eq_stand_iff (hconst a hs)]
  | sym x =>
    cases t with
    | const b =>
      show v.text x = b ↔ w.text x = b
      rw [htexts x (hsym x hs), eq_comm, eq_comm (b := b), eq_stand_iff (hconst b ht)]
    | sym y =>
      show v.text x = v.text y ↔ w.text x = w.text y
      rw [htexts x (hsym x hs), htexts y (hsym y ht), stand_eq_stand_iff (hsym x hs) (hsym y ht)]

end Circuit

/-! ### All choices -/

namespace Problem

variable {p : Problem}

theorem Sound.holds_eq_of_alike (h : p.Sound) (hvw : p.circuit.Alike v w) :
    p.holds v = p.holds w := by
  show p.roots.all _ = p.roots.all _
  rw [Bool.eq_iff_iff, all_eq_true, all_eq_true]
  refine forall₂_congr fun l hl => ?_
  have hvalue := h.circuit.value_eq_of_alike hvw (h.roots l hl)
  rw [show l.holds (fun i => (p.circuit.values v).getD i false) = l.holds (p.circuit.value v) from
    rfl, Literal.holds_congr hvalue]
  rfl

def outcomes : List (Choice → List Choice) → Choice → List Choice
  | [], c => [c]
  | step :: rest, c => (step c).flatMap (outcomes rest)

theorem tryAll_eq (steps : List (Choice → List Choice)) (c : Choice) :
    p.tryAll steps c = (outcomes steps c).find? (Choice.satisfies · p) := by
  induction steps generalizing c with
  | nil =>
    rw [tryAll, outcomes, find?_singleton]
  | cons step rest ih =>
    rw [tryAll, outcomes, find?_flatMap]
    congr 1
    funext d
    exact ih d

theorem getD_insert_eq {β : Type} {m : Std.TreeMap String β} {y : String} {a b d : β}
    (hself : x = y → a = b) (hother : x ≠ y → m.getD x d = b) : (m.insert y a).getD x d = b := by
  rw [Std.TreeMap.getD_insert]
  split
  · rename_i heq
    exact hself (Std.LawfulEqCmp.eq_of_compare heq).symm
  · rename_i hne
    refine hother ?_
    rintro rfl
    exact hne Std.ReflCmp.compare_self

variable {w : Valuation StringValue} {strings : List StringValue}

theorem exists_outcome_texts (us : List String) (hus : ∀ x ∈ us, w.text x ∈ strings) (c : Choice) :
    ∃ d ∈ outcomes (us.map fun x c => strings.map (c.setText x)) c, d.flags = c.flags ∧
      ∀ x, x ∈ us ∨ c.valuation.text x = w.text x → d.valuation.text x = w.text x := by
  induction us generalizing c with
  | nil => exact ⟨c, mem_singleton_self c, rfl, fun x hx => hx.resolve_left not_mem_nil⟩
  | cons y us ih =>
    obtain ⟨hy, hus⟩ := forall_mem_cons.mp hus
    obtain ⟨d, hd, hflags, htexts⟩ := ih hus (c.setText y (w.text y))
    refine ⟨d, mem_flatMap.mpr ⟨_, mem_map_of_mem hy, hd⟩, hflags, fun x hx => ?_⟩
    by_cases hxu : x ∈ us
    · exact htexts x (.inl hxu)
    · refine htexts x (.inr ?_)
      refine getD_insert_eq (fun heq => heq ▸ rfl) fun hne => hx.resolve_left fun hmem => ?_
      exact hxu ((mem_cons.mp hmem).resolve_left hne)

theorem exists_outcome (fs us : List String) (hus : ∀ x ∈ us, w.text x ∈ strings) (c : Choice) :
    ∃ d ∈ outcomes (fs.map (fun x c => [c.setFlag x false, c.setFlag x true]) ++
        us.map fun x c => strings.map (c.setText x)) c,
      (∀ x, x ∈ fs ∨ c.valuation.flag x = w.flag x → d.valuation.flag x = w.flag x) ∧
        ∀ x ∈ us, d.valuation.text x = w.text x := by
  induction fs generalizing c with
  | nil =>
    obtain ⟨d, hd, hflags, htexts⟩ := exists_outcome_texts us hus c
    refine ⟨d, hd, fun x hx => ?_, fun x hx => htexts x (.inl hx)⟩
    rw [← hx.resolve_left not_mem_nil]
    show d.flags.getD x false = c.flags.getD x false
    rw [hflags]
  | cons y fs ih =>
    obtain ⟨d, hd, hflags, htexts⟩ := ih (c.setFlag y (w.flag y))
    refine ⟨d, mem_flatMap.mpr ⟨c.setFlag y (w.flag y), ?_, hd⟩, fun x hx => ?_, htexts⟩
    · cases w.flag y <;> simp
    · by_cases hxf : x ∈ fs
      · exact hflags x (.inl hxf)
      · refine hflags x (.inr ?_)
        refine getD_insert_eq (fun heq => heq ▸ rfl) fun hne => hx.resolve_left fun hmem => ?_
        exact hxf ((mem_cons.mp hmem).resolve_left hne)

theorem stand_mem_strings (p : Problem) (v : Valuation StringValue) (hx : x ∈ p.circuit.unknowns) :
    p.circuit.stand v x ∈ p.strings := by
  unfold Circuit.stand strings
  split
  · rename_i hconst
    exact mem_append_left _ hconst
  · refine mem_append_right _ (mem_map.mpr ⟨_, mem_range.mpr ?_, rfl⟩)
    exact findIdx_lt_length_of_exists ⟨x, hx, beq_self_eq_true _⟩

theorem Sound.not_holds_of_tryAll (h : p.Sound) (hnone : p.tryAll p.trials Choice.empty = none)
    (v : Valuation StringValue) : p.holds v = false := by
  obtain ⟨d, hd, hflags, htexts⟩ := exists_outcome (w := ⟨v.flag, p.circuit.stand v⟩)
    p.circuit.flags.keys p.circuit.unknowns (fun x hx => p.stand_mem_strings v hx) Choice.empty
  have halike : p.circuit.Alike v d.valuation := Circuit.alike_of_stand
    (fun x hx => (hflags x (.inl (Std.TreeMap.mem_keys.mpr hx))).symm) htexts
  rw [h.holds_eq_of_alike halike]
  rw [tryAll_eq, find?_eq_none] at hnone
  show d.satisfies p = false
  simpa using hnone d hd

theorem satisfies_of_tryAll (h : p.tryAll p.trials Choice.empty = some c) :
    c.satisfies p = true := by
  rw [tryAll_eq] at h
  have hc := find?_some h
  exact hc

/-! ### The solver -/

theorem satisfies_of_solve (h : p.solve other = some c) : c.satisfies p = true := by
  unfold solve at h
  dsimp only at h
  split at h
  · cases h
  · split at h
    · rename_i hsat
      cases h
      exact hsat
    · exact satisfies_of_tryAll h
  · exact satisfies_of_tryAll h

theorem Sound.not_holds_of_solve (h : p.Sound) (hnone : p.solve other = none)
    (v : Valuation StringValue) : p.holds v = false := by
  unfold solve at hnone
  dsimp only at hnone
  split at hnone
  · rename_i hrefuted
    cases hv : p.holds v with
    | false => rfl
    | true => exact absurd hrefuted (h.search_ne_refuted hv _ _)
  · split at hnone
    · cases hnone
    · exact h.not_holds_of_tryAll hnone v
  · exact h.not_holds_of_tryAll hnone v

end Problem

end ControlReach
