/-!
# Ordered associations

A list of pairs that holds each key once and keeps the order in which the keys came.
-/

namespace ControlReach.Assoc

variable {κ β : Type} [DecidableEq κ]

def set (key : κ) (v : β) : List (κ × β) → List (κ × β)
  | [] => [(key, v)]
  | (k, w) :: rest => if k = key then (k, v) :: rest else (k, w) :: set key v rest

def setNew (key : κ) (v : β) (l : List (κ × β)) : List (κ × β) :=
  if (l.lookup key).isSome then l else l ++ [(key, v)]

theorem lookup_set_self (key : κ) (v : β) (l : List (κ × β)) :
    (set key v l).lookup key = some v := by
  induction l with
  | nil => simp [set]
  | cons p rest ih =>
    obtain ⟨k, w⟩ := p
    by_cases h : k = key
    · simp [set, h]
    · have h' : (key == k) = false := by simpa using fun e => h e.symm
      simp [set, h, List.lookup_cons, h', ih]

theorem lookup_set_ne {key k : κ} (h : k ≠ key) (v : β) (l : List (κ × β)) :
    (set key v l).lookup k = l.lookup k := by
  have hk : (k == key) = false := by simpa using h
  induction l with
  | nil => simp [set, List.lookup_cons, hk]
  | cons p rest ih =>
    obtain ⟨k', w⟩ := p
    by_cases hp : k' = key
    · subst hp
      simp [set, List.lookup_cons, hk]
    · simp [set, hp, List.lookup_cons, ih]

theorem lookup_set (key k : κ) (v : β) (l : List (κ × β)) :
    (set key v l).lookup k = if k = key then some v else l.lookup k := by
  by_cases h : k = key
  · rw [if_pos h, h, lookup_set_self]
  · rw [if_neg h, lookup_set_ne h]

/-- What is set last counts. -/
theorem lookup_foldl_set (key : κ) (m l : List (κ × β)) :
    (m.foldl (fun l p => set p.1 p.2 l) l).lookup key =
      (m.reverse.lookup key).or (l.lookup key) := by
  induction m generalizing l with
  | nil => rfl
  | cons p m ih =>
    rw [List.foldl_cons, ih, lookup_set, List.reverse_cons, List.lookup_append, Option.or_assoc,
      List.lookup_cons]
    by_cases h : key = p.1
    · simp [h]
    · simp [h, beq_eq_false_iff_ne.mpr h]

theorem keys_set_of_mem {key : κ} (v : β) {l : List (κ × β)} (h : key ∈ l.map Prod.fst) :
    (set key v l).map Prod.fst = l.map Prod.fst := by
  induction l with
  | nil => simp at h
  | cons p rest ih =>
    by_cases hp : p.1 = key
    · simp [set, hp]
    · have h' : key ∈ rest.map Prod.fst := by
        rcases List.mem_cons.mp h with h | h
        · exact absurd h.symm hp
        · exact h
      simp [set, hp, ih h']

theorem keys_set_of_not_mem {key : κ} (v : β) {l : List (κ × β)} (h : key ∉ l.map Prod.fst) :
    (set key v l).map Prod.fst = l.map Prod.fst ++ [key] := by
  induction l with
  | nil => rfl
  | cons p rest ih =>
    have hp : p.1 ≠ key := fun e => h (by simp [e])
    have h' : key ∉ rest.map Prod.fst := fun hm => h (List.mem_cons_of_mem _ hm)
    simp [set, hp, ih h']

theorem mem_of_lookup {key : κ} {v : β} {l : List (κ × β)} (h : l.lookup key = some v) :
    (key, v) ∈ l := by
  obtain ⟨before, after, rfl, -⟩ := List.lookup_eq_some_iff.1 h
  exact List.mem_append_right _ List.mem_cons_self

theorem lookup_map {γ : Type} (f : κ × β → γ) (key : κ) (l : List (κ × β)) :
    (l.map fun p => (p.1, f p)).lookup key = (l.lookup key).map fun v => f (key, v) := by
  induction l with
  | nil => rfl
  | cons p rest ih =>
    rw [List.map_cons, List.lookup_cons, List.lookup_cons, ih]
    by_cases h : key = p.1
    · simp [h]
    · rw [beq_eq_false_iff_ne.2 h]

theorem lookup_of_mem {key : κ} {v : β} {l : List (κ × β)} (hn : (l.map Prod.fst).Nodup)
    (h : (key, v) ∈ l) : l.lookup key = some v := by
  obtain ⟨before, after, rfl⟩ := List.append_of_mem h
  refine List.lookup_eq_some_iff.2 ⟨before, after, rfl, fun p hp => bne_iff_ne.2 ?_⟩
  rintro rfl
  rw [List.map_append, List.nodup_append] at hn
  exact hn.2.2 _ (List.mem_map_of_mem hp) _ List.mem_cons_self rfl

theorem lookup_eq_none_iff {key : κ} {l : List (κ × β)} :
    l.lookup key = none ↔ key ∉ l.map Prod.fst := by
  rw [List.lookup_eq_none_iff, List.mem_map]
  constructor
  · rintro h ⟨p, hp, rfl⟩
    exact bne_iff_ne.1 (h p hp) rfl
  · exact fun h p hp => bne_iff_ne.2 fun hk => h ⟨p, hp, hk.symm⟩

theorem nodup_keys_set {key : κ} (v : β) {l : List (κ × β)} (h : (l.map Prod.fst).Nodup) :
    ((set key v l).map Prod.fst).Nodup := by
  by_cases hk : key ∈ l.map Prod.fst
  · rw [keys_set_of_mem v hk]
    exact h
  · rw [keys_set_of_not_mem v hk, List.nodup_append]
    refine ⟨h, by simp, fun a ha b hb => ?_⟩
    rw [List.mem_singleton] at hb
    subst hb
    rintro rfl
    exact hk ha

theorem mem_of_mem_set {key : κ} {v : β} {l : List (κ × β)} {q : κ × β} (h : q ∈ set key v l) :
    q ∈ l ∨ q = (key, v) := by
  induction l with
  | nil => exact .inr (List.mem_singleton.1 h)
  | cons p rest ih =>
    rw [set] at h
    split at h
    · rename_i hkey
      rcases List.mem_cons.1 h with rfl | h
      · exact .inr (by rw [hkey])
      · exact .inl (List.mem_cons_of_mem _ h)
    · rcases List.mem_cons.1 h with rfl | h
      · exact .inl List.mem_cons_self
      · exact (ih h).imp_left (List.mem_cons_of_mem _)

/-- After setting a key its new pair is there, and the pairs of the other keys are. -/
theorem mem_set_iff {key : κ} {v : β} {l : List (κ × β)} (hn : (l.map Prod.fst).Nodup)
    {p : κ × β} : p ∈ set key v l ↔ p = (key, v) ∨ (p ∈ l ∧ p.1 ≠ key) := by
  obtain ⟨k, w⟩ := p
  constructor
  · intro h
    have hlook := lookup_of_mem (nodup_keys_set v hn) h
    by_cases hk : k = key
    · subst hk
      rw [lookup_set_self] at hlook
      simp_all
    · rw [lookup_set_ne hk] at hlook
      exact .inr ⟨mem_of_lookup hlook, hk⟩
  · rintro (h | ⟨h, hk⟩)
    · cases h
      exact mem_of_lookup (lookup_set_self key v l)
    · refine mem_of_lookup ?_
      rw [lookup_set_ne hk]
      exact lookup_of_mem hn h

end ControlReach.Assoc
