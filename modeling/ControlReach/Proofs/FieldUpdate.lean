import ControlReach.Proofs.Generation

/-!
# Updates of fields

To set the place of a path in a value changes that place only: the value keeps its shape and the
order of its leaves, and other places keep what they hold.
-/

namespace ControlReach.SymValue

open List

variable {v v' v₂ u w x : SymValue} {fields : List (String × SymValue)} {f : String}
  {p q : List String}

/-! ### Shapes -/

mutual

/-- The type of a value; its structs have no names. -/
def shape : SymValue → Ty
  | .term t =>
    match t.sort with
    | .bool => .bool
    | .string => .string
  | .struct fields => .struct none (shapes fields)

def shapes : List (String × SymValue) → List (String × Ty)
  | [] => []
  | (f, v) :: rest => (f, shape v) :: shapes rest

end

theorem shapes_eq_map (fields : List (String × SymValue)) :
    shapes fields = fields.map fun p => (p.1, p.2.shape) := by
  induction fields with
  | nil => rfl
  | cons p rest ih => rw [shapes, ih, map_cons]

mutual

theorem map_leaves : ∀ (v : SymValue) (path : List String),
    (v.leaves path).map Prod.fst = v.shape.leaves path
  | .term t, _ => by
    rw [shape]
    cases t.sort <;> rfl
  | .struct fields, path => map_leavesOf fields path

theorem map_leavesOf : ∀ (fields : List (String × SymValue)) (path : List String),
    (leavesOf path fields).map Prod.fst = Ty.leavesOf path (shapes fields)
  | [], _ => rfl
  | (_, _) :: _, _ => by
    rw [leavesOf, map_append, map_leaves, map_leavesOf, shapes, Ty.leavesOf]

end

/-! ### One field -/

section

variable (fields)

theorem replace_eq (f : String) (u : SymValue) :
    replace fields f u = fields.map fun p => (p.1, if p.1 = f then u else p.2) := by
  refine map_congr_left fun p _ => ?_
  split <;> rfl

theorem replace_replace (f : String) (u x : SymValue) :
    replace (replace fields f u) f x = replace fields f x := by
  simp only [replace_eq, map_map]
  refine map_congr_left fun p _ => ?_
  by_cases hp : p.1 = f <;> simp [hp]

theorem replace_comm (hfg : f ≠ g) (u x : SymValue) :
    replace (replace fields f u) g x = replace (replace fields g x) f u := by
  simp only [replace_eq, map_map]
  refine map_congr_left fun p _ => ?_
  by_cases hp : p.1 = f
  · simp [hp, hfg]
  · simp [hp]

theorem lookup_replace_of_ne (hg : g ≠ f) (x : SymValue) :
    (replace fields f x).lookup g = fields.lookup g := by
  rw [replace_eq, Assoc.lookup_map]
  simp [hg]

end

section

variable (hf : fields.lookup f = some u)

include hf

theorem lookup_replace_self (x : SymValue) : (replace fields f x).lookup f = some x := by
  rw [replace_eq, Assoc.lookup_map, hf]
  simp

theorem replace_self (hn : (fields.map Prod.fst).Nodup) : replace fields f u = fields := by
  rw [replace_eq, map_congr_left (g := id), map_id]
  rintro ⟨g, x⟩ hp
  by_cases hg : g = f
  · subst hg
    rw [Option.some.inj (hf.symm.trans (Assoc.lookup_of_mem hn hp))]
    simp
  · simp [hg]

theorem shapes_replace (hn : (fields.map Prod.fst).Nodup) (hx : x.shape = u.shape) :
    shapes (replace fields f x) = shapes fields := by
  conv_rhs => rw [← replace_self hf hn]
  simp only [shapes_eq_map, replace_eq, map_map]
  refine map_congr_left fun p _ => ?_
  by_cases hp : p.1 = f <;> simp [hp, hx]

end

/-! ### Paths -/

def read (v : SymValue) : List String → Except EvalFault SymValue
  | [] => .ok v
  | f :: path => do (← v.get f).read path

/-- Neither path is a prefix of the other. -/
def Apart (p q : List String) : Prop := ¬ p <+: q ∧ ¬ q <+: p

theorem read_struct (hf : fields.lookup f = some u) :
    (SymValue.struct fields).read (f :: p) = u.read p := by
  rw [read, get]
  simp only [hf]
  rfl

theorem update_struct (hf : fields.lookup f = some u) (h : u.update p w = .ok x) :
    (SymValue.struct fields).update (f :: p) w = .ok (.struct (replace fields f x)) := by
  have hget : (SymValue.struct fields).get f = .ok u := by
    rw [get]
    simp only [hf]
  rw [update]
  exact bind_eq_ok.2 ⟨u, hget, bind_eq_ok.2 ⟨x, h, rfl⟩⟩

theorem update_cons (h : v.update (f :: p) w = .ok v') : ∃ fields u x, v = .struct fields ∧
    fields.lookup f = some u ∧ u.update p w = .ok x ∧ v' = .struct (replace fields f x) := by
  cases v with
  | term => cases h
  | struct fields =>
    rw [update] at h
    obtain ⟨u, hu, h⟩ := bind_eq_ok.1 h
    obtain ⟨x, hx, h⟩ := bind_eq_ok.1 h
    exact ⟨fields, u, x, rfl, get_struct hu, hx, (Except.ok.inj h).symm⟩

theorem read_update (h : v.update p w = .ok v') : v'.read p = .ok w := by
  induction p generalizing v v' with
  | nil => cases h; rfl
  | cons f p ih =>
    obtain ⟨fields, u, x, rfl, hf, hx, rfl⟩ := update_cons h
    rw [read_struct (lookup_replace_self hf x), ih hx]

theorem update_update (h : v.update p w = .ok v') (h₂ : v.update p x = .ok v₂) :
    v'.update p x = .ok v₂ := by
  induction p generalizing v v' v₂ with
  | nil => exact h₂
  | cons f p ih =>
    obtain ⟨fields, u, y, rfl, hf, hy, rfl⟩ := update_cons h
    obtain ⟨_, u₂, z, ⟨⟩, hf₂, hz, rfl⟩ := update_cons h₂
    obtain rfl : u = u₂ := Option.some.inj (hf.symm.trans hf₂)
    rw [update_struct (lookup_replace_self hf y) (ih hy hz), replace_replace]

section

variable (hpq : Apart p q)

include hpq

theorem read_of_apart (h : v.update p w = .ok v') : v'.read q = v.read q := by
  induction p generalizing v v' q with
  | nil => exact absurd nil_prefix hpq.1
  | cons f p ih =>
    obtain ⟨fields, u, x, rfl, hf, hx, rfl⟩ := update_cons h
    cases q with
    | nil => exact absurd nil_prefix hpq.2
    | cons g q =>
      by_cases hfg : g = f
      · subst hfg
        rw [read_struct hf, read_struct (lookup_replace_self hf x)]
        exact ih (by simpa [Apart] using hpq) hx
      · rw [read, read, get, get]
        simp only [lookup_replace_of_ne fields hfg]

/-- Updates of places apart from each other can be made in any order. -/
theorem update_comm (h : v.update p w = .ok v') (h₂ : v.update q x = .ok v₂) :
    ∃ r, v'.update q x = .ok r ∧ v₂.update p w = .ok r := by
  induction p generalizing v v' v₂ q with
  | nil => exact absurd nil_prefix hpq.1
  | cons f p ih =>
    obtain ⟨fields, u, y, rfl, hf, hy, rfl⟩ := update_cons h
    cases q with
    | nil => exact absurd nil_prefix hpq.2
    | cons g q =>
      obtain ⟨_, u₂, z, ⟨⟩, hg, hz, rfl⟩ := update_cons h₂
      by_cases hfg : f = g
      · subst hfg
        obtain rfl : u = u₂ := Option.some.inj (hf.symm.trans hg)
        obtain ⟨r, hr, hr₂⟩ := ih (by simpa [Apart] using hpq) hy hz
        refine ⟨_, update_struct (lookup_replace_self hf y) hr, ?_⟩
        rw [update_struct (lookup_replace_self hf z) hr₂, replace_replace, replace_replace]
      · refine ⟨_, update_struct ((lookup_replace_of_ne _ (Ne.symm hfg) y).trans hg) hz, ?_⟩
        rw [update_struct ((lookup_replace_of_ne _ hfg z).trans hf) hy, replace_comm fields hfg]

end

/-- The place of a path can be set to what it holds without a change, and to any value of its shape.
-/
theorem exists_update (hd : v.shape.Distinct) (hp : v.shape.at? p = some w.shape) :
    ∃ u v', v.read p = .ok u ∧ v.update p u = .ok v ∧ v.update p w = .ok v' ∧
      v'.shape = v.shape := by
  induction p generalizing v with
  | nil => exact ⟨v, w, rfl, by rw [update], by rw [update], (Option.some.inj hp).symm⟩
  | cons f p ih =>
    cases v with
    | term t =>
      rw [shape] at hp
      split at hp <;> cases hp
    | struct fields =>
      obtain ⟨ty, hty, hp⟩ := Option.bind_eq_some_iff.1 hp
      have hfield := hd.field hty
      have hn := hd.1
      rw [shapes_eq_map] at hty hn
      rw [Assoc.lookup_map] at hty
      obtain ⟨x, hf, rfl⟩ := Option.map_eq_some_iff.1 hty
      have hn : (fields.map Prod.fst).Nodup := by simpa [Function.comp_def] using hn
      obtain ⟨u, y, hu, hsame, hy, hshape⟩ := ih hfield hp
      refine ⟨u, _, (read_struct hf).trans hu, ?_, update_struct hf hy, ?_⟩
      · rw [update_struct hf hsame, replace_self hf hn]
      · rw [shape, shape, shapes_replace hf hn hshape]

/-- To set a place of a value touches that place only. -/
theorem update_touches_one (hd : v.shape.Distinct) (hp : v.shape.at? p = some w.shape) :
    ∃ v', v.update p w = .ok v' ∧ v'.read p = .ok w ∧
      (∀ q, Apart p q → v'.read q = v.read q) ∧
      v'.shape = v.shape ∧ (v'.leaves []).map Prod.fst = (v.leaves []).map Prod.fst ∧
      (∃ u, v.read p = .ok u ∧ v.update p u = .ok v) ∧
      (∀ q x, Apart p q → v.shape.at? q = some x.shape →
        ∃ v₂ r, v.update q x = .ok v₂ ∧ v'.update q x = .ok r ∧ v₂.update p w = .ok r) ∧
      ∀ x, x.shape = w.shape → ∃ v₂, v.update p x = .ok v₂ ∧ v'.update p x = .ok v₂ := by
  obtain ⟨u, v', hu, hsame, hv', hshape⟩ := exists_update hd hp
  refine ⟨v', hv', read_update hv', fun q hpq => read_of_apart hpq hv', hshape, ?_,
    ⟨u, hu, hsame⟩, fun q x hpq hq => ?_, fun x hx => ?_⟩
  · rw [map_leaves, map_leaves, hshape]
  · obtain ⟨-, v₂, -, -, hv₂, -⟩ := exists_update hd hq
    obtain ⟨r, hr, hr₂⟩ := update_comm hpq hv' hv₂
    exact ⟨v₂, r, hv₂, hr, hr₂⟩
  · obtain ⟨-, v₂, -, -, hv₂, -⟩ := exists_update hd (hx ▸ hp)
    exact ⟨v₂, hv₂, update_update hv' hv₂⟩

def header : SymValue := fresh "h" (.struct (some "Header") [("ok", .bool), ("eth",
  .struct (some "Ethernet") [("src", .string), ("dst", .string)])])

theorem update_touches_one_header : ∃ v', header.update ["eth", "dst"] (.term (.text "ff")) = .ok v' ∧
    v'.read ["eth", "dst"] = .ok (.term (.text "ff")) ∧
    v'.read ["eth", "src"] = header.read ["eth", "src"] := by
  obtain ⟨v', hv', hread, happart, -⟩ := update_touches_one (v := header) (p := ["eth", "dst"])
    (w := .term (.text "ff")) (by simp [header, fresh, freshFields, shape, shapes, Ty.Distinct,
      Ty.DistinctFields, Term.sort]) rfl
  exact ⟨v', hv', hread, happart _ ⟨by decide, by decide⟩⟩

end ControlReach.SymValue
