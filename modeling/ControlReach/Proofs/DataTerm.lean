import ControlReach.Proofs.Naming
import ControlReach.Proofs.Passage
import ControlReach.Proofs.StoredTerms

/-!
# Terms over some of the unknowns

A term over a set of unknowns keeps its truth value when other unknowns change. What symbolic
execution stores is put together from what is stored and from new unknowns, so stores stay over such
a set.
-/

namespace ControlReach

open List Rvalue SymValue

variable {P : Symbol → Prop}

/-! ### Terms -/

/-- Two valuations give the same values to some unknowns. -/
structure Valuation.Same {δ : Type} (P : Symbol → Prop) (v v' : Valuation δ) : Prop where
  flag : ∀ name, P ⟨name, .bool⟩ → v.flag name = v'.flag name
  text : ∀ name, P ⟨name, .string⟩ → v.text name = v'.text name

namespace Term

def Over (P : Symbol → Prop) (t : Term) : Prop := ∀ s ∈ t.symbols, P s

theorem symbolsList_eq (as : List Term) : symbolsList as = as.flatMap symbols := by
  induction as with
  | nil => rfl
  | cons a as ih => rw [symbolsList, ih, flatMap_cons]

theorem over_bool (b : Bool) : Over P (.bool b) := by simp [Over, symbols]

theorem over_text (s : String) : Over P (.text s) := by simp [Over, symbols]

theorem over_symbol : Over P (.symbol s) ↔ P s := by simp [Over, symbols]

variable {as : List Term} {a : Term}

theorem over_symbolsList (ha : a ∈ as) : Over (· ∈ symbolsList as) a := fun s hs => by
  rw [symbolsList_eq]
  exact List.mem_flatMap.2 ⟨a, ha, hs⟩

theorem over_and : Over P (.and as) ↔ ∀ a ∈ as, Over P a := by
  rw [Over, symbols, symbolsList_eq]
  exact forall_mem_flatMap

theorem over_or : Over P (.or as) ↔ ∀ a ∈ as, Over P a := over_and

theorem over_eq : Over P (.eq a b) ↔ Over P a ∧ Over P b := forall_mem_append

theorem Over.mkNot (h : Over P a) : Over P (mkNot a) := by
  fun_cases Term.mkNot a with
  | case1 => exact over_bool _
  | case2 | case3 => exact h

theorem Over.mkAnd (h : ∀ a ∈ as, Over P a) : Over P (mkAnd as) :=
  mkAnd_eq_connect as ▸ connect_of_forall (fun _ => over_and) over_bool h

theorem Over.mkOr (h : ∀ a ∈ as, Over P a) : Over P (mkOr as) :=
  mkOr_eq_connect as ▸ connect_of_forall (fun _ => over_or) over_bool h

theorem Over.mkEq (ha : Over P a) (hb : Over P b) : Over P (mkEq a b) := by
  unfold Term.mkEq
  split
  · exact over_bool _
  · split
    · exact over_bool _
    · split
      · split
        · exact hb
        · exact hb.mkNot
      · split
        · exact ha
        · exact ha.mkNot
      · exact over_eq.2 ⟨ha, hb⟩

theorem kept_over (P : Symbol → Prop) : Kept (Over P) :=
  ⟨over_bool, over_text, .mkNot, .mkAnd, .mkOr, .mkEq⟩

section Values

variable {denote : String → δ} {v v' : Valuation δ}

theorem Over.string_eq (hv : v.Same P v') : ∀ {t : Term}, t.Over P →
    t.string denote v = t.string denote v'
  | .text _, _ | .bool _, _ | .not _, _ | .and _, _ | .or _, _ | .eq _ _, _ | .one _, _
  | .symbol ⟨_, .bool⟩, _ => rfl
  | .symbol ⟨name, .string⟩, h => congrArg some (hv.text name (over_symbol.1 h))

variable [DecidableEq δ]

mutual

theorem Over.holds_eq (hv : v.Same P v') : ∀ {t : Term}, t.Over P →
    t.holds denote v = t.holds denote v'
  | .bool _, _ | .text _, _ | .symbol ⟨_, .string⟩, _ => rfl
  | .symbol ⟨name, .bool⟩, h => hv.flag name (over_symbol.1 h)
  | .not a, h => congrArg Bool.not (Over.holds_eq hv (t := a) h)
  | .and as, h => (Over.listed_eq hv as (over_and.1 h)).1
  | .or as, h => (Over.listed_eq hv as (over_or.1 h)).2.1
  | .eq a b, h => by
    obtain ⟨ha, hb⟩ := over_eq.1 h
    simp only [holds, Over.holds_eq hv ha, Over.holds_eq hv hb, Over.string_eq hv ha,
      Over.string_eq hv hb]
  | .one as, h => congrArg (· == 1) (Over.listed_eq hv as (over_and.1 h)).2.2

theorem Over.listed_eq (hv : v.Same P v') : ∀ as : List Term, (∀ a ∈ as, Over P a) →
    allHold denote v as = allHold denote v' as ∧ anyHolds denote v as = anyHolds denote v' as ∧
      countHolding denote v as = countHolding denote v' as
  | [], _ => ⟨rfl, rfl, rfl⟩
  | a :: as, h => by
    obtain ⟨ha, has⟩ := forall_mem_cons.1 h
    obtain ⟨hall, hany, hcount⟩ := Over.listed_eq hv as has
    simp only [allHold, anyHolds, countHolding, Over.holds_eq hv ha, hall, hany, hcount, and_self]

end

end Values

end Term

/-- The term says something about values if an edge is selected. -/
def DefinedBy (P : Symbol → Prop) (selectors : List Term) (t : Term) : Prop :=
  ∃ sel ∈ selectors, ∃ body : Term, body.Over P ∧ t = selected sel body

theorem definedBy_mergeDefinitions {joined : Term} {selectors values : List Term}
    (hj : joined.Over P) (hvalues : ∀ t ∈ values, t.Over P) :
    ∀ t ∈ mergeDefinitions joined selectors values, DefinedBy P selectors t := by
  rw [mergeDefinitions, forall_mem_zipWith]
  intro p hp
  obtain ⟨hsel, hvalue⟩ := of_mem_zip hp
  exact ⟨p.1, hsel, _, .mkEq hj (hvalues _ hvalue), rfl⟩

/-! ### Values -/

variable [Letters]

/-- The terms in a value are over some unknowns, and its field names are identifiers. -/
abbrev SymValue.Over (P : Symbol → Prop) (w : SymValue) : Prop := w.All IsIdentifier (Term.Over P)

abbrev SymValue.OverFields (P : Symbol → Prop) (fields : List (String × SymValue)) : Prop :=
  AllFields IsIdentifier (Term.Over P) fields

/-! ### Stores -/

/-- A store of known variables whose values are over some unknowns. -/
abbrev Store.Over (known : List Variable) (P : Symbol → Prop) (s : Store) : Prop :=
  s.All (fun n x => n = x.uid ∧ x ∈ known) IsIdentifier (Term.Over P)

variable {name : String}

section Stores

variable {known : List Variable} {s : Store}

mutual

theorem Rvalue.Plain.within {Q : Term → Prop} : ∀ {e : Rvalue}, e.Plain → e.Within IsIdentifier Q
  | .bool _, _ | .text _, _ | .read _, _ => trivial
  | .field base _, h => Plain.within (e := base) h
  | .struct fields, h => PlainFields.within fields h
  | .not e, h => Plain.within (e := e) h
  | .and _ _, h | .or _ _, h | .equal _ _ _, h => ⟨Plain.within h.1, Plain.within h.2⟩
  | .guard _ _ _, h => h.elim

theorem Rvalue.PlainFields.within {Q : Term → Prop} : ∀ fields : List (String × Rvalue),
    PlainFields fields → WithinFields IsIdentifier Q fields
  | [], _ => trivial
  | _ :: rest, h => ⟨h.1, Plain.within h.2.1, PlainFields.within rest h.2.2⟩

end

theorem Rvalue.over_condition (hs : s.Over known P) {e : Rvalue} (he : e.Plain)
    (h : e.condition s = .ok t) : t.Over P :=
  all_condition (Term.kept_over P) hs he.within h

def HasLeaves (P : Symbol → Prop) (name : String) : Prop :=
  ∀ path, Identifiers path → ∀ sort, P ⟨leafName name path, sort⟩

theorem HasLeaves.here (h : HasLeaves P name) (sort : Sorts) : P ⟨name, sort⟩ :=
  h [] identifiers_nil sort

theorem HasLeaves.field (h : HasLeaves P name) (hf : IsIdentifier f) :
    HasLeaves P (name ++ "." ++ f) :=
  fun path hpath => h (f :: path) (identifiers_cons.2 ⟨hf, hpath⟩)

mutual

theorem SymValue.over_fresh : ∀ ty name, ty.Named → HasLeaves P name →
    (fresh name ty).Over P
  | .bool, _, _, h | .string, _, _, h => Term.over_symbol.2 (h.here _)
  | .struct _ fields, name, hty, h => over_freshFields fields name hty h

theorem SymValue.over_freshFields : ∀ fields name,
    Ty.NamedFields fields → HasLeaves P name → SymValue.OverFields P (freshFields name fields)
  | [], _, _, _ => trivial
  | (_, ty) :: rest, name, hty, h =>
    ⟨hty.1, over_fresh ty _ hty.2.1 (h.field hty.1),
      over_freshFields rest name hty.2.2 h⟩

end

def FreshIn (P : Symbol → Prop) (known : List Variable) : Prop :=
  ∀ x ∈ known, ∀ n, HasLeaves P (freshName x n)

/-- Operations keep a store over the unknowns, and add conditions over them. -/
theorem over_execute (hknown : ∀ x ∈ known, x.Named) (hfresh : FreshIn P known)
    (hops : ∀ op ∈ ops, op.Named (· ∈ known)) (hs : s.Over known P)
    (hassumed : ∀ t ∈ assumed, t.Over P) (h : execute ops s assumed = .ok (s', assumed')) :
    s'.Over known P ∧ ∀ t ∈ assumed', t.Over P := by
  refine all_execute (Term.kept_over P) (fun op hop => ?_) hs hassumed h
  have hnamed := hops op hop
  cases op with
  | assign => exact ⟨⟨rfl, hnamed.1⟩, hnamed.2.within⟩
  | havoc x n => exact ⟨⟨rfl, hnamed⟩,
      over_fresh x.ty _ (hknown x hnamed).ty (hfresh x hnamed n)⟩
  | assume => exact hnamed.within

/-! ### Joins -/

mutual

theorem over_merge : ∀ name selectors first others w defs, HasLeaves P name → first.Over P →
    (∀ o ∈ others, o.Over P) → merge name selectors first others = .ok (w, defs) →
    w.Over P ∧ ∀ t ∈ defs, DefinedBy P selectors t
  | name, selectors, .term t, others, w, defs, hname, hfirst, hothers, h => by
    rw [merge] at h
    split at h
    · cases h
      exact ⟨hfirst, by simp⟩
    · simp only [bind_eq_ok, pure_eq_ok, Prod.mk.injEq] at h
      obtain ⟨values, hvalues, rfl, rfl⟩ := h
      have hj : Term.Over P (.symbol ⟨name, t.sort⟩) := Term.over_symbol.2 (hname.here _)
      refine ⟨hj, definedBy_mergeDefinitions hj (forall_mem_cons.2 ⟨hfirst, fun u hu => ?_⟩)⟩
      obtain ⟨o, ho, hscalar⟩ := exists_of_forall₂ (mapM_eq_ok.1 hvalues).flip hu
      exact (hothers o ho).scalar hscalar
  | name, selectors, .struct fields, others, w, defs, hname, hfirst, hothers, h => by
    rw [merge] at h
    split at h
    · cases h
      exact ⟨hfirst, by simp⟩
    · simp only [bind_eq_ok, pure_eq_ok, Prod.mk.injEq] at h
      obtain ⟨⟨ws, defs'⟩, hws, rfl, rfl⟩ := h
      exact over_mergeFields name selectors fields others ws defs' hname hfirst hothers hws

theorem over_mergeFields : ∀ name selectors fields others ws defs, HasLeaves P name →
    SymValue.OverFields P fields → (∀ o ∈ others, o.Over P) →
    mergeFields name selectors fields others = .ok (ws, defs) →
    SymValue.OverFields P ws ∧ ∀ t ∈ defs, DefinedBy P selectors t
  | _, _, [], _, ws, defs, _, _, _, h => by
    cases h
    exact ⟨trivial, by simp⟩
  | name, selectors, (f, v) :: rest, others, ws, defs, hname, hfields, hothers, h => by
    simp only [mergeFields, bind_eq_ok, pure_eq_ok, Prod.mk.injEq] at h
    obtain ⟨us, hus, ⟨w, here⟩, hw, ⟨ws', there⟩, hws, rfl, rfl⟩ := h
    have hget : ∀ u ∈ us, u.Over P := by
      intro u hu
      obtain ⟨o, ho, hget⟩ := exists_of_forall₂ (mapM_eq_ok.1 hus).flip hu
      exact (hothers o ho).get hget
    obtain ⟨hover, hdefs⟩ := over_merge _ selectors v us w here (hname.field hfields.1) hfields.2.1
      hget hw
    obtain ⟨hover', hdefs'⟩ := over_mergeFields name selectors rest others ws' there hname
      hfields.2.2 hothers hws
    exact ⟨⟨hfields.1, hover, hover'⟩, forall_mem_append.2 ⟨hdefs, hdefs'⟩⟩

end

def JoinsIn (P : Symbol → Prop) (known : List Variable) (block : BlockId) : Prop :=
  ∀ x ∈ known, HasLeaves P (x.display ++ "@join" ++ toString block)

theorem over_mergeStores {block : BlockId} {selectors : List Term} {others : List Store}
    {defs : List Term} (hjoins : JoinsIn P known block) (hs : s.Over known P)
    (hothers : ∀ o ∈ others, o.Over known P)
    (h : mergeStores block selectors others s = .ok (s', defs)) :
    s'.Over known P ∧ ∀ t ∈ defs, DefinedBy P selectors t := by
  induction s generalizing s' defs with
  | nil =>
    cases h
    exact ⟨forall_mem_nil _, by simp⟩
  | cons p rest ih =>
    obtain ⟨uid, x, w⟩ := p
    obtain ⟨⟨⟨huid, hx⟩, hw⟩, hs⟩ := forall_mem_cons.1 hs
    rw [mergeStores] at h
    split at h
    · exact ih hs h
    · rename_i values hvalues
      simp only [bind_eq_ok, pure_eq_ok, Prod.mk.injEq] at h
      obtain ⟨⟨w', here⟩, hw', ⟨rest', there⟩, hrest, rfl, rfl⟩ := h
      have hvalue : ∀ u ∈ values, u.Over P := by
        intro u hu
        obtain ⟨o, ho, hget⟩ := exists_of_forall₂ (mapM_eq_some.1 hvalues).flip hu
        exact (hothers o ho).value hget
      obtain ⟨hover, hdefs⟩ := over_merge _ selectors w values w' here (hjoins x hx) hw hvalue hw'
      obtain ⟨hover', hdefs'⟩ := ih hs hrest
      exact ⟨forall_mem_cons.2 ⟨⟨⟨huid, hx⟩, hover⟩, hover'⟩, forall_mem_append.2 ⟨hdefs, hdefs'⟩⟩

/-- Of several arrivals some selected one is open, and the definitions say something about its
values. -/
def Arrival.JoinsOver (P : Symbol → Prop) (block : BlockId) (arrivals : List Arrival) (a : Arrival)
    (defs : List Term) : Prop :=
  (arrivals = [a] ∧ defs = []) ∨
    ∃ values, a.condition = Term.mkOr (selectors block arrivals.length) ∧
      defs = List.zipWith (fun sel (b : Arrival) => selected sel b.condition)
        (selectors block arrivals.length) arrivals ++ values ∧
      ∀ t ∈ values, DefinedBy P (selectors block arrivals.length) t

theorem over_join (hjoins : JoinsIn P known block) (hover : ∀ b ∈ arrivals, b.store.Over known P)
    (h : join block arrivals = .ok (some (a, defs))) :
    a.store.Over known P ∧ a.JoinsOver P block arrivals defs := by
  fun_cases join block arrivals with
  | case1 => cases h
  | case2 b =>
    cases h
    exact ⟨hover _ mem_cons_self, .inl ⟨rfl, rfl⟩⟩
  | case3 first others hne =>
    rw [join.eq_3 block first others hne] at h
    simp only [bind_eq_ok, pure_eq_ok, Option.some.injEq, Prod.mk.injEq] at h
    obtain ⟨⟨s, values⟩, hstores, rfl, rfl⟩ := h
    obtain ⟨hfirst, hothers⟩ := forall_mem_cons.1 hover
    obtain ⟨hstore, hvalues⟩ :=
      over_mergeStores hjoins hfirst (forall_mem_map.2 hothers) hstores
    exact ⟨hstore, .inr ⟨values, rfl, rfl, hvalues⟩⟩

omit [Letters] in
theorem Arrival.JoinsOver.defined {a : Arrival} (h : a.JoinsOver P block arrivals defs) :
    ∀ t ∈ defs, ∃ (k : Nat) (hk : k < arrivals.length) (body : Term),
      t = selected (selector block k) body ∧ (body = arrivals[k].condition ∨ body.Over P) := by
  rcases h with ⟨-, rfl⟩ | ⟨values, -, rfl, hvalues⟩
  · exact forall_mem_nil _
  · refine forall_mem_append.2 ⟨fun t ht => ?_, fun t ht => ?_⟩
    · obtain ⟨k, hk, rfl⟩ := mem_iff_getElem.1 ht
      exact ⟨k, by simpa [selectors] using hk, _, by simp [selectors], .inl rfl⟩
    · obtain ⟨sel, hsel, body, hbody, rfl⟩ := hvalues t ht
      obtain ⟨k, hk, rfl⟩ := mem_map.1 hsel
      exact ⟨k, mem_range.1 hk, body, rfl, .inr hbody⟩

end Stores

/-! ### Leaves -/

def LeafOf (name : String) (path : List String) (q : List String × Symbol) : Prop :=
  ∃ more sort, q = (path ++ more, ⟨leafName name more, sort⟩) ∧ Identifiers more

theorem LeafOf.here (name : String) (path : List String) (sort : Sorts) :
    LeafOf name path (path, ⟨name, sort⟩) := ⟨[], sort, by simp [leafName], identifiers_nil⟩

theorem LeafOf.field (hf : IsIdentifier f) (h : LeafOf (name ++ "." ++ f) (path ++ [f]) q) :
    LeafOf name path q := by
  obtain ⟨more, sort, rfl, hmore⟩ := h
  exact ⟨f :: more, sort, by simp [leafName], identifiers_cons.2 ⟨hf, hmore⟩⟩

mutual

theorem leafOf_unknowns : ∀ (ty : Ty) (name : String) (path : List String), ty.Named →
    ∀ q ∈ ty.unknowns name path, LeafOf name path q
  | .bool, _, _, _ | .string, _, _, _ => forall_mem_singleton.2 (.here _ _ _)
  | .struct _ fields, name, path, h => leafOf_unknownsOf fields name path h

theorem leafOf_unknownsOf : ∀ fields name path,
    Ty.NamedFields fields → ∀ q ∈ Ty.unknownsOf name path fields, LeafOf name path q
  | [], _, _, _ => forall_mem_nil _
  | (_, ty) :: rest, name, path, h => forall_mem_append.2
    ⟨fun q hq => .field h.1 (leafOf_unknowns ty _ _ h.2.1 q hq),
      leafOf_unknownsOf rest name path h.2.2⟩

end

mutual

theorem leafOf_mergeUnknowns : ∀ first others name path, first.Over P →
    ∀ q ∈ mergeUnknowns name path first others, LeafOf name path q
  | .term t, others, name, path, _ => by
    rw [mergeUnknowns]
    split
    · exact forall_mem_nil _
    · exact forall_mem_singleton.2 (.here _ _ _)
  | .struct fields, others, name, path, h => by
    rw [mergeUnknowns]
    split
    · exact forall_mem_nil _
    · exact leafOf_mergeUnknownsOf fields others name path h

theorem leafOf_mergeUnknownsOf : ∀ fields others name path, SymValue.OverFields P fields →
    ∀ q ∈ mergeUnknownsOf name path fields others, LeafOf name path q
  | [], _, _, _, _ => forall_mem_nil _
  | (f, v) :: rest, others, name, path, h => by
    rw [mergeUnknownsOf]
    refine forall_mem_append.2 ⟨?_, leafOf_mergeUnknownsOf rest others name path h.2.2⟩
    split
    · exact fun q hq => .field h.1 (leafOf_mergeUnknowns v _ _ _ h.2.1 q hq)
    · exact forall_mem_nil _

end

end ControlReach
