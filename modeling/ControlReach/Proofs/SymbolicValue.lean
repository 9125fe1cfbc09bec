import ControlReach.Proofs.Datum
import ControlReach.Proofs.Success
import ControlReach.Proofs.TermMeaning
import ControlReach.Query.Symbolic

/-!
# What symbolic values stand for

Under a valuation a symbolic value stands for a datum, and operations on typed values agree with
those on data.
-/

namespace ControlReach

open List

/-! ### Terms -/

namespace Term

def datum (v : Valuation String) (t : Term) : Datum :=
  match t.sort with
  | .bool => .bool (t.holds id v)
  | .string => .text ((t.string id v).getD "")

variable {t a : Term}

theorem datum_of_bool (h : t.sort = .bool) : t.datum v = .bool (t.holds id v) := by
  rw [datum, h]

theorem datum_of_string (h : t.sort = .string) : t.datum v = .text ((t.string id v).getD "") := by
  rw [datum, h]

theorem string_eq_some (h : t.sort = .string) : ∃ s, t.string id v = some s := by
  cases t with
  | text s => exact ⟨s, rfl⟩
  | symbol x =>
    obtain ⟨name, sort⟩ := x
    obtain rfl : sort = .string := h
    exact ⟨v.text name, rfl⟩
  | bool | not | and | or | eq | one => cases h

theorem holds_mkEq_iff (h : a.sort = b.sort) :
    holds id v (mkEq a b) = true ↔ a.datum v = b.datum v := by
  rw [holds_mkEq (fun _ _ _ _ hst => by simpa using hst) h, holds]
  cases hb : b.sort with
  | bool =>
    rw [datum_of_bool (h.trans hb), datum_of_bool hb, h.trans hb]
    simp
  | string =>
    obtain ⟨s, hs⟩ := string_eq_some (v := v) (h.trans hb)
    obtain ⟨r, hr⟩ := string_eq_some (v := v) hb
    rw [datum_of_string (h.trans hb), datum_of_string hb, h.trans hb, hs, hr]
    simp

end Term

namespace SymValue

mutual

def datum (v : Valuation String) : SymValue → Datum
  | .term t => t.datum v
  | .struct fields => .struct (data v fields)

def data (v : Valuation String) : List (String × SymValue) → List (String × Datum)
  | [] => []
  | (f, w) :: rest => (f, datum v w) :: data v rest

end

mutual

def HasType : SymValue → Ty → Prop
  | .term t, .bool => t.Formula
  | .term t, .string => t.sort = .string
  | .struct fields, .struct _ tys => HaveTypes fields tys
  | _, _ => False

def HaveTypes : List (String × SymValue) → List (String × Ty) → Prop
  | [], [] => True
  | (f, w) :: fields, (g, ty) :: tys => f = g ∧ HasType w ty ∧ HaveTypes fields tys
  | _, _ => False

end

theorem data_eq_map (v : Valuation String) (fields : List (String × SymValue)) :
    data v fields = fields.map fun p => (p.1, p.2.datum v) := by
  induction fields with
  | nil => rfl
  | cons p rest ih => simp [data, ih]

/-! ### Types -/

section Types

variable {w : SymValue}

theorem HasType.of_bool (h : w.HasType .bool) : ∃ t, w = .term t ∧ t.Formula := by
  cases w with
  | term t => exact ⟨t, rfl, h⟩
  | struct => exact h.elim

theorem HasType.of_struct (h : w.HasType (.struct name tys)) :
    ∃ fields, w = .struct fields ∧ HaveTypes fields tys := by
  cases w with
  | term => exact h.elim
  | struct fields => exact ⟨fields, rfl, h⟩

theorem haveTypes_iff :
    HaveTypes fields tys ↔ Forall₂ (fun p q => p.1 = q.1 ∧ p.2.HasType q.2) fields tys := by
  induction fields generalizing tys with
  | nil => cases tys <;> simp [HaveTypes]
  | cons p rest ih => cases tys <;> simp [HaveTypes, ih, and_assoc]

theorem HaveTypes.names (h : HaveTypes fields tys) : fields.map Prod.fst = tys.map Prod.fst :=
  Assoc.keys_eq (haveTypes_iff.1 h)

theorem HasType.sort (h : (SymValue.term t).HasType ty) : t.sort = ty.sort := by
  cases ty with
  | bool => exact h.1
  | string => exact h
  | struct => exact h.elim

theorem HasType.wellSorted (h : (SymValue.term t).HasType ty) : t.WellSorted := by
  cases ty with
  | bool => exact h.2
  | string =>
    have hs : t.sort = .string := h
    cases t with
    | text | symbol => trivial
    | bool | not | and | or | eq | one => cases hs
  | struct => exact h.elim

mutual

theorem hasType_fresh : ∀ x ty, (fresh x ty).HasType ty.bare
  | _, .bool => ⟨rfl, trivial⟩
  | _, .string => rfl
  | x, .struct _ fields => haveTypes_freshFields x fields

theorem haveTypes_freshFields : ∀ x fields,
    HaveTypes (freshFields x fields) (Ty.bareFields fields)
  | _, [] => trivial
  | x, (f, ty) :: rest => ⟨rfl, hasType_fresh (x ++ "." ++ f) ty, haveTypes_freshFields x rest⟩

end

end Types

/-! ### Fields -/

section Fields

variable {w : SymValue}

theorem HaveTypes.lookup (h : HaveTypes fields tys) (hf : tys.lookup f = some ty) :
    ∃ w, fields.lookup f = some w ∧ w.HasType ty := Assoc.exists_lookup (haveTypes_iff.1 h) hf

theorem lookup_data (fields : List (String × SymValue)) (f : String) :
    (data v fields).lookup f = (fields.lookup f).map (datum v) := by
  rw [data_eq_map, Assoc.lookup_map]

theorem get_struct (h : (SymValue.struct fields).get f = .ok w) : fields.lookup f = some w := by
  unfold get at h
  split at h
  · cases h
  · rename_i heq
    cases heq
    split at h
    · cases h
      assumption
    · cases h

theorem get_spec (h : w.HasType (.struct name tys)) (hf : tys.lookup f = some ty)
    (hget : w.get f = .ok u) : u.HasType ty ∧ ∀ v, (w.datum v).get? f = some (u.datum v) := by
  obtain ⟨fields, rfl, hfields⟩ := h.of_struct
  obtain ⟨u', hu, hty⟩ := hfields.lookup hf
  obtain rfl : u' = u := Option.some.inj (hu.symm.trans (get_struct hget))
  refine ⟨hty, fun v => ?_⟩
  rw [datum, Datum.get?, lookup_data, hu, Option.map_some]

theorem data_replace (fields : List (String × SymValue)) (f : String) (w : SymValue) :
    data v (replace fields f w) = Datum.replace (data v fields) f (w.datum v) := by
  rw [data_eq_map, data_eq_map, replace, Datum.replace, map_map, map_map]
  refine map_congr_left fun p _ => ?_
  by_cases hp : p.1 = f <;> simp [hp]

theorem HaveTypes.replace (h : HaveTypes fields tys) (hn : (tys.map Prod.fst).Nodup)
    (hf : tys.lookup f = some ty) (hw : w.HasType ty) : HaveTypes (replace fields f w) tys := by
  rw [haveTypes_iff, forall₂_iff_zip] at h
  rw [haveTypes_iff, SymValue.replace, forall₂_map_left_iff, forall₂_iff_zip]
  refine ⟨h.1, fun {p q} hmem => ?_⟩
  obtain ⟨hname, hp⟩ := h.2 hmem
  split
  · rename_i heq
    have hty : tys.lookup q.1 = some q.2 := Assoc.lookup_of_mem hn (of_mem_zip hmem).2
    rw [← hname, heq, hf] at hty
    exact ⟨hname, Option.some.inj hty ▸ hw⟩
  · exact ⟨hname, hp⟩

/-- The place of a path in a value of a struct type can be set. -/
theorem update_spec : ∀ {w u : SymValue} {ty inner : Ty},
    w.HasType ty → ty.Distinct → ty.at? path = some inner → u.HasType inner →
    ∃ w', w.update path u = .ok w' ∧ w'.HasType ty ∧
      ∀ v, (w.datum v).set? path (u.datum v) = some (w'.datum v) := by
  induction path with
  | nil =>
    intro w u ty inner _ _ hat hu
    cases hat
    exact ⟨u, by rw [update], hu, fun v => by cases w.datum v <;> rfl⟩
  | cons f path ih =>
    intro w u ty inner hw hd hat hu
    cases ty with
    | bool | string => cases hat
    | struct name tys =>
      obtain ⟨fty, hfty, hat⟩ := Option.bind_eq_some_iff.1 hat
      obtain ⟨fields, rfl, hfields⟩ := hw.of_struct
      obtain ⟨old, hold, holdty⟩ := hfields.lookup hfty
      have hget : (SymValue.struct fields).get f = .ok old := by rw [get]; simp only [hold]
      obtain ⟨new, hin, hnew, hset⟩ := ih holdty (hd.field hfty) hat hu
      refine ⟨.struct (replace fields f new), ?_, hfields.replace hd.1 hfty hnew, fun v => ?_⟩
      · rw [update]
        exact bind_eq_ok.2 ⟨old, hget, bind_eq_ok.2 ⟨new, hin, rfl⟩⟩
      · rw [datum, Datum.set?, lookup_data, hold]
        simp only [Option.map_some, Option.bind_eq_bind, Option.bind_some, hset, datum,
          data_replace]
        rfl

end Fields

/-! ### Equality -/

section Equality

theorem lookup_append_cons {pre : List (String × SymValue)} (h : f ∉ pre.map Prod.fst) :
    (pre ++ (f, w) :: rest).lookup f = some w := by
  induction pre with
  | nil => simp
  | cons p pre ih =>
    rw [map_cons, mem_cons, not_or] at h
    rw [cons_append, lookup_cons, beq_eq_false_iff_ne.2 h.1]
    exact ih h.2

mutual

/-- Two values of one type are equal exactly when they stand for one datum. -/
theorem equality_spec : ∀ (a b : SymValue) (ty : Ty), a.HasType ty → b.HasType ty → ty.Distinct →
    ∃ t, a.equality b = .ok t ∧ t.Formula ∧ ∀ v, t.holds id v = true ↔ a.datum v = b.datum v
  | .term a, .term b, ty, ha, hb, _ => by
    have hs : a.sort = b.sort := ha.sort.trans hb.sort.symm
    exact ⟨_, rfl, Term.Formula.mkEq hs ha.wellSorted hb.wellSorted,
      fun _ => Term.holds_mkEq_iff hs⟩
  | .struct as, .struct bs, .struct _ tys, ha, hb, hd => by
    have hbs : HaveTypes bs tys := hb
    have hn : (bs.map Prod.fst).Nodup := by rw [hbs.names]; exact hd.1
    obtain ⟨ts, heq, hform, hiff⟩ := equalities_spec [] as bs tys ha hbs hd.2 hn
    rw [equality]
    refine ⟨_, bind_eq_ok.2 ⟨ts, heq, rfl⟩, Term.Formula.mkAnd hform, fun v => ?_⟩
    rw [Term.holds_mkAnd, hiff, datum, datum]
    simp
  | .term _, .struct _, ty, ha, hb, _ | .struct _, .term _, ty, ha, hb, _ => by
    cases ty <;> first | exact ha.elim | exact hb.elim
  | .struct _, .struct _, .bool, ha, _, _ | .struct _, .struct _, .string, ha, _, _ => ha.elim

theorem equalities_spec : ∀ (pre as bs : List (String × SymValue)) (tys : List (String × Ty)),
    HaveTypes as tys → HaveTypes bs tys → Ty.DistinctFields tys →
    ((pre ++ bs).map Prod.fst).Nodup → ∃ ts, equalities as (pre ++ bs) = .ok ts ∧
      (∀ t ∈ ts, t.Formula) ∧ ∀ v, (∀ t ∈ ts, t.holds id v = true) ↔ data v as = data v bs
  | _, [], [], [], _, _, _, _ => ⟨[], rfl, by simp [data]⟩
  | pre, (f, a) :: as, (g, b) :: bs, (_, ty) :: tys, ha, hb, hd, hn => by
    obtain ⟨rfl, ha, has⟩ := ha
    obtain ⟨rfl, hb, hbs⟩ := hb
    have hg : g ∉ pre.map Prod.fst := by
      rw [map_append, map_cons, nodup_append] at hn
      exact fun hmem => hn.2.2 g hmem g mem_cons_self rfl
    have hget : (SymValue.struct (pre ++ (g, b) :: bs)).get g = .ok b := by
      rw [get]
      simp only [lookup_append_cons hg]
    obtain ⟨t, heq, ht, hiff⟩ := equality_spec a b ty ha hb hd.1
    obtain ⟨rest, hrest, hts, hiffs⟩ := equalities_spec (pre ++ [(g, b)]) as bs tys has hbs hd.2
      (by simpa using hn)
    rw [append_assoc, singleton_append] at hrest
    refine ⟨t :: rest, ?_, forall_mem_cons.2 ⟨ht, hts⟩, fun v => ?_⟩
    · rw [equalities]
      exact bind_eq_ok.2 ⟨b, hget, bind_eq_ok.2 ⟨t, heq, bind_eq_ok.2 ⟨rest, hrest, rfl⟩⟩⟩
    · rw [forall_mem_cons, hiff, hiffs, data, data]
      simp
  | _, [], _ :: _, tys, ha, hb, _, _ | _, _ :: _, [], tys, ha, hb, _, _ => by
    cases tys <;> first | exact ha.elim | exact hb.elim
  | _, [], [], _ :: _, ha, _, _, _ | _, _ :: _, _ :: _, [], ha, _, _, _ => ha.elim

end

end Equality

end SymValue

end ControlReach
