import ControlReach.Proofs.Execution
import ControlReach.Proofs.StructTypes

/-!
# Well-typed scopes

What is lowered in a scope whose names are well-typed has the type that was found for it, and reads
only the variables of that scope.
-/

namespace ControlReach

open List

/-! ### Expressions -/

namespace Rvalue

mutual

/-- An expression over variables that are defined, and its type, struct names aside. -/
def Fits (defined : List Variable) : Rvalue → Ty → Prop
  | .bool _, ty => ty = .bool
  | .text _, ty => ty = .string
  | .read v, ty => v ∈ defined ∧ ty = v.ty.bare
  | .field base f, ty =>
    ∃ fields, Fits defined base (.struct none fields) ∧ fields.lookup f = some ty
  | .struct fields, ty =>
    ∃ tys, ty = .struct none tys ∧ (tys.map Prod.fst).Nodup ∧ FitFields defined fields tys
  | .not e, ty => ty = .bool ∧ Fits defined e .bool
  | .and a b, ty => ty = .bool ∧ Fits defined a .bool ∧ Fits defined b .bool
  | .or a b, ty => ty = .bool ∧ Fits defined a .bool ∧ Fits defined b .bool
  | .equal _ a b, ty => ty = .bool ∧ ∃ side, Fits defined a side ∧ Fits defined b side
  | .guard _ _ _, _ => False

def FitFields (defined : List Variable) : List (String × Rvalue) → List (String × Ty) → Prop
  | [], [] => True
  | (f, e) :: fields, (g, ty) :: tys => f = g ∧ Fits defined e ty ∧ FitFields defined fields tys
  | _, _ => False

end

mutual

theorem Fits.inter (hcommon : ∀ v ∈ defined, v ∈ other → v ∈ defined') :
    ∀ {e : Rvalue} {ty ty' : Ty}, e.Fits defined ty → e.Fits other ty' → e.Fits defined' ty
  | .bool _, _, _, h, _ | .text _, _, _, h, _ => h
  | .read v, _, _, h, h' => ⟨hcommon v h.1 h'.1, h.2⟩
  | .field _ _, _, _, ⟨fields, h, hf⟩, ⟨_, h', _⟩ => ⟨fields, Fits.inter hcommon h h', hf⟩
  | .struct _, _, _, ⟨tys, hty, hnodup, h⟩, ⟨_, _, _, h'⟩ =>
    ⟨tys, hty, hnodup, FitFields.inter hcommon h h'⟩
  | .not _, _, _, h, h' => ⟨h.1, Fits.inter hcommon h.2 h'.2⟩
  | .and _ _, _, _, h, h' | .or _ _, _, _, h, h' =>
    ⟨h.1, Fits.inter hcommon h.2.1 h'.2.1, Fits.inter hcommon h.2.2 h'.2.2⟩
  | .equal _ _ _, _, _, ⟨hty, side, ha, hb⟩, ⟨_, _, ha', hb'⟩ =>
    ⟨hty, side, Fits.inter hcommon ha ha', Fits.inter hcommon hb hb'⟩
  | .guard _ _ _, _, _, h, _ => h.elim

theorem FitFields.inter (hcommon : ∀ v ∈ defined, v ∈ other → v ∈ defined') :
    ∀ {fields : List (String × Rvalue)} {tys tys' : List (String × Ty)},
      FitFields defined fields tys → FitFields other fields tys' → FitFields defined' fields tys
  | [], [], _, _, _ => trivial
  | _ :: _, _ :: _, _ :: _, h, h' =>
    ⟨h.1, Fits.inter hcommon h.2.1 h'.2.1, FitFields.inter hcommon h.2.2 h'.2.2⟩
  | _ :: _, _ :: _, [], _, h | [], _ :: _, _, h, _ | _ :: _, [], _, h, _ => h.elim

end

theorem Fits.mono (hsub : defined ⊆ defined') {e : Rvalue} (h : e.Fits defined ty) :
    e.Fits defined' ty := h.inter (fun _ hv _ => hsub hv) h

mutual

theorem Fits.value_congr (hσ : ∀ v ∈ defined, σ v.uid = σ' v.uid) : ∀ {e : Rvalue} {ty : Ty},
    e.Fits defined ty → e.value select σ = e.value select' σ'
  | .bool _, _, _ | .text _, _, _ => rfl
  | .read v, _, h => hσ v h.1
  | .field base f, _, h => by
    obtain ⟨fields, hbase, -⟩ := h
    rw [value, value, Fits.value_congr hσ hbase]
  | .struct fields, _, h => by
    obtain ⟨tys, -, -, hfields⟩ := h
    rw [value, value, FitFields.values_congr hσ hfields]
  | .not e, _, h => by rw [value, value, Fits.value_congr hσ h.2]
  | .and a b, _, h | .or a b, _, h => by
    rw [value, value, Fits.value_congr hσ h.2.1, Fits.value_congr hσ h.2.2]
  | .equal _ a b, _, h => by
    obtain ⟨-, side, ha, hb⟩ := h
    rw [value, value, Fits.value_congr hσ ha, Fits.value_congr hσ hb]
  | .guard _ _ _, _, h => h.elim

theorem FitFields.values_congr (hσ : ∀ v ∈ defined, σ v.uid = σ' v.uid) :
    ∀ {fields : List (String × Rvalue)} {tys : List (String × Ty)},
      FitFields defined fields tys → values select σ fields = values select' σ' fields
  | [], _, _ => rfl
  | (_, _) :: _, (_, _) :: _, h => by
    rw [values, values, Fits.value_congr hσ h.2.1, FitFields.values_congr hσ h.2.2]
  | _ :: _, [], h => h.elim

end

end Rvalue

def Binding.Fits (structs : String → Ty) (defined : List Variable) : Binding → Prop
  | .variable v => v ∈ defined ∧ v.ty.Proper structs
  | .type ty => ∀ t, ty = some t → t.Proper structs
  | .constant value => ∀ ty e, value = some (ty, e) → ty.Proper structs ∧ e.Fits defined ty.bare
  | .control _ | .action _ _ | .table _ _ | .inst _ => True

theorem Binding.Fits.mono (hsub : defined ⊆ defined') :
    ∀ {b : Binding}, b.Fits structs defined → b.Fits structs defined'
  | .variable _, h => ⟨hsub h.1, h.2⟩
  | .constant _, h => fun ty e he => ⟨(h ty e he).1, (h ty e he).2.mono hsub⟩
  | .type _, h => h
  | .control _, _ | .action _ _, _ | .table _ _, _ | .inst _, _ => trivial

variable {ty : Ty}

namespace Scope

variable {structs : String → Ty} {defined : List Variable} {s : Scope}

/-- A scope whose names are well-typed. -/
abbrev Fits (structs : String → Ty) (defined : List Variable) (s : Scope) : Prop :=
  s.Each fun _ => Binding.Fits structs defined

section

variable (h : s.Fits structs defined)

include h

theorem Fits.mono (hsub : defined ⊆ defined') :
    s.Fits structs defined' := h.imp fun _ _ => Binding.Fits.mono hsub

theorem Fits.enter (kind : FrameKind) (name : String) :
    (s.enter kind name).Fits structs defined := Each.enter h kind name

theorem Fits.root : s.root.Fits structs defined := Each.root h

theorem Fits.home {home : Scope} (hx : s.find? x = some (b, home)) :
    home.Fits structs defined := (Each.find? h hx).2

theorem Fits.resolveType {t : TypeRef} (ht : s.resolveType t = .ok ty) : ty.Proper structs := by
  cases t with
  | bool => cases ht; exact Ty.proper_bool
  | string => cases ht; exact Ty.proper_string
  | named x loc =>
    obtain ⟨hx, -⟩ := resolveType_named.1 ht
    exact h.lookup hx _ rfl
  | other => cases ht

end

theorem typeOfName_eq_ok (h : s.typeOfName x loc = .ok ty) :
    (∃ v, s.resolve x loc = .ok (.variable v) ∧ ty = v.ty) ∨
      ∃ e, s.resolve x loc = .ok (.constant (some (ty, e))) := by
  obtain ⟨b, hb, h⟩ := bind_eq_ok.1 h
  split at h <;> cases h
  · exact .inl ⟨_, hb, rfl⟩
  · exact .inr ⟨_, hb⟩

theorem lowerName_eq_ok (h : s.lowerName x loc = .ok r) :
    (∃ v, s.resolve x loc = .ok (.variable v) ∧ r = .read v) ∨
      ∃ ty, s.resolve x loc = .ok (.constant (some (ty, r))) := by
  obtain ⟨b, hb, h⟩ := bind_eq_ok.1 h
  split at h <;> cases h
  · exact .inl ⟨_, hb, rfl⟩
  · exact .inr ⟨_, hb⟩

theorem Fits.name (h : s.Fits structs defined) (ht : s.typeOfName x loc = .ok ty) :
    ty.Proper structs ∧ ∀ r, s.lowerName x loc = .ok r → r.Fits defined ty.bare := by
  rcases typeOfName_eq_ok ht with ⟨v, hv, rfl⟩ | ⟨e, he⟩
  · obtain ⟨hdefined, hproper⟩ := h.resolve hv
    refine ⟨hproper, fun r hr => ?_⟩
    rcases lowerName_eq_ok hr with ⟨w, hw, rfl⟩ | ⟨ty, hty⟩
    · cases hv.symm.trans hw
      exact ⟨hdefined, rfl⟩
    · cases hv.symm.trans hty
  · obtain ⟨hproper, hfits⟩ := h.resolve he _ _ rfl
    refine ⟨hproper, fun r hr => ?_⟩
    rcases lowerName_eq_ok hr with ⟨w, hw, rfl⟩ | ⟨ty, hty⟩
    · cases he.symm.trans hw
    · cases he.symm.trans hty
      exact hfits

theorem fieldType_eq_ok (h : fieldType ty f loc = .ok t) : ty.field? f = some t := by
  unfold fieldType at h
  split at h
  · split at h
    · cases h
      assumption
    · cases h
  · cases h

theorem wantBool_eq_ok (h : (s.typeOf none e >>= fun t => wantBool operator loc t >>= k) = .ok ty) :
    s.typeOf none e = .ok .bool ∧ k () = .ok ty := by
  obtain ⟨t, ht, h⟩ := bind_eq_ok.1 h
  cases t with
  | bool => exact ⟨ht, h⟩
  | string | struct => cases h

theorem wantSame_eq_ok (h : wantSame negated left right loc = .ok ty) :
    left.agrees right = true ∧ ty = .bool := by
  unfold wantSame at h
  split at h
  · cases h
    exact ⟨‹_›, rfl⟩
  · cases h

end Scope

theorem Rvalue.Fits.field {e : Rvalue} (h : e.Fits defined (Ty.struct name fields).bare)
    (hf : fields.lookup f = some t) : (Rvalue.field e f).Fits defined t.bare :=
  ⟨_, h, by rw [Ty.lookup_bareFields, hf]; rfl⟩

theorem Rvalue.FitFields.struct {tys : List (String × Ty)} (hnodup : (tys.map Prod.fst).Nodup)
    (h : FitFields defined fields (Ty.bareFields tys)) :
    (Rvalue.struct fields).Fits defined (Ty.struct name tys).bare :=
  ⟨_, rfl, by rwa [Ty.names_bareFields], h⟩

namespace Scope

variable {s : Scope}

mutual

theorem Fits.typeOf (h : s.Fits structs defined) : ∀ e expected ty,
    (∀ t, expected = some t → t.Proper structs) → s.typeOf expected e = .ok ty →
    ty.Proper structs ∧ ∀ r, s.lower e = .ok r → r.Fits defined ty.bare
  | .bool _ _, _, ty, _, ht => by
    cases ht
    refine ⟨Ty.proper_bool, ?_⟩
    rintro r ⟨⟩
    exact rfl
  | .text _ _, _, ty, _, ht => by
    cases ht
    refine ⟨Ty.proper_string, ?_⟩
    rintro r ⟨⟩
    exact rfl
  | .var x loc, _, ty, _, ht => h.name ht
  | .paren e _, expected, ty, hexp, ht => Fits.typeOf h e expected ty hexp ht
  | .field e f loc, _, ty, _, ht => by
    obtain ⟨base, hbase, ht⟩ := bind_eq_ok.1 ht
    have hfield := fieldType_eq_ok ht
    obtain ⟨hproper, hlower⟩ := Fits.typeOf h e none base (by simp) hbase
    refine ⟨hproper.field hfield, fun r hr => ?_⟩
    obtain ⟨r', hr', hr⟩ := bind_eq_ok.1 hr
    cases hr
    cases base with
    | bool | string => cases hfield
    | struct name fields => exact (hlower r' hr').field hfield
  | .struct fields loc, expected, ty, hexp, ht => by
    rw [Scope.typeOf.eq_def] at ht
    dsimp only at ht
    split at ht
    · rename_i hnodup
      split at ht
      · rename_i name wanted
        split at ht
        · rename_i hnames
          obtain ⟨_, hcheck, ht⟩ := bind_eq_ok.1 ht
          cases ht
          have hproper := hexp _ rfl
          refine ⟨hproper, fun r hr => ?_⟩
          obtain ⟨rs, hrs, hr⟩ := bind_eq_ok.1 hr
          cases hr
          exact (Fits.checkFields h fields wanted _ loc rs hnames hproper.fields hcheck hrs).struct
            hproper.distinct.1
        · cases ht
      · cases ht
      · obtain ⟨tys, htys, ht⟩ := bind_eq_ok.1 ht
        cases ht
        obtain ⟨hnames, hproper, hlower⟩ := Fits.typeFields h fields tys htys
        have hnodup : (tys.map Prod.fst).Nodup := by rwa [hnames]
        refine ⟨Ty.proper_anonymous hnodup hproper, fun r hr => ?_⟩
        obtain ⟨rs, hrs, hr⟩ := bind_eq_ok.1 hr
        cases hr
        exact (hlower rs hrs).struct hnodup
    · cases ht
  | .not e _, _, ty, _, ht => by
    obtain ⟨hty, ⟨⟩⟩ := wantBool_eq_ok ht
    refine ⟨Ty.proper_bool, fun r hr => ?_⟩
    obtain ⟨r', hr', hr⟩ := bind_eq_ok.1 hr
    cases hr
    exact ⟨rfl, (Fits.typeOf h e none _ (by simp) hty).2 r' hr'⟩
  | .and e e' _, _, ty, _, ht | .or e e' _, _, ty, _, ht => by
    obtain ⟨hty, ht⟩ := wantBool_eq_ok ht
    obtain ⟨hty', ⟨⟩⟩ := wantBool_eq_ok ht
    refine ⟨Ty.proper_bool, fun r hr => ?_⟩
    obtain ⟨a, b, ha, hb, rfl⟩ := bind₂_eq_ok.1 hr
    exact ⟨rfl, (Fits.typeOf h e none _ (by simp) hty).2 a ha,
      (Fits.typeOf h e' none _ (by simp) hty').2 b hb⟩
  | .equal negated e e' loc, _, ty, _, ht => by
    rw [Scope.typeOf] at ht
    -- A struct literal takes its type from the other side, whichever that is.
    obtain ⟨rfl, t, hleft, hright⟩ : ty = .bool ∧ ∃ t, (∀ a, s.lower e = .ok a → a.Fits defined t) ∧
        ∀ b, s.lower e' = .ok b → b.Fits defined t := by
      split at ht
      · obtain ⟨t, hty, ht⟩ := bind_eq_ok.1 ht
        obtain ⟨t', hty', ht⟩ := bind_eq_ok.1 ht
        obtain ⟨hagrees, rfl⟩ := wantSame_eq_ok ht
        obtain ⟨hproper, hright⟩ := Fits.typeOf h e' none t (by simp) hty
        obtain ⟨hproper', hleft⟩ := Fits.typeOf h e (some t) t' (by rintro _ ⟨⟩; exact hproper) hty'
        exact ⟨rfl, _, hleft, Ty.bare_eq_of_agrees hproper hproper' hagrees ▸ hright⟩
      · obtain ⟨t, hty, ht⟩ := bind_eq_ok.1 ht
        obtain ⟨t', hty', ht⟩ := bind_eq_ok.1 ht
        obtain ⟨hagrees, rfl⟩ := wantSame_eq_ok ht
        obtain ⟨hproper, hleft⟩ := Fits.typeOf h e none t (by simp) hty
        obtain ⟨hproper', hright⟩ := Fits.typeOf h e' (some t) t' (by rintro _ ⟨⟩; exact hproper) hty'
        exact ⟨rfl, _, Ty.bare_eq_of_agrees hproper hproper' hagrees ▸ hleft, hright⟩
    refine ⟨Ty.proper_bool, fun r hr => ?_⟩
    obtain ⟨a, ha, hr⟩ := bind_eq_ok.1 hr
    obtain ⟨b, hb, hr⟩ := bind_eq_ok.1 hr
    split at hr <;> cases hr
    · exact ⟨rfl, _, hright b hb, hleft a ha⟩
    · exact ⟨rfl, _, hleft a ha, hright b hb⟩
  | .call _ _ _, _, _, _, ht | .other _ _, _, _, _, ht => by cases ht

theorem Fits.typeFields (h : s.Fits structs defined) : ∀ fields tys, s.typeFields fields = .ok tys →
    tys.map Prod.fst = fields.map Prod.fst ∧ (∀ f ∈ tys, f.2.Proper structs) ∧
      ∀ rs, s.lowerFields fields = .ok rs → Rvalue.FitFields defined rs (Ty.bareFields tys)
  | [], tys, ht => by
    cases ht
    refine ⟨rfl, by simp, ?_⟩
    rintro rs ⟨⟩
    trivial
  | (f, e) :: rest, tys, ht => by
    obtain ⟨t, ts, hty, htys, rfl⟩ := bind₂_eq_ok.1 ht
    obtain ⟨hproper, hlower⟩ := Fits.typeOf h e none t (by simp) hty
    obtain ⟨hnames, hproper', hlower'⟩ := Fits.typeFields h rest ts htys
    refine ⟨by simp [hnames], forall_mem_cons.2 ⟨hproper, hproper'⟩, fun rs hr => ?_⟩
    obtain ⟨a, as, ha, has, rfl⟩ := bind₂_eq_ok.1 hr
    exact ⟨rfl, hlower a ha, hlower' as has⟩

theorem Fits.checkFields (h : s.Fits structs defined) : ∀ fields wanted struct loc rs,
    fields.map Prod.fst = wanted.map Prod.fst →
    (∀ f ∈ wanted, f.2.Proper structs) → s.checkFields struct loc fields wanted = .ok () →
    s.lowerFields fields = .ok rs → Rvalue.FitFields defined rs (Ty.bareFields wanted)
  | [], [], _, _, rs, _, _, _, hr => by
    cases hr
    trivial
  | [], _ :: _, _, _, _, hnames, _, _, _ | _ :: _, [], _, _, _, hnames, _, _, _ => by cases hnames
  | (f, e) :: rest, (g, want) :: wanted, struct, loc, rs, hnames, hwanted, hcheck, hr => by
    obtain ⟨rfl, hrest⟩ : f = g ∧ rest.map Prod.fst = wanted.map Prod.fst := by simpa using hnames
    obtain ⟨hproper, hwanted⟩ := forall_mem_cons.1 hwanted
    obtain ⟨t, hty, hcheck⟩ := bind_eq_ok.1 hcheck
    split at hcheck
    · rename_i hagrees
      obtain ⟨hproper', hlower⟩ := Fits.typeOf h e (some want) t (by rintro _ ⟨⟩; exact hproper) hty
      obtain ⟨a, as, ha, has, rfl⟩ := bind₂_eq_ok.1 hr
      have hsame := Ty.bare_eq_of_agrees hproper hproper' hagrees
      exact ⟨rfl, hsame ▸ hlower a ha,
        Fits.checkFields h rest wanted struct loc as hrest hwanted hcheck has⟩
    · cases hcheck

end

theorem Fits.lowerAs (h : s.Fits structs defined) (hty : ty.Proper structs)
    (hr : s.lowerAs ty e loc = .ok r) : r.Fits defined ty.bare := by
  obtain ⟨_, hcheck, hr⟩ := bind_eq_ok.1 hr
  obtain ⟨t, ht, hcheck⟩ := bind_eq_ok.1 hcheck
  split at hcheck
  · rename_i hagrees
    obtain ⟨hproper, hlower⟩ := h.typeOf e (some ty) t (by rintro _ ⟨⟩; exact hty) ht
    rw [Ty.bare_eq_of_agrees hty hproper hagrees]
    exact hlower r hr
  · cases hcheck

end Scope

/-! ### Places -/

theorem Ty.at?_nil (ty : Ty) : ty.at? [] = some ty := by
  cases ty <;> rfl

namespace Scope

variable {structs : String → Ty} {defined : List Variable} {s : Scope}

theorem at?_append (path : List String) (f : String) : ∀ {ty inner t : Ty},
    ty.at? path = some inner → inner.field? f = some t → ty.at? (path ++ [f]) = some t := by
  induction path with
  | nil =>
    intro ty inner t hat hf
    cases hat
    cases ty with
    | bool | string => cases hf
    | struct name fields =>
      show (fields.lookup f).bind (fun t => t.at? []) = some t
      rw [show fields.lookup f = some t from hf]
      rfl
  | cons g path ih =>
    intro ty inner t hat hf
    cases ty with
    | bool | string => cases hat
    | struct name fields =>
      obtain ⟨t', ht', hat⟩ := Option.bind_eq_some_iff.1 hat
      exact Option.bind_eq_some_iff.2 ⟨t', ht', ih hat hf⟩

variable {v : Variable}

theorem typeOf_access (hv : s.resolve x xloc = .ok (.variable v)) :
    ∀ (e : Expr) (path : List String)
    (expected : Option Ty) (ty : Ty), e.access? = some (x, xloc, path) →
    s.typeOf expected e = .ok ty → v.ty.at? path = some ty
  | .var y loc, path, _, ty, he, ht => by
    cases he
    rcases typeOfName_eq_ok ht with ⟨w, hw, rfl⟩ | ⟨e, he⟩
    · cases hv.symm.trans hw
      exact Ty.at?_nil _
    · cases hv.symm.trans he
  | .paren e _, path, expected, ty, he, ht => typeOf_access hv e path expected ty he ht
  | .field e f loc, path, _, ty, he, ht => by
    obtain ⟨⟨y, yloc, path'⟩, he', heq⟩ := Option.map_eq_some_iff.1 he
    cases heq
    obtain ⟨base, hbase, ht⟩ := bind_eq_ok.1 ht
    exact at?_append path' f (typeOf_access hv e path' none base he' hbase) (fieldType_eq_ok ht)
  | .bool _ _, _, _, _, he, _ | .text _ _, _, _, _, he, _ | .struct _ _, _, _, _, he, _
  | .not _ _, _, _, _, he, _ | .and _ _ _, _, _, _, he, _ | .or _ _ _, _, _, _, he, _
  | .equal _ _ _ _, _, _, _, he, _ | .call _ _ _, _, _, _, he, _ | .other _ _, _, _, _, he, _ => by
    cases he

theorem at?_bare (path : List String) (ty : Ty) : ty.bare.at? path = (ty.at? path).map Ty.bare := by
  induction path generalizing ty with
  | nil => cases ty <;> rfl
  | cons f path ih =>
    cases ty with
    | bool | string => rfl
    | struct name fields =>
      rw [Ty.bare, Ty.at?, Ty.at?, Ty.lookup_bareFields, Option.bind_map, Option.map_bind]
      exact congrArg _ (funext ih)

/-- A place in a defined variable, and its type. -/
structure Place (structs : String → Ty) (defined : List Variable) (v : Variable)
    (path : List String) (ty : Ty) : Prop where
  defined : v ∈ defined
  inner : v.ty.bare.at? path = some ty.bare
  proper : ty.Proper structs

theorem Fits.place (h : s.Fits structs defined) (hp : s.place e = .ok (v, path, ty)) :
    Place structs defined v path ty := by
  obtain ⟨x, xloc, haccess, hv, -, ht⟩ := place_eq_ok hp
  exact ⟨(h.resolve hv).1, by rw [at?_bare, typeOf_access hv e path none ty haccess ht]; rfl,
    (h.typeOf e none ty (by simp) ht).1⟩

end Scope

/-! ### The global scope -/

theorem TypeTable.keys_unfolded (t : TypeTable) (n : Nat) :
    (t.unfolded n).map Prod.fst = t.structs.map Prod.fst := by
  cases n <;> simp [unfolded, Function.comp_def]

namespace GlobalScope

variable {g : GlobalScope}

theorem fits_bindingOf {t : TypeTable} (ht : t.Sifted p) (hproper : ∀ n : TypeName, (∀ z, n =
    .struct z → z ∈ p.structNames) → (n.toTy t.structTypes).Proper structs)
    (h : bindingOf t t.structTypes d = some (x, b)) : b.Fits structs [] := by
  cases d <;> cases h
  case struct.refl d =>
    intro ty hty
    have hmem : d.name ∈ p.structNames := by
      rw [← ht.keys, ← t.keys_unfolded t.structs.length]
      exact mem_map_of_mem (Assoc.mem_of_lookup hty)
    have heq : (TypeName.struct d.name).toTy t.structTypes = ty := by
      show (t.structTypes.lookup d.name).getD _ = ty
      rw [hty]
      rfl
    rw [← heq]
    refine hproper _ ?_
    rintro y ⟨⟩
    exact hmem
  case typedef.refl d =>
    intro ty hty
    obtain ⟨n, hn, rfl⟩ := Option.map_eq_some_iff.1 hty
    refine hproper n fun z hz => ?_
    subst hz
    exact Program.mem_structNames.2 (ht.stands _ _ hn).exists_struct
  case constant.refl d => rintro ty e ⟨⟩
  all_goals trivial

variable (h : g.scope.Fits structs [])

include h

theorem fits_add (q : Declaration × Option Diagnostic) : (g.add q).scope.Fits structs [] := by
  obtain heq | ⟨d, known, -, hknown, heq⟩ | ⟨d, c, -, -, heq⟩ := g.add_cases q
  · rwa [heq]
  · rw [heq]
    refine h.update ?_
    rintro ty e ⟨⟩
    obtain ⟨hty, he⟩ := constantValue_eq_ok hknown
    have hproper := h.resolveType hty
    exact ⟨hproper, h.lowerAs hproper he⟩
  · rw [heq]
    exact h.update trivial

end GlobalScope

theorem Program.fits_symbols (p : Program) :
    ∀ q ∈ p.owned.filterMap (GlobalScope.bindingOf p.typeTable p.typeTable.structTypes),
      q.2.Fits p.typeTable.structTy [] := by
  intro q hq
  obtain ⟨d, -, hbinding⟩ := mem_filterMap.1 hq
  exact GlobalScope.fits_bindingOf p.elaborated_typeTable.toSifted (fun n hn => p.proper_toTy hn) hbinding

theorem Program.fits_globals (p : Program) : p.globals.scope.Fits p.typeTable.structTy [] := by
  refine List.foldlRecOn
    (motive := fun g : GlobalScope => g.scope.Fits p.typeTable.structTy []) _ _ ?_
    fun g hg q _ => GlobalScope.fits_add hg q
  intro f hf
  obtain rfl := mem_singleton.1 hf
  exact p.fits_symbols

end ControlReach
