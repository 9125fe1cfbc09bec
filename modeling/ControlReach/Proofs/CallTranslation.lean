import ControlReach.Proofs.Translation

/-!
# Declarations and parameters

What the declarations of a control and the parameters of a body do to a heap is what their plans do
to a state.
-/

namespace ControlReach

open List

/-- Each result of one computation is matched by one of another, and conversely. -/
structure Agree {α β : Type} (A : α → Prop) (B : β → Prop) (M : α → β → Prop) : Prop where
  forth : ∀ a, A a → ∃ b, B b ∧ M a b
  back : ∀ b, B b → ∃ a, A a ∧ M a b

theorem Agree.imp {α β : Type} {A : α → Prop} {B : β → Prop} {M M' : α → β → Prop}
    (h : Agree A B M) (hM : ∀ a b, M a b → M' a b) : Agree A B M' where
  forth a ha := (h.forth a ha).imp fun _ => And.imp_right (hM _ _)
  back b hb := (h.back b hb).imp fun _ => And.imp_right (hM _ _)

theorem Agree.bind {α β γ δ : Type} {A : α → Prop} {B : β → Prop} {M : α → β → Prop}
    {A' : α → γ → Prop} {B' : β → δ → Prop} {M' : γ → δ → Prop} (h : Agree A B M)
    (h' : ∀ a b, M a b → Agree (A' a) (B' b) M') :
    Agree (fun c => ∃ a, A a ∧ A' a c) (fun d => ∃ b, B b ∧ B' b d) M' where
  forth := by
    rintro c ⟨a, ha, hc⟩
    obtain ⟨b, hb, hab⟩ := h.forth a ha
    obtain ⟨d, hd, hcd⟩ := (h' a b hab).forth c hc
    exact ⟨d, ⟨b, hb, hd⟩, hcd⟩
  back := by
    rintro d ⟨b, hb, hd⟩
    obtain ⟨a, ha, hab⟩ := h.back b hb
    obtain ⟨c, hc, hcd⟩ := (h' a b hab).back d hd
    exact ⟨c, ⟨a, ha, hc⟩, hcd⟩

theorem Agree.congr {α β : Type} {A A' : α → Prop} {B B' : β → Prop} {M : α → β → Prop}
    (h : Agree A B M) (hA : ∀ a, A' a ↔ A a) (hB : ∀ b, B' b ↔ B b) : Agree A' B' M where
  forth a ha := (h.forth a ((hA a).1 ha)).imp fun b => And.imp_left (hB b).2
  back b hb := (h.back b ((hB b).1 hb)).imp fun a => And.imp_left (hA a).2

/-! ### Arguments -/

variable {x : String} {l : List Visit} {i : Nat}

theorem lookup_byPosition : ∀ (l : List (Parameter × Argument)) (bound : Bound),
    x ∉ l.map (fun q => q.1.name) →
    (l.foldl (fun bound (p, a) => Assoc.set p.name a bound) bound).lookup x = bound.lookup x
  | [], _, _ => rfl
  | (p, a) :: l, bound, hx => by
    obtain ⟨hne, hx⟩ := not_or.1 (mt mem_cons.2 hx)
    rw [foldl_cons, lookup_byPosition l _ hx]
    exact Assoc.lookup_set_ne hne a bound

theorem pairInOrder_eq : ∀ (params : List Parameter) (args : List Argument) (bound : Bound),
    (params.map Parameter.name).Nodup → args.length ≤ params.length →
    (∀ p ∈ params, bound.lookup p.name = none) → pairInOrder params args = params.map fun p => (p,
      (((params.zip args).foldl (fun bound (p, a) => Assoc.set p.name a bound) bound).lookup p.name))
  | [], _, _, _, _, _ => rfl
  | p :: params, [], bound, hnodup, _, hnone => by
    obtain ⟨hp, hnone⟩ := forall_mem_cons.1 hnone
    have ih := pairInOrder_eq params [] bound (nodup_cons.1 hnodup).2 (Nat.zero_le _) hnone
    rw [zip_nil_right] at ih
    rw [pairInOrder, map_cons, zip_nil_right, ih, foldl_nil, hp]
  | p :: params, a :: args, bound, hnodup, hlen, hnone => by
    obtain ⟨hp, hnone⟩ := forall_mem_cons.1 hnone
    obtain ⟨hnotMem, hnodup⟩ := nodup_cons.1 hnodup
    have hne : ∀ q ∈ params, q.name ≠ p.name := fun q hq heq =>
      hnotMem (heq ▸ mem_map_of_mem hq)
    have ih := pairInOrder_eq params args (Assoc.set p.name a bound) hnodup
      (Nat.le_of_succ_le_succ hlen) fun q hq => by
        rw [Assoc.lookup_set_ne (hne q hq), hnone q hq]
    have hfirst : p.name ∉ (params.zip args).map fun q => q.1.name := by
      intro hmem
      obtain ⟨q, hq, heq⟩ := mem_map.1 hmem
      exact hne q.1 (of_mem_zip hq).1 heq
    rw [pairInOrder, map_cons, zip_cons_cons, foldl_cons,
      lookup_byPosition _ _ hfirst, Assoc.lookup_set_self, ih]

variable {loc : Option Location}

theorem lookup_named (x : String) (args : List Argument) :
    (args.filterMap fun a => a.name.map fun x => (x, a)).lookup x =
      args.find? fun a => a.name == some x := by
  induction args with
  | nil => rfl
  | cons a args ih =>
    rw [filterMap_cons, find?_cons]
    cases hname : a.name with
    | none => exact ih
    | some y =>
      rw [Option.map_some, lookup_cons, ih]
      by_cases hxy : x = y
      · subst hxy
        simp
      · have hyx : (y == x) = false := beq_eq_false_iff_ne.2 (Ne.symm hxy)
        simp [beq_eq_false_iff_ne.2 hxy, hyx]

theorem bound_eq_pairArguments (hnodup : (params.map Parameter.name).Nodup)
    (h : bindArguments params args callee loc unbound = .ok bound) :
    bound = pairArguments params args := by
  obtain ⟨hmixed, hlen, rfl⟩ := Elaborate.bindArguments_eq_ok h
  by_cases hall : (args.all fun a => a.name.isNone) = true
  · have hpositional : (args.filter fun a => a.name.isNone) = args :=
      filter_eq_self.2 (all_eq_true.1 hall)
    have hnamed : (args.filterMap fun a => a.name.map fun x => (x, a)) = [] := by
      refine filterMap_eq_nil_iff.2 fun a ha => ?_
      rw [Option.isNone_iff_eq_none.1 (all_eq_true.1 hall a ha)]
      rfl
    rw [hpositional] at hlen
    rw [hpositional, hnamed, append_nil, pairArguments, if_pos hall,
      pairInOrder_eq params args [] hnodup hlen (by simp)]
  · have hpositional : (args.filter fun a => a.name.isNone) = [] := by
      refine hmixed.resolve_right fun hnamed => hall ?_
      simpa using hnamed
    rw [hpositional, zip_nil_right, pairArguments, if_neg hall]
    exact map_congr_left fun p _ => by rw [foldl_nil, nil_append, lookup_named]

/-! ### Declarations -/

theorem Op.step_assign_iff :
    (Op.assign v [] e loc).Step o σ τ ↔ ∃ d, e.value o.select σ = some d ∧ τ = σ.put v d := by
  constructor
  · rintro (⟨he, hτ⟩ | _)
    exact ⟨_, he, (Option.some.inj hτ).symm⟩
  · rintro ⟨d, he, rfl⟩
    exact .assign he rfl

theorem Op.step_havoc_iff : (Op.havoc v n loc).Step o σ τ ↔ ∃ d, o.draws v n d ∧ τ = σ.put v d := by
  constructor
  · rintro (_ | hd)
    exact ⟨_, hd, rfl⟩
  · rintro ⟨d, hd, rfl⟩
    exact .havoc hd

/-- Constants that are evaluated once depend on constants only. -/
def Admits (time : BindingTime) (l : List Visit) : Prop := time = .declaration → FixedConstants l

theorem Admits.append (h : Admits time (l ++ l')) : Admits time l ∧ Admits time l' :=
  ⟨fun ht v hv => h ht v (mem_append_left _ hv),
    fun ht v hv => h ht v (mem_append_right _ hv)⟩

theorem Admits.under (h : Admits time (l.map (Visit.under step))) : Admits time l :=
  fun ht v hv => h ht (v.under step) (mem_map_of_mem hv)

def After (time : BindingTime) (s : Scope) (n : Nat) (us : List Nat) (env : Environment) (h : Heap)
    (τ : State) : Prop :=
  ∃ us', us <+: us' ∧ Mirrors us' n h τ ∧ s.Models time us' env

theorem Admits.rest {time : BindingTime} {names : Environment} {x : Local} {l : List Local}
    (h : Admits time (Local.visitsAll names i (x :: l))) :
    Admits time (Local.visitsAll (x.after names) (i + 1) l) := by
  cases x with
  | constant d => exact fun ht v hv => h ht v (mem_cons_of_mem _ hv)
  | _ => exact h

section Declarations

variable {time : BindingTime} {us : List Nat} {h : Heap} {σ : State} {s s' : Scope}
  {env names : Environment} {c c' : Counters} {a : Plan}

theorem Scope.Models.declare (hs : s.Models time us env) (hd : s.declare x b loc = .ok s')
    (hm : b.meaning.Rel (fun v k => us[k]? = some v.uid) (Stands time us) m) :
    s'.Models time us (env.declare x m) := by
  rw [Models, Scope.env_declare hd]
  exact Env.Rel.declare hs hm x

theorem After.variable (hs : s.Models time us env) (hm : Mirrors us n h σ) {v : Variable}
    (hv : n ≤ v.uid) (hd : s.declare x (.variable v) loc = .ok s') (d : Datum) :
    After time s' (v.uid + 1) us (env.declare x (.var h.length)) (h ++ [d]) (σ.put v d) := by
  refine ⟨_, prefix_append us [v.uid], hm.push hv d, ?_⟩
  refine (hs.mono (prefix_append us [v.uid])).declare hd (.var ?_)
  rw [← hm.length, getElem?_concat_length]

theorem Admits.fixed (h : Admits time (⟨path, names, .constant d⟩ :: l)) (hnames : s.Names names) :
    time = .declaration → d.value.isFixed s.env = true := by
  intro ht
  rw [Env.Rel.isFixed hnames]
  exact h ht _ mem_cons_self

namespace Elaborate

theorem DeclaresVariable.agree (hd : DeclaresVariable ctx s d c a s' c') (hs : s.Models time us env)
    (hm : Mirrors us c.uid h σ) :
    Agree (fun x : Environment × Heap => Declares time env h (.variable d) x.1 x.2)
      (a.Finishes (.free .all) σ) (fun x τ => After time s' c'.uid us x.1 x.2 τ) := by
  cases hd with
  | @initial ty e value s' hty he hvalue hdeclare =>
    have heval := hs.lowerAs hm hvalue
    constructor
    · rintro ⟨env', h'⟩ hx
      cases hx with
      | @initial _ e' d' he' hd' =>
        cases he.symm.trans he'
        exact ⟨_, Op.step_assign_iff.2 ⟨d', heval.symm.trans hd', rfl⟩,
          After.variable hs hm (Nat.le_refl _) hdeclare d'⟩
      | arbitrary hnone => cases he.symm.trans hnone
    · intro τ hτ
      obtain ⟨d', hd', rfl⟩ := Op.step_assign_iff.1 hτ
      exact ⟨(_, _), .initial he (heval.trans hd'),
        After.variable hs hm (Nat.le_refl _) hdeclare d'⟩
  | @arbitrary ty s' hty hnone hdeclare =>
    have htype := hs.resolveType hty
    constructor
    · rintro ⟨env', h'⟩ hx
      cases hx with
      | initial he => cases hnone.symm.trans he
      | @arbitrary _ ty' d' _ hty' hd' =>
        cases htype.symm.trans hty'
        exact ⟨_, Op.step_havoc_iff.2 ⟨d', hd', rfl⟩,
          After.variable hs hm (Nat.le_refl _) hdeclare d'⟩
    · intro τ hτ
      obtain ⟨d', hd', rfl⟩ := Op.step_havoc_iff.1 hτ
      exact ⟨(_, _), .arbitrary hnone htype hd', After.variable hs hm (Nat.le_refl _) hdeclare d'⟩

theorem DeclaresConstant.models (hd : DeclaresConstant s d s') (hs : s.Models time us env)
    (hm : Mirrors us n h σ) (hfixed : time = .declaration → d.value.isFixed s.env = true) :
    s'.Models time us (env.declare d.name (.const (time.bind env h d.value))) := by
  cases hd with
  | @mk ty value s' _ hvalue hdeclare =>
    obtain ⟨_, -, hlower⟩ := bind_eq_ok.1 hvalue
    refine hs.declare hdeclare (.const ?_)
    rintro _ _ ⟨⟩
    cases time with
    | declaration =>
      have hsame := hs.fixed d.value value (hfixed rfl) hlower
      refine ⟨fun us' n' h' σ' _ _ => ?_, fun _ => hsame⟩
      exact (hs.lower hm d.value value hlower).trans (hsame σ σ')
    | use =>
      refine ⟨fun us' n' h' σ' hus hm' => ?_, fun ht => nomatch ht⟩
      exact (hs.mono hus).lower hm' d.value value hlower

theorem DeclaresName.models {x : Local} {l : List Local} (hx : DeclaresName s x s')
    (hs : s.Models time us env) {n : Nat} (hm : Mirrors us n h σ) (hnames : s.Names names)
    (hadmits : Admits time (Local.visitsAll names i (x :: l))) :
    ∃ env', (∀ env₁ h₁, Declares time env h x env₁ h₁ ↔ env₁ = env' ∧ h₁ = h) ∧
      s'.Models time us env' := by
  cases hx with
  | constant hd =>
    exact ⟨_, fun _ _ => ⟨fun | .constant => ⟨rfl, rfl⟩, by rintro ⟨rfl, rfl⟩; exact .constant⟩,
      hd.models hs hm (hadmits.fixed hnames)⟩
  | action hd =>
    exact ⟨_, fun _ _ => ⟨fun | .action => ⟨rfl, rfl⟩, by rintro ⟨rfl, rfl⟩; exact .action⟩,
      hs.declare hd .action⟩
  | table hd =>
    exact ⟨_, fun _ _ => ⟨fun | .table => ⟨rfl, rfl⟩, by rintro ⟨rfl, rfl⟩; exact .table⟩,
      hs.declare hd .table⟩
  | @inst d s' hd =>
    obtain ⟨control, hb, hd⟩ := declareInstance_eq_ok hd
    obtain ⟨_, hlookup, ⟨⟩⟩ := hs.lookup_eq_some (Scope.resolve_env hb)
    refine ⟨_, fun env₁ h₁ => ⟨?_, ?_⟩, hs.declare hd .inst⟩
    · rintro (_ | _ | _ | _ | _ | h)
      cases hlookup.symm.trans h
      exact ⟨rfl, rfl⟩
    · rintro ⟨rfl, rfl⟩
      exact .inst hlookup

theorem DeclaresLocals.agree {l : List Local} (hl : DeclaresLocals ctx s l c a s' c')
    (hs : s.Models time us env) (hm : Mirrors us c.uid h σ) (hnames : s.Names names)
    (hadmits : Admits time (Local.visitsAll names i l)) :
    Agree (fun x : Environment × Heap => DeclaresAll time env h l x.1 x.2)
      (a.Finishes (.free .all) σ) (fun x τ => After time s' c'.uid us x.1 x.2 τ) := by
  induction hl generalizing us env h σ names i with
  | nil =>
    constructor
    · rintro ⟨env', h'⟩ ⟨⟩
      exact ⟨σ, rfl, us, prefix_rfl, hm, hs⟩
    · rintro τ rfl
      exact ⟨(env, h), .nil, us, prefix_rfl, hm, hs⟩
  | declare hd _ ih =>
    refine ((hd.agree hs hm).bind ?_).congr (fun _ =>
      ⟨fun | .cons hx hrest => ⟨(_, _), hx, hrest⟩, fun ⟨_, hx, hrest⟩ => .cons hx hrest⟩) fun _ => .rfl
    rintro ⟨env₁, h₁⟩ ρ ⟨us₁, hus₁, hm₁, hs₁⟩
    refine (ih hs₁ hm₁ (hd.names hnames) hadmits).imp ?_
    rintro _ _ ⟨us₂, hus₂, h₂⟩
    exact ⟨us₂, hus₁.trans hus₂, h₂⟩
  | @name s x l c s₁ b s₂ c₂ hx _ ih =>
    obtain ⟨env₁, hdeclares, hs₁⟩ := hx.models hs hm hnames hadmits
    have hrest := ih hs₁ hm (hx.names hnames) hadmits.rest
    constructor
    · rintro ⟨env', h'⟩ (_ | ⟨hx, h⟩)
      obtain ⟨rfl, rfl⟩ := (hdeclares _ _).1 hx
      exact hrest.forth (_, _) h
    · intro τ hτ
      obtain ⟨⟨env₂, h₂⟩, h, hafter⟩ := hrest.back τ hτ
      exact ⟨(env₂, h₂), .cons ((hdeclares _ _).2 ⟨rfl, rfl⟩) h, hafter⟩

end Elaborate

end Declarations

/-! ### Parameters -/

/-- A location serves a formal: it has its name, and it is copied back to the same place. -/
structure Slot.Serves (us : List Nat) (f : Elaborate.Formal) (slot : Slot) : Prop where
  name : slot.name = f.param.name
  loc : us[slot.loc]? = some f.v.uid
  back : Option.Rel (fun p q => us[q.1]? = some p.1.uid ∧ p.2 = q.2) f.copyOut slot.back

theorem Slot.Serves.mono {slot : Slot} (h : slot.Serves us f) (hus : us <+: us') :
    slot.Serves us' f where
  name := h.name
  loc := getElem?_mono hus h.loc
  back := by
    rcases rel_cases h.back with ⟨hf, hslot⟩ | ⟨p, q, hf, hslot, hk, hpath⟩
    · rw [hf, hslot]
      exact .none
    · rw [hf, hslot]
      exact .some ⟨getElem?_mono hus hk, hpath⟩

namespace Elaborate

section Parameters

variable {time : BindingTime} {us : List Nat} {n : Nat} {h : Heap} {σ : State} {home s s' : Scope}
  {env : Environment} {c c' : Counters} {a : Plan} {loc : Option Location}

def fillOp (f : Formal) (n : Nat) (loc : Option Location) : Op := f.copyIn.getD (.havoc f.v n loc)

variable {slots : List Slot}

theorem BindsFormal.agree {x : Parameter × Option Argument}
    (hf : BindsFormal ctx home caller loc uid x f) (hhome : home.Models time us homeEnv)
    (hcaller : caller.Models time us callerEnv) (hm : Mirrors us uid h σ) (n : Nat)
    (loc' : Option Location) : Agree (fun y : Slot × Heap => Passes homeEnv callerEnv h x y.1 y.2)
      ((fillOp f n loc').Step (.free .all) σ)
      (fun y τ => Mirrors (us ++ [uid]) (uid + 1) y.2 τ ∧ y.1.Serves (us ++ [uid]) f) := by
  have hloc : (us ++ [uid])[h.length]? = some uid := by
    rw [← hm.length, getElem?_concat_length]
  have hpush : ∀ (v : Variable) (d : Datum), v.uid = uid →
      Mirrors (us ++ [uid]) (uid + 1) (h ++ [d]) (σ.put v d) := by
    rintro v d rfl
    exact hm.push (Nat.le_refl _) d
  cases hf with
  | @input p e name argLoc ty value hty hin hvalue =>
    have heval := hcaller.lowerAs hm hvalue
    constructor
    · rintro ⟨slot, h'⟩ hx
      cases hx with
      | input _ he =>
        exact ⟨_, Op.step_assign_iff.2 ⟨_, heval.symm.trans he, rfl⟩, hpush _ _ rfl, rfl, hloc, .none⟩
      | inout hdir | output hdir => rw [hdir] at hin; cases hin
      | arbitrary hnot => exact absurd rfl (hnot _ _ _)
    · intro τ hτ
      obtain ⟨d, hd, rfl⟩ := Op.step_assign_iff.1 hτ
      exact ⟨(_, _), .input hin (heval.trans hd), hpush _ _ rfl, rfl, hloc, .none⟩
  | @inout p e name argLoc ty target path targetTy value hty hdir hplace hagrees hvalue =>
    have heval := hcaller.lower hm e value hvalue
    obtain ⟨k, hk, hus⟩ := hcaller.place hplace
    have hus' := getElem?_mono (prefix_append us [uid]) hus
    constructor
    · rintro ⟨slot, h'⟩ hx
      cases hx with
      | input hin => rw [hdir] at hin; cases hin
      | inout _ hk' he =>
        cases hk.symm.trans hk'
        exact ⟨_, Op.step_assign_iff.2 ⟨_, heval.symm.trans he, rfl⟩, hpush _ _ rfl, rfl, hloc,
          .some ⟨hus', rfl⟩⟩
      | output hout => cases hdir.symm.trans hout
      | arbitrary hnot => exact absurd rfl (hnot _ _ _)
    · intro τ hτ
      obtain ⟨d, hd, rfl⟩ := Op.step_assign_iff.1 hτ
      exact ⟨(_, _), .inout hdir hk (heval.trans hd), hpush _ _ rfl, rfl, hloc, .some ⟨hus', rfl⟩⟩
  | @output p e name argLoc ty target path targetTy hty hdir hplace hagrees =>
    have htype := hhome.resolveType hty
    obtain ⟨k, hk, hus⟩ := hcaller.place hplace
    have hus' := getElem?_mono (prefix_append us [uid]) hus
    constructor
    · rintro ⟨slot, h'⟩ hx
      cases hx with
      | input hin => rw [hdir] at hin; cases hin
      | inout hinout => cases hdir.symm.trans hinout
      | output _ hk' hty' hd =>
        cases hk.symm.trans hk'
        cases htype.symm.trans hty'
        exact ⟨_, Op.step_havoc_iff.2 ⟨_, hd, rfl⟩, hpush _ _ rfl, rfl, hloc, .some ⟨hus', rfl⟩⟩
      | arbitrary hnot => exact absurd rfl (hnot _ _ _)
    · intro τ hτ
      obtain ⟨d, hd, rfl⟩ := Op.step_havoc_iff.1 hτ
      exact ⟨(_, _), .output hdir hk htype hd, hpush _ _ rfl, rfl, hloc, .some ⟨hus', rfl⟩⟩
  | @arbitrary p arg ty hty hnot =>
    have htype := hhome.resolveType hty
    constructor
    · rintro ⟨slot, h'⟩ hx
      cases hx with
      | input | inout | output => exact absurd rfl (hnot _ _ _)
      | arbitrary _ hty' hd =>
        cases htype.symm.trans hty'
        exact ⟨_, Op.step_havoc_iff.2 ⟨_, hd, rfl⟩, hpush _ _ rfl, rfl, hloc, .none⟩
    · intro τ hτ
      obtain ⟨d, hd, rfl⟩ := Op.step_havoc_iff.1 hτ
      exact ⟨(_, _), .arbitrary hnot htype hd, hpush _ _ rfl, rfl, hloc, .none⟩

theorem FillsFormals.cons (hfill : FillsFormals loc s (f :: formals) n a s' n') :
    ∃ loc' n₁ s₁ rest, a = .seq (.op (fillOp f n loc')) rest ∧
      FillsFormals loc s₁ formals n₁ rest s' n' := by
  cases hfill with
  | copy hcopy _ hrest => exact ⟨none, _, _, _, by rw [fillOp, hcopy]; rfl, hrest⟩
  | arbitrary hcopy _ hrest => exact ⟨_, _, _, _, by rw [fillOp, hcopy]; rfl, hrest⟩

theorem BindsFormals.agree (hbind : BindsFormals ctx home caller loc uid bound formals)
    (hfill : FillsFormals loc s formals n a s' n') (hhome : home.Models time us homeEnv)
    (hcaller : caller.Models time us callerEnv) (hm : Mirrors us uid h σ) :
    Agree (fun y : List Slot × Heap => PassesAll homeEnv callerEnv h bound y.1 y.2)
      (a.Finishes (.free .all) σ)
      (fun y τ => ∃ us', us <+: us' ∧ Mirrors us' (uid + formals.length) y.2 τ ∧
        Forall₂ (fun slot f => slot.Serves us' f) y.1 formals) := by
  induction hbind generalizing us h σ s n a with
  | nil =>
    cases hfill
    constructor
    · rintro ⟨slots, h'⟩ ⟨⟩
      exact ⟨σ, rfl, us, prefix_rfl, hm, .nil⟩
    · rintro τ rfl
      exact ⟨([], h), .nil, us, prefix_rfl, hm, .nil⟩
  | @cons uid x bound f formals hf _ ih =>
    obtain ⟨loc', n₁, s₁, rest, rfl, hrest⟩ := hfill.cons
    have hfirst := hf.agree hhome hcaller hm n loc'
    have hus := prefix_append us [uid]
    have hlen : uid + 1 + formals.length = uid + (f :: formals).length := by
      rw [length_cons]
      omega
    constructor
    · rintro ⟨slots, h'⟩ (_ | ⟨hx, hxs⟩)
      obtain ⟨ρ, hρ, hm₁, hslot⟩ := hfirst.forth (_, _) hx
      obtain ⟨τ, hτ, us', hus', hm', hslots⟩ :=
        (ih hrest (hhome.mono hus) (hcaller.mono hus) hm₁).forth (_, _) hxs
      exact ⟨τ, ⟨ρ, hρ, hτ⟩, us', hus.trans hus', hlen ▸ hm', .cons (hslot.mono hus') hslots⟩
    · rintro τ ⟨ρ, hρ, hτ⟩
      obtain ⟨⟨slot, h₁⟩, hx, hm₁, hslot⟩ := hfirst.back ρ hρ
      obtain ⟨⟨slots, h₂⟩, hxs, us', hus', hm', hslots⟩ :=
        (ih hrest (hhome.mono hus) (hcaller.mono hus) hm₁).back τ hτ
      exact ⟨(slot :: slots, h₂), .cons hx hxs, us', hus.trans hus', hlen ▸ hm',
        .cons (hslot.mono hus') hslots⟩

/-- The names of a body: its parameters, and those of the scope that declares it. -/
theorem FillsFormals.models (hfill : FillsFormals loc (home.enter kind name) formals n a s' n')
    (hhome : home.Models time us homeEnv)
    (hslots : Forall₂ (fun slot f => slot.Serves us f) slots formals) :
    s'.Models time us (slotFrame slots :: homeEnv) := by
  rw [Scope.Models, hfill.env (home.env_enter kind name)]
  refine .cons ?_ hhome
  rw [slotFrame, nil_append, forall₂_map_left_iff, forall₂_map_right_iff]
  exact hslots.flip.imp fun f slot hslot => ⟨hslot.name.symm, .var hslot.loc⟩

theorem FillsFormals.nodup (hfill : FillsFormals loc s formals n a s' n') :
    (formals.map fun f => f.param.name).Nodup ∧
      ∀ f ∈ formals, s.inner.lookup f.param.name = none := by
  have hdeclare : ∀ {s s₁ : Scope} {f : Formal} {b : Binding} {l : Option Location}
      {formals : List Formal}, s.declare f.param.name b l = .ok s₁ →
      ((formals.map fun f => f.param.name).Nodup ∧
        ∀ g ∈ formals, s₁.inner.lookup g.param.name = none) →
      (((f :: formals).map fun f => f.param.name).Nodup ∧
        ∀ g ∈ f :: formals, s.inner.lookup g.param.name = none) := by
    intro s s₁ f b l formals hs hrest
    obtain ⟨inner, hinner, rfl⟩ := map_eq_ok.1 hs
    rw [Frame.declare] at hinner
    split at hinner
    · cases hinner
    · rename_i hnone
      cases hinner
      have hnew : ∀ g ∈ formals, g.param.name ≠ f.param.name ∧ s.inner.lookup g.param.name = none := by
        intro g hg
        have hlookup := hrest.2 g hg
        rw [Frame.lookup, lookup_append, Option.or_eq_none_iff] at hlookup
        refine ⟨fun heq => ?_, hlookup.1⟩
        simp [heq] at hlookup
      refine ⟨nodup_cons.2 ⟨fun hmem => ?_, hrest.1⟩,
        forall_mem_cons.2 ⟨hnone, fun g hg => (hnew g hg).2⟩⟩
      obtain ⟨g, hg, heq⟩ := mem_map.1 hmem
      exact (hnew g hg).1 heq
  induction hfill with
  | nil => exact ⟨nodup_nil, by simp⟩
  | copy _ hs _ ih | arbitrary _ hs _ ih => exact hdeclare hs ih

theorem bound_eq_pairs (hbound : bindArguments params args callee loc unbound = .ok bound)
    (hbind : BindsFormals ctx home caller loc uid bound formals)
    (hfill : FillsFormals loc (home.enter kind name) formals n a s' n') :
    bound = pairArguments params args := by
  refine bound_eq_pairArguments ?_ hbound
  have hparams : formals.map Formal.param = params :=
    hbind.params.trans (bindArguments_params hbound)
  rw [← hparams, map_map]
  exact hfill.nodup.1

theorem agree_backPlan (hslots : Forall₂ (fun slot f => slot.Serves us f) slots formals)
    (hm : Mirrors us n h σ) :
    Agree (fun h' => storeBack slots h = some h') ((backPlan loc formals).Finishes (.free .all) σ)
      (Mirrors us n) := by
  induction hslots generalizing h σ with
  | nil =>
    constructor
    · rintro h' ⟨⟩
      exact ⟨σ, rfl, hm⟩
    · rintro τ rfl
      exact ⟨h, rfl, hm⟩
  | @cons slot f slots formals hslot _ ih =>
    rw [backPlan]
    rcases rel_cases hslot.back with ⟨hf, hback⟩ | ⟨⟨v, path⟩, ⟨k, path'⟩, hf, hback, hk, rfl⟩
    · simp only [storeBack, hback, hf]
      exact ih hm
    · simp only [storeBack, hback, hf, Plan.Finishes, Option.bind_eq_bind]
      have hvalue := hm.get? hslot.loc
      constructor
      · intro h' hh'
        obtain ⟨d, hd, hh'⟩ := Option.bind_eq_some_iff.1 hh'
        obtain ⟨h₁, hh₁, hh'⟩ := Option.bind_eq_some_iff.1 hh'
        rcases rel_cases (hm.assign hk path d) with ⟨hnone, -⟩ | ⟨h₁', ρ, heq, hρ, hm₁⟩
        · cases hh₁.symm.trans hnone
        · cases hh₁.symm.trans heq
          obtain ⟨τ, hτ, hm'⟩ := (ih hm₁).forth h' hh'
          exact ⟨τ, ⟨ρ, .assign (hvalue.symm.trans hd) hρ, hτ⟩, hm'⟩
      · rintro τ ⟨ρ, hstep, hτ⟩
        cases hstep with
        | @assign _ _ _ _ _ _ d hd hρ =>
          rcases rel_cases (hm.assign hk path d) with ⟨-, hnone⟩ | ⟨h₁, ρ', hh₁, heq, hm₁⟩
          · cases hρ.symm.trans hnone
          · cases hρ.symm.trans heq
            obtain ⟨h', hh', hm'⟩ := (ih hm₁).back τ hτ
            refine ⟨h', ?_, hm'⟩
            rw [hvalue.trans hd, Option.bind_some, hh₁, Option.bind_some, hh']

theorem resolveType_slotFrame {t : TypeRef}
    (ht : Env.resolveType (slotFrame slots :: env) t = some ty) : env.resolveType t = some ty := by
  cases t with
  | bool | string | other => exact ht
  | named x loc =>
    have hframe : ∀ m, (slotFrame slots).lookup x = some m → ∃ k, m = .var k := by
      intro m hmem
      obtain ⟨slot, -, heq⟩ := mem_map.1 (Assoc.mem_of_lookup hmem)
      cases heq
      exact ⟨_, rfl⟩
    rw [Env.resolveType, Env.lookup, Env.find?] at ht
    cases hx : (slotFrame slots).lookup x with
    | some m =>
      obtain ⟨k, rfl⟩ := hframe m hx
      rw [hx] at ht
      cases ht
    | none =>
      rw [hx] at ht
      exact ht

theorem BindsInputs.agree {l : List Parameter} (hl : BindsInputs s l c a s' c')
    (slots : List Slot) (hs : s.Models time us (slotFrame slots :: env))
    (hm : Mirrors us c.uid h σ) : Agree
      (fun y : List Slot × Heap => PassesAll env env h (l.map fun p => (p, none)) y.1 y.2)
      (a.Finishes (.free .all) σ)
      (fun y τ => After time s' c'.uid us (slotFrame (slots ++ y.1) :: env) y.2 τ) := by
  induction hl generalizing us h σ slots with
  | nil =>
    constructor
    · rintro ⟨slots', h'⟩ ⟨⟩
      exact ⟨σ, rfl, us, prefix_rfl, hm, by rwa [append_nil]⟩
    · rintro τ rfl
      exact ⟨([], h), .nil, us, prefix_rfl, hm, by rwa [append_nil]⟩
  | @cons s p ty l c s₁ a s₂ c₂ hty hdeclare _ ih =>
    have htype : env.resolveType p.type = some ty := resolveType_slotFrame (hs.resolveType hty)
    have hslots : ∀ rest : List Slot, slots ++ [⟨p.name, h.length, none⟩] ++ rest =
        slots ++ ⟨p.name, h.length, none⟩ :: rest := fun rest => by simp
    have hnext : ∀ d, After time s₁ (c.uid + 1) us
        (slotFrame (slots ++ [⟨p.name, h.length, none⟩]) :: env) (h ++ [d])
        (σ.put (formalVariable "" c.uid p ty) d) := by
      intro d
      rw [slotFrame, map_append]
      exact After.variable hs hm (v := formalVariable "" c.uid p ty) (Nat.le_refl _) hdeclare d
    constructor
    · rintro ⟨slots', h'⟩ (_ | ⟨hx, hxs⟩)
      cases hx with
      | arbitrary _ hty' hd =>
        cases htype.symm.trans hty'
        obtain ⟨us₁, hus₁, hm₁, hs₁⟩ := hnext _
        obtain ⟨τ, hτ, us₂, hus₂, hm₂, hs₂⟩ := (ih _ hs₁ hm₁).forth (_, _) hxs
        exact ⟨τ, ⟨_, Op.step_havoc_iff.2 ⟨_, hd, rfl⟩, hτ⟩, us₂, hus₁.trans hus₂, hm₂,
          hslots _ ▸ hs₂⟩
    · rintro τ ⟨ρ, hρ, hτ⟩
      obtain ⟨d, hd, rfl⟩ := Op.step_havoc_iff.1 hρ
      obtain ⟨us₁, hus₁, hm₁, hs₁⟩ := hnext d
      obtain ⟨⟨slots', h'⟩, hxs, us₂, hus₂, hm₂, hs₂⟩ := (ih _ hs₁ hm₁).back τ hτ
      refine ⟨(⟨p.name, h.length, none⟩ :: slots', h'), .cons (.arbitrary ?_ htype hd) hxs, us₂,
        hus₁.trans hus₂, hm₂, hslots _ ▸ hs₂⟩
      rintro e name loc ⟨⟩

end Parameters

end Elaborate

end ControlReach
