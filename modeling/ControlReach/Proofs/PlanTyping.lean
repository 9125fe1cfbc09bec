import ControlReach.Proofs.Naming
import ControlReach.Proofs.TypedScope

/-!
# Well-typed plans

What is elaborated in a well-typed scope is a well-typed plan, and whatever it reads has been given
a value before.
-/

namespace ControlReach

open List

/-! ### Plans -/

def Op.stores : Op → List Variable
  | .assign v _ _ _ | .havoc v _ _ => [v]
  | .assume _ _ => []

/-- An operation that reads only defined variables. Storing at a field reads the variable. -/
def Op.Fits (known defined : List Variable) : Op → Prop
  | .assign v path e _ => v ∈ known ∧ (path ≠ [] → v ∈ defined) ∧
      ∃ ty, v.ty.bare.at? path = some ty ∧ e.Fits defined ty
  | .havoc v _ _ => v ∈ known
  | .assume e _ => e.Fits defined .bool

variable {v : Variable} {op : Op}

theorem Op.Fits.mono (hsub : known ⊆ known') (h : op.Fits known defined) :
    op.Fits known' defined := by
  cases op with
  | assign => exact ⟨hsub h.1, h.2⟩
  | havoc => exact hsub h
  | assume => exact h

theorem Op.mem_stores : x ∈ op.stores ↔ op.target? = some x := by
  cases op <;> simp [stores, target?, eq_comm]

theorem Op.Fits.stores_subset (h : op.Fits known defined) : op.stores ⊆ known := by
  cases op with
  | assign => simpa [stores] using h.1
  | havoc =>
    have hv : _ ∈ known := h
    simpa [stores] using hv
  | assume => simp [stores]

def Target.Fits (defined : List Variable) (t : Target) : Prop := ∀ q ∈ t.observed, q.2 ∈ defined

/-- The variables that get a value in the plan. What is declared in a branch is not visible behind
it. -/
def Plan.defines : Plan → List Variable
  | .op o => o.stores
  | .seq a b => a.defines ++ b.defines
  | .skip | .ifThen _ _ | .ifElse _ _ _ | .choose _ _ _ | .bug _ | .assert _ _ => []

mutual

def Plan.Fits (known : List Variable) : List Variable → Plan → Prop
  | _, .skip => True
  | defined, .op o => o.Fits known defined
  | defined, .seq a b => a.Fits known defined ∧ b.Fits known (defined ++ a.defines)
  | defined, .ifThen condition yes => condition.Fits defined .bool ∧ yes.Fits known defined
  | defined, .ifElse condition yes no =>
    condition.Fits defined .bool ∧ yes.Fits known defined ∧ no.Fits known defined
  | defined, .choose _ _ arms => arms.Fits known defined
  | defined, .bug t => t.Fits defined
  | defined, .assert t condition => t.Fits defined ∧ condition.Fits defined .bool

def Arms.Fits (known : List Variable) : List Variable → Arms → Prop
  | _, .nil => True
  | defined, .cons _ _ body rest => body.Fits known defined ∧ rest.Fits known defined

end

mutual

theorem Plan.Fits.mono (hsub : known ⊆ known') :
    ∀ {a : Plan} {defined : List Variable}, a.Fits known defined → a.Fits known' defined
  | .skip, _, _ => trivial
  | .op _, _, h => Op.Fits.mono hsub h
  | .seq _ _, _, h => ⟨Plan.Fits.mono hsub h.1, Plan.Fits.mono hsub h.2⟩
  | .ifThen _ _, _, h => ⟨h.1, Plan.Fits.mono hsub h.2⟩
  | .ifElse _ _ _, _, h => ⟨h.1, Plan.Fits.mono hsub h.2.1, Plan.Fits.mono hsub h.2.2⟩
  | .choose _ _ _, _, h => Arms.Fits.mono hsub h
  | .bug _, _, h | .assert _ _, _, h => h

theorem Arms.Fits.mono (hsub : known ⊆ known') :
    ∀ {a : Arms} {defined : List Variable}, a.Fits known defined → a.Fits known' defined
  | .nil, _, _ => trivial
  | .cons _ _ _ _, _, h => ⟨Plan.Fits.mono hsub h.1, Arms.Fits.mono hsub h.2⟩

end

theorem Plan.Fits.defines_subset :
    ∀ {a : Plan} {defined : List Variable}, a.Fits known defined → a.defines ⊆ known
  | .op _, _, h => Op.Fits.stores_subset h
  | .seq _ _, _, h => append_subset.2 ⟨h.1.defines_subset, h.2.defines_subset⟩
  | .skip, _, _ | .ifThen _ _, _, _ | .ifElse _ _ _, _, _ | .choose _ _ _, _, _ | .bug _, _, _
  | .assert _ _, _, _ => nil_subset _

mutual

theorem Plan.Fits.stores_subset :
    ∀ {a : Plan} {defined : List Variable}, a.Fits known defined → ∀ op ∈ a.ops, op.stores ⊆ known
  | .skip, _, _ | .bug _, _, _ | .assert _ _, _, _ => nofun
  | .op _, _, h => forall_mem_singleton.2 (Op.Fits.stores_subset h)
  | .seq _ _, _, h =>
    forall_mem_append.2 ⟨Plan.Fits.stores_subset h.1, Plan.Fits.stores_subset h.2⟩
  | .ifThen _ yes, _, h => Plan.Fits.stores_subset (a := yes) h.2
  | .ifElse _ _ _, _, h =>
    forall_mem_append.2 ⟨Plan.Fits.stores_subset h.2.1, Plan.Fits.stores_subset h.2.2⟩
  | .choose _ _ arms, _, h => Arms.Fits.stores_subset (a := arms) h

theorem Arms.Fits.stores_subset :
    ∀ {a : Arms} {defined : List Variable}, a.Fits known defined → ∀ op ∈ a.ops, op.stores ⊆ known
  | .nil, _, _ => nofun
  | .cons _ _ _ _, _, h =>
    forall_mem_append.2 ⟨Plan.Fits.stores_subset h.1, Arms.Fits.stores_subset h.2⟩

end

/-! ### Elaboration -/

/-- The variables made so far, by number, with proper types. -/
structure Made (structs : String → Ty) (known : List Variable) (n : Nat) : Prop where
  uid : known.map Variable.uid = List.range n
  proper : ∀ v ∈ known, v.ty.Proper structs

namespace Made

theorem nil (structs : String → Ty) : Made structs [] 0 := ⟨rfl, by simp⟩

variable (h : Made structs known n)

include h

theorem add (huid : v.uid = n) (hv : v.ty.Proper structs) :
    Made structs (known ++ [v]) (n + 1) where
  uid := by rw [map_append, h.uid, range_succ, ← huid]; rfl
  proper := forall_mem_append.2 ⟨h.proper, by simpa using hv⟩

theorem getElem? (hv : v ∈ known) : known[v.uid]? = some v := by
  obtain ⟨i, hi⟩ := mem_iff_getElem?.1 hv
  have huid : (known.map Variable.uid)[i]? = some v.uid := by rw [getElem?_map, hi]; rfl
  rw [h.uid] at huid
  obtain ⟨hn, heq⟩ := List.getElem?_eq_some_iff.1 huid
  rw [getElem_range] at heq
  rwa [← heq]

theorem eq_of_uid (hv : v ∈ known) (hw : w ∈ known) (huid : v.uid = w.uid) : v = w :=
  Option.some.inj ((h.getElem? hv).symm.trans ((congrArg (known[·]?) huid).trans (h.getElem? hw)))

end Made

namespace Elaborate

variable {structs : String → Ty} {known defined : List Variable} {s : Scope} {loc : Option Location}

theorem fits_declareVariable (hs : s.Fits structs defined) (hv : v ∈ defined)
    (hproper : v.ty.Proper structs) (h : s.declare x (.variable v) loc = .ok s') :
    s'.Fits structs defined := by
  exact hs.declare (by exact ⟨hv, hproper⟩) h

variable {f : Formal} {guard : Rvalue}

variable {a : Plan} {home : Scope}

theorem DeclaresVariable.fits (h : DeclaresVariable ctx s d c a s' c')
    (hknown : Made structs known c.uid) (hs : s.Fits structs defined) :
    ∃ known', known ⊆ known' ∧ Made structs known' c'.uid ∧
      s'.Fits structs (defined ++ a.defines) ∧ a.Fits known' defined := by
  have hleft := subset_append_left defined
  cases h with
  | initial hty _ hvalue hdeclare =>
    have hproper := hs.resolveType hty
    refine ⟨_, subset_append_left known [localVariable ctx c.uid d _], hknown.add rfl hproper,
      fits_declareVariable (hs.mono (hleft _)) (mem_append_right _ mem_cons_self) hproper hdeclare,
      by simp, by simp, _, ?_, hs.lowerAs hproper hvalue⟩
    exact Ty.at?_nil _
  | arbitrary hty _ hdeclare =>
    have hproper := hs.resolveType hty
    exact ⟨_, subset_append_left known [localVariable ctx c.uid d _], hknown.add rfl hproper,
      fits_declareVariable (hs.mono (hleft _)) (mem_append_right _ mem_cons_self) hproper hdeclare,
      mem_append_right _ mem_cons_self⟩

theorem DeclaresConstant.fits (h : DeclaresConstant s d s') (hs : s.Fits structs defined) :
    s'.Fits structs defined := by
  cases h with
  | mk hty hvalue hdeclare =>
    refine hs.declare ?_ hdeclare
    rintro ty e ⟨⟩
    have hproper := hs.resolveType hty
    exact ⟨hproper, hs.lowerAs hproper hvalue⟩

theorem DeclaresName.fits (h : DeclaresName s x s') (hs : s.Fits structs defined) :
    s'.Fits structs defined := by
  cases h with
  | constant hd => exact hd.fits hs
  | action hdeclare | table hdeclare _ => exact hs.declare (by trivial) hdeclare
  | inst hdeclare =>
    obtain ⟨_, -, h⟩ := declareInstance_eq_ok hdeclare
    exact hs.declare (by trivial) h

theorem DeclaresLocals.fits (h : DeclaresLocals ctx s l c a s' c')
    (hknown : Made structs known c.uid) (hs : s.Fits structs defined) :
    ∃ known', known ⊆ known' ∧ Made structs known' c'.uid ∧
      s'.Fits structs (defined ++ a.defines) ∧ a.Fits known' defined := by
  induction h generalizing known defined with
  | nil => exact ⟨known, Subset.refl _, hknown, by simpa [Plan.defines] using hs, trivial⟩
  | declare hd _ ih =>
    obtain ⟨known₁, hsub₁, hknown₁, hs₁, ha⟩ := hd.fits hknown hs
    obtain ⟨known₂, hsub₂, hknown₂, hs₂, hb⟩ := ih hknown₁ hs₁
    refine ⟨known₂, Subset.trans hsub₁ hsub₂, hknown₂, ?_, ha.mono hsub₂, hb⟩
    rwa [Plan.defines, ← append_assoc]
  | name hx _ ih => exact ih hknown (hx.fits hs)

/-! ### Parameters -/

/-- A formal: its variable, the value copied into it and the place copied back to fit its type. -/
structure Formal.Fits (structs : String → Ty) (known defined : List Variable) (f : Formal) :
    Prop where
  v : f.v ∈ known
  proper : f.v.ty.Proper structs
  copyIn : ∀ op, f.copyIn = some op → ∃ e loc, op = .assign f.v [] e loc ∧ e.Fits defined f.v.ty.bare
  copyOut : ∀ v path, f.copyOut = some (v, path) →
    v ∈ defined ∧ v.ty.bare.at? path = some f.v.ty.bare

theorem Formal.Fits.mono (hsub : known ⊆ known') (hsub' : defined ⊆ defined')
    (h : f.Fits structs known defined) : f.Fits structs known' defined' := by
  refine ⟨hsub h.v, h.proper, fun op hop => ?_, fun v path hout => ?_⟩
  · obtain ⟨e, loc, rfl, he⟩ := h.copyIn op hop
    exact ⟨e, loc, rfl, he.mono hsub'⟩
  · obtain ⟨hv, hat⟩ := h.copyOut v path hout
    exact ⟨hsub' hv, hat⟩

theorem BindsFormal.fits (h : BindsFormal ctx home caller loc uid q f)
    (hknown : Made structs known uid) (hhome : home.Fits structs defined)
    (hcaller : caller.Fits structs defined) :
    Made structs (known ++ [f.v]) (uid + 1) ∧ f.Fits structs (known ++ [f.v]) defined := by
  have hmem : f.v ∈ known ++ [f.v] := mem_append_right _ mem_cons_self
  cases h with
  | input hty _ hvalue =>
    have hproper := hhome.resolveType hty
    refine ⟨hknown.add rfl hproper, hmem, hproper, ?_, nofun⟩
    rintro op ⟨⟩
    exact ⟨_, _, rfl, hcaller.lowerAs hproper hvalue⟩
  | @inout p e name argLoc ty target path targetTy value hty _ hplace hagrees hvalue =>
    have hproper := hhome.resolveType hty
    have hfits := hcaller.place hplace
    have hsame := Ty.bare_eq_of_agrees hproper hfits.proper hagrees
    obtain ⟨-, -, -, -, -, htype⟩ := Scope.place_eq_ok hplace
    refine ⟨hknown.add rfl hproper, hmem, hproper, ?_, ?_⟩
    · rintro op ⟨⟩
      refine ⟨_, _, rfl, ?_⟩
      show value.Fits defined ty.bare
      rw [hsame]
      exact (hcaller.typeOf e none targetTy (by simp) htype).2 value hvalue
    · rintro v path ⟨⟩
      exact ⟨hfits.defined, hfits.inner.trans (congrArg some hsame.symm)⟩
  | output hty _ hplace hagrees =>
    have hproper := hhome.resolveType hty
    have hfits := hcaller.place hplace
    have hsame := Ty.bare_eq_of_agrees hproper hfits.proper hagrees
    refine ⟨hknown.add rfl hproper, hmem, hproper, nofun, ?_⟩
    rintro v path ⟨⟩
    exact ⟨hfits.defined, hfits.inner.trans (congrArg some hsame.symm)⟩
  | arbitrary hty _ =>
    have hproper := hhome.resolveType hty
    exact ⟨hknown.add rfl hproper, hmem, hproper, nofun, nofun⟩

theorem BindsFormals.fits (h : BindsFormals ctx home caller loc uid bound formals)
    (hknown : Made structs known uid) (hhome : home.Fits structs defined)
    (hcaller : caller.Fits structs defined) :
    ∃ known', known ⊆ known' ∧ Made structs known' (uid + formals.length) ∧
      ∀ f ∈ formals, f.Fits structs known' defined := by
  induction h generalizing known with
  | nil => exact ⟨known, Subset.refl _, hknown, by simp⟩
  | @cons uid x bound f formals hf _ ih =>
    obtain ⟨hknown₁, hf⟩ := hf.fits hknown hhome hcaller
    have hsub := subset_append_left known [f.v]
    obtain ⟨known', hsub', hknown', hall⟩ := ih hknown₁
    refine ⟨known', Subset.trans hsub hsub', ?_,
      forall_mem_cons.2 ⟨hf.mono hsub' (Subset.refl _), hall⟩⟩
    rw [length_cons, Nat.add_comm formals.length, ← Nat.add_assoc]
    exact hknown'

theorem FillsFormals.fits (h : FillsFormals loc s formals n a s' n') (hs : s.Fits structs defined)
    (hf : ∀ f ∈ formals, f.Fits structs known defined) :
    s'.Fits structs (defined ++ a.defines) ∧ a.Fits known defined ∧
      ∀ f ∈ formals, f.v ∈ defined ++ a.defines := by
  induction h generalizing defined with
  | nil => exact ⟨by simpa [Plan.defines] using hs, trivial, by simp⟩
  | @copy s f op formals s₁ n a s₂ n₂ hcopy hdeclare _ ih =>
    obtain ⟨hhere, hf⟩ := forall_mem_cons.1 hf
    obtain ⟨e, loc, rfl, he⟩ := hhere.copyIn op hcopy
    have hsub := subset_append_left defined [f.v]
    have hmem : f.v ∈ defined ++ [f.v] := mem_append_right _ mem_cons_self
    obtain ⟨hs', ha, hall⟩ := ih (fits_declareVariable (hs.mono hsub) hmem hhere.proper hdeclare)
      fun f hf' => (hf f hf').mono (Subset.refl _) hsub
    rw [append_assoc] at hs' hall
    refine ⟨hs', ⟨⟨hhere.v, by simp, _, ?_, he⟩, ha⟩, forall_mem_cons.2 ⟨?_, hall⟩⟩
    · exact Ty.at?_nil _
    · simp [Plan.defines, Op.stores]
  | @arbitrary s f formals s₁ n a s₂ n₂ hnone hdeclare _ ih =>
    obtain ⟨hhere, hf⟩ := forall_mem_cons.1 hf
    have hsub := subset_append_left defined [f.v]
    have hmem : f.v ∈ defined ++ [f.v] := mem_append_right _ mem_cons_self
    obtain ⟨hs', ha, hall⟩ := ih (fits_declareVariable (hs.mono hsub) hmem hhere.proper hdeclare)
      fun f hf' => (hf f hf').mono (Subset.refl _) hsub
    rw [append_assoc] at hs' hall
    refine ⟨hs', ⟨hhere.v, ha⟩, forall_mem_cons.2 ⟨?_, hall⟩⟩
    simp [Plan.defines, Op.stores]

theorem fits_backPlan (hdefined : defined ⊆ known)
    (hf : ∀ f ∈ formals, f.Fits structs known defined) (hv : ∀ f ∈ formals, f.v ∈ defined) :
    (backPlan loc formals).Fits known defined := by
  induction formals generalizing defined with
  | nil => trivial
  | cons f formals ih =>
    obtain ⟨hhere, hf⟩ := forall_mem_cons.1 hf
    obtain ⟨hvhere, hv⟩ := forall_mem_cons.1 hv
    rw [backPlan]
    split
    · rename_i v path hout
      obtain ⟨hmem, hat⟩ := hhere.copyOut v path hout
      have hsub := subset_append_left defined [v]
      refine ⟨⟨hdefined hmem, fun _ => hmem, _, hat, hvhere, rfl⟩, ih ?_ ?_ ?_⟩
      · exact append_subset.2 ⟨hdefined, by simpa [Plan.defines, Op.stores] using hdefined hmem⟩
      · exact fun f hf' => (hf f hf').mono (Subset.refl _) hsub
      · exact fun f hf' => hsub (hv f hf')
    · exact ih hdefined hf hv

/-! ### Statements and calls -/

def Output.defines : Output → List Variable
  | .plan a => a.defines
  | .arms _ => []

def Output.Fits (known defined : List Variable) : Output → Prop
  | .plan a => a.Fits known defined
  | .arms a => a.Fits known defined

def Job.Fits (structs : String → Ty) (defined : List Variable) : Job → Prop
  | .statements _ s _ | .statement _ s _ _ => s.Fits structs defined
  | .action _ a _ caller _ _ => a.home.Fits structs defined ∧ caller.Fits structs defined
  | .control _ _ _ caller _ => caller.Fits structs defined
  | .arms _ _ home _ _ => home.Fits structs defined

section

variable (hs : s.Fits structs defined)

include hs

theorem fits_condition (h : s.typeOf none e = .ok .bool ∧ s.lower e = .ok guard) :
    guard.Fits defined .bool :=
  (hs.typeOf e none _ (by simp) h.1).2 guard h.2

theorem fits_errorLocation (ctx : Context) (index : Nat)
    (kind : AssertionKind) (condition : Option Expr) :
    (errorLocation ctx s index kind condition loc).Fits defined :=
  fun _ hq => (Scope.Each.visible hs hq).1

end

theorem Elaborates.fits (h : Elaborates depth job c out c') (hknown : Made structs known c.uid)
    (hdefined : defined ⊆ known) (hjob : job.Fits structs defined) : ∃ known', known ⊆ known' ∧ Made
    structs known' c'.uid ∧ job.After (Scope.Fits structs (defined ++ out.defines)) ∧ out.Fits
    known' defined := by
  have hleft : ∀ more, defined ⊆ defined ++ more := subset_append_left defined
  induction h generalizing known defined with
  | nil => exact ⟨known, Subset.refl _, hknown, trivial, trivial⟩
  | cons _ _ ih₁ ih₂ =>
    obtain ⟨known₁, hsub₁, hknown₁, hs₁, ha⟩ := ih₁ hknown hdefined hjob hleft
    have hdefined₁ := append_subset.2
      ⟨Subset.trans hdefined hsub₁, Plan.Fits.defines_subset ha⟩
    obtain ⟨known₂, hsub₂, hknown₂, -, hb⟩ :=
      ih₂ hknown₁ hdefined₁ hs₁ (subset_append_left _)
    exact ⟨known₂, Subset.trans hsub₁ hsub₂, hknown₂, trivial, Plan.Fits.mono hsub₂ ha, hb⟩
  | block _ ih =>
    obtain ⟨known', hsub, hknown', -, ha⟩ := ih hknown hdefined (hjob.enter .block "") hleft
    exact ⟨known', hsub, hknown', hjob.mono (hleft _), ha⟩
  | ifThen hguard _ ih =>
    obtain ⟨known', hsub, hknown', -, ha⟩ := ih hknown hdefined (hjob.enter .block "") hleft
    exact ⟨known', hsub, hknown', hjob.mono (hleft _), fits_condition hjob
      (branchCondition_eq_ok hguard), ha⟩
  | ifElse hguard _ _ ih₁ ih₂ =>
    have henter := hjob.enter .block ""
    obtain ⟨known₁, hsub₁, hknown₁, -, ha⟩ := ih₁ hknown hdefined henter hleft
    obtain ⟨known₂, hsub₂, hknown₂, -, hb⟩ :=
      ih₂ hknown₁ (Subset.trans hdefined hsub₁) henter hleft
    exact ⟨known₂, Subset.trans hsub₁ hsub₂, hknown₂, hjob.mono (hleft _), fits_condition hjob
      (branchCondition_eq_ok hguard),
      Plan.Fits.mono hsub₂ ha, hb⟩
  | assign hplace hvalue =>
    have hfits := Scope.Fits.place hjob hplace
    exact ⟨known, Subset.refl _, hknown, hjob.mono (hleft _), hdefined hfits.defined, fun _ =>
      hfits.defined,
      _, hfits.inner, Scope.Fits.lowerAs hjob hfits.proper hvalue⟩
  | declare hd =>
    exact hd.fits hknown hjob
  | constant hd =>
    exact ⟨known, Subset.refl _, hknown, (hd.fits hjob).mono (hleft _), trivial⟩
  | bug =>
    exact ⟨known, Subset.refl _, hknown, hjob.mono (hleft _), fits_errorLocation hjob _ _ _ _⟩
  | assert _ _ hguard =>
    exact ⟨known, Subset.refl _, hknown, hjob.mono (hleft _), fits_errorLocation hjob _ _ _ _,
      fits_condition hjob (assertionGuard_eq_ok hguard)⟩
  | assume _ _ hguard =>
    exact ⟨known, Subset.refl _, hknown, hjob.mono (hleft _), fits_condition hjob
      (assertionGuard_eq_ok hguard)⟩
  | callAction _ _ hfind _ ih =>
    obtain ⟨known', hsub, hknown', -, ha⟩ :=
      ih hknown hdefined ⟨Scope.Fits.home hjob hfind, hjob⟩ hleft
    exact ⟨known', hsub, hknown', hjob.mono (hleft _), ha⟩
  | callTable _ _ hfind _ ih =>
    obtain ⟨known', hsub, hknown', -, ha⟩ :=
      ih hknown hdefined (Scope.Fits.home hjob hfind) hleft
    exact ⟨known', hsub, hknown', hjob.mono (hleft _), ha⟩
  | callControl _ _ _ _ ih =>
    obtain ⟨known', hsub, hknown', -, ha⟩ := ih hknown hdefined hjob hleft
    exact ⟨known', hsub, hknown', hjob.mono (hleft _), ha⟩
  | @action _ _ _ _ _ _ _ _ _ _ formals _ fill callee _ body _ _ _ hbind hfill _ ih =>
    obtain ⟨hhome, hcaller⟩ := hjob
    obtain ⟨known₁, hsub₁, hknown₁, hformals⟩ := hbind.fits hknown hhome hcaller
    obtain ⟨hcallee, hfill, hv⟩ := hfill.fits (hhome.enter .action _) hformals
    have hdefined₁ := append_subset.2 ⟨Subset.trans hdefined hsub₁, hfill.defines_subset⟩
    obtain ⟨known₂, hsub₂, hknown₂, -, hbody⟩ :=
      ih hknown₁ hdefined₁ (hcallee.enter .block "") (subset_append_left _)
    refine ⟨known₂, Subset.trans hsub₁ hsub₂, hknown₂, trivial, hfill.mono hsub₂, hbody, ?_⟩
    have hgrown := Subset.trans (hleft fill.defines) (subset_append_left _ body.defines)
    exact fits_backPlan
      (append_subset.2 ⟨Subset.trans hdefined₁ hsub₂, Plan.Fits.defines_subset hbody⟩)
      (fun f hf => (hformals f hf).mono hsub₂ hgrown)
      fun f hf => mem_append_left _ (hv f hf)
  | @control _ _ _ _ _ _ _ formals _ fill callee _ locals callee' _ body _ _ _ _ hbind hfill hlocals _
      ih =>
    obtain ⟨known₁, hsub₁, hknown₁, hformals⟩ := hbind.fits hknown (Scope.Fits.root hjob) hjob
    obtain ⟨hcallee, hfill, hv⟩ := hfill.fits ((Scope.Fits.root hjob).enter .control _) hformals
    have hdefined₁ := append_subset.2 ⟨Subset.trans hdefined hsub₁, hfill.defines_subset⟩
    obtain ⟨known₂, hsub₂, hknown₂, hcallee', hlocals⟩ := hlocals.fits hknown₁ hcallee
    have hdefined₂ := append_subset.2
      ⟨Subset.trans hdefined₁ hsub₂, hlocals.defines_subset⟩
    obtain ⟨known₃, hsub₃, hknown₃, -, hbody⟩ :=
      ih hknown₂ hdefined₂ (hcallee'.enter .block "") (subset_append_left _)
    have hsub := Subset.trans hsub₂ hsub₃
    refine ⟨known₃, Subset.trans hsub₁ hsub, hknown₃, trivial,
      hfill.mono hsub, hlocals.mono hsub₃, hbody, ?_⟩
    have hgrown := Subset.trans
      (Subset.trans (hleft fill.defines) (subset_append_left _ locals.defines))
      (subset_append_left _ body.defines)
    exact fits_backPlan
      (append_subset.2 ⟨Subset.trans hdefined₂ hsub₃, Plan.Fits.defines_subset hbody⟩)
      (fun f hf => (hformals f hf).mono hsub hgrown)
      fun f hf => mem_append_left _ (mem_append_left _ (hv f hf))
  | arm hresolve _ _ ih₁ ih₂ =>
    obtain ⟨known₁, hsub₁, hknown₁, -, ha⟩ :=
      ih₁ hknown hdefined ⟨hjob.home (resolveAction_eq_ok hresolve), hjob⟩ hleft
    obtain ⟨known₂, hsub₂, hknown₂, -, hb⟩ :=
      ih₂ hknown₁ (Subset.trans hdefined hsub₁) hjob hleft
    exact ⟨known₂, Subset.trans hsub₁ hsub₂, hknown₂, trivial, Plan.Fits.mono hsub₂ ha, hb⟩
  | miss => exact ⟨known, Subset.refl _, hknown, trivial, trivial, trivial⟩
  | default _ hresolve _ ih =>
    obtain ⟨known', hsub, hknown', -, ha⟩ :=
      ih hknown hdefined ⟨hjob.home (resolveAction_eq_ok hresolve), hjob⟩ hleft
    exact ⟨known', hsub, hknown', trivial, ha, trivial⟩

/-! ### Whole controls -/

theorem BindsInputs.fits (h : BindsInputs s l c a s' c') (hknown : Made structs known c.uid)
    (hs : s.Fits structs defined) :
    ∃ known', known ⊆ known' ∧ Made structs known' c'.uid ∧
      s'.Fits structs (defined ++ a.defines) ∧ a.Fits known' defined := by
  induction h generalizing known defined with
  | nil => exact ⟨known, Subset.refl _, hknown, by simpa [Plan.defines] using hs, trivial⟩
  | @cons s p ty l c s₁ a s₂ c₂ hty hdeclare _ ih =>
    have hproper := hs.resolveType hty
    have hsub := subset_append_left known [formalVariable "" c.uid p ty]
    have hmem : formalVariable "" c.uid p ty ∈ defined ++ [formalVariable "" c.uid p ty] :=
      mem_append_right _ mem_cons_self
    have hknown₁ : Made structs (known ++ [formalVariable "" c.uid p ty]) (c.uid + 1) :=
      hknown.add rfl hproper
    obtain ⟨known', hsub', hknown', hs', ha⟩ := ih hknown₁
      (fits_declareVariable (hs.mono (subset_append_left _ _)) hmem hproper hdeclare)
    refine ⟨known', Subset.trans hsub hsub', hknown', ?_, ?_, ha⟩
    · rwa [append_assoc] at hs'
    · exact hsub' (mem_append_right _ mem_cons_self)

theorem ElaboratesControl.fits (h : ElaboratesControl depth ctx globals d a c)
    (hglobals : globals.Fits structs []) : ∃ known, Made structs known c.uid ∧ a.Fits known [] := by
  cases h with
  | mk hinputs hlocals hbody =>
    obtain ⟨known₁, hsub₁, hknown₁, hs₁, ha⟩ :=
      hinputs.fits (Made.nil structs) (hglobals.enter .control d.name)
    obtain ⟨known₂, hsub₂, hknown₂, hs₂, hl⟩ := hlocals.fits hknown₁ hs₁
    have hdefined := append_subset.2
      ⟨Subset.trans (append_subset.2 ⟨nil_subset _, ha.defines_subset⟩) hsub₂,
        hl.defines_subset⟩
    obtain ⟨known₃, hsub₃, hknown₃, -, hb⟩ :=
      hbody.fits hknown₂ hdefined (hs₂.enter .block "")
    exact ⟨known₃, hknown₃, ha.mono (Subset.trans hsub₂ hsub₃), hl.mono hsub₃, hb⟩

end Elaborate

end ControlReach
