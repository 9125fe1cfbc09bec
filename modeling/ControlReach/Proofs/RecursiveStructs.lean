import ControlReach.Proofs.FoundedTypes
import ControlReach.Proofs.RejectedDuplicates

/-!
# Structs that contain themselves

A struct is reported to contain itself if it lies on the path of the search to which a field leads
back. So not every struct of a cycle is reported, but every cycle has a field between two that are.
-/

namespace ControlReach

open List Relation

/-- The struct that a rejection says to contain itself. -/
def Diagnostic.recursive? (d : Diagnostic) : Option String :=
  match d.cause with
  | .recursiveStruct x => some x
  | _ => none

/-! ### Rejections of expressions -/

/-- A rejection, if there is one, is not that of a struct that contains itself. -/
def Plain {α : Type} (r : Checked α) : Prop := ∀ why, r = .error why → why.recursive? = none

section Plain

theorem plain_ok (a : α) : Plain (.ok a : Checked α) := nofun

theorem plain_reject (h : (Diagnostic.of cause loc).recursive? = none) :
    Plain (reject cause loc : Checked α) := by
  rintro _ ⟨⟩
  exact h

theorem Plain.bind (hr : Plain r) (hf : ∀ a, Plain (f a)) : Plain (r >>= f) := by
  cases r with
  | error why =>
    rintro _ ⟨⟩
    exact hr why rfl
  | ok a => exact hf a

end Plain

namespace Scope

theorem plain_resolve (s : Scope) (x : String) (loc : Option Location) :
    Plain (s.resolve x loc) := by
  unfold resolve resolveWith
  split
  · exact plain_ok _
  · exact plain_reject rfl

theorem plain_resolveType (s : Scope) (r : TypeRef) : Plain (s.resolveType r) := by
  unfold resolveType
  split
  · exact plain_ok _
  · exact plain_ok _
  · refine (s.plain_resolve _ _).bind fun b => ?_
    split
    · split
      · exact plain_reject rfl
      · split
        · exact plain_ok _
        · exact plain_reject rfl
    · exact plain_reject rfl
  · exact plain_reject rfl

theorem plain_typeOfName (s : Scope) (x : String) (loc : Option Location) :
    Plain (s.typeOfName x loc) := by
  refine (s.plain_resolve x loc).bind fun b => ?_
  split
  · exact plain_ok _
  · exact plain_ok _
  · exact plain_reject rfl

theorem plain_lowerName (s : Scope) (x : String) (loc : Option Location) :
    Plain (s.lowerName x loc) := by
  refine (s.plain_resolve x loc).bind fun b => ?_
  split
  · exact plain_ok _
  · exact plain_ok _
  · exact plain_reject rfl

theorem plain_fieldType (ty : Ty) (f : String) (loc : Option Location) :
    Plain (fieldType ty f loc) := by
  unfold fieldType
  split
  · split
    · exact plain_ok _
    · exact plain_reject rfl
  · exact plain_reject rfl

theorem plain_wantBool (operator : String) (loc : Option Location) (ty : Ty) :
    Plain (wantBool operator loc ty) := by
  unfold wantBool
  split
  · exact plain_ok _
  · exact plain_reject rfl

theorem plain_wantSame (negated : Bool) (left right : Ty) (loc : Option Location) :
    Plain (wantSame negated left right loc) := by
  unfold wantSame
  split
  · exact plain_ok _
  · exact plain_reject rfl

mutual

theorem plain_typeOf (s : Scope) : ∀ expected e, Plain (s.typeOf expected e)
  | _, .bool _ _ | _, .text _ _ => plain_ok _
  | _, .var x loc => s.plain_typeOfName x loc
  | expected, .paren inner _ => plain_typeOf s expected inner
  | _, .field target _ _ => (plain_typeOf s none target).bind fun ty => plain_fieldType ty _ _
  | expected, .struct fields loc => by
    by_cases hnames : (fields.map Prod.fst).Nodup
    · unfold typeOf
      simp only [if_pos hnames]
      split
      · split
        · exact (plain_checkFields s _ loc fields _).bind fun _ => plain_ok _
        · exact plain_reject rfl
      · exact plain_reject rfl
      · exact (plain_typeFields s fields).bind fun _ => plain_ok _
    · unfold typeOf
      simp only [if_neg hnames]
      exact plain_reject rfl
  | _, .not operand _ => (plain_typeOf s none operand).bind fun ty =>
    (plain_wantBool _ _ ty).bind fun _ => plain_ok _
  | _, .and left right _ | _, .or left right _ => (plain_typeOf s none left).bind fun ty =>
    (plain_wantBool _ _ ty).bind fun _ => (plain_typeOf s none right).bind fun ty =>
    (plain_wantBool _ _ ty).bind fun _ => plain_ok _
  | _, .equal negated left right loc => by
    rw [typeOf]
    split
    · exact (plain_typeOf s none right).bind fun ty => (plain_typeOf s (some ty) left).bind fun _ =>
        plain_wantSame _ _ _ _
    · exact (plain_typeOf s none left).bind fun ty => (plain_typeOf s (some ty) right).bind fun _ =>
        plain_wantSame _ _ _ _
  | _, .call _ _ _ | _, .other _ _ => plain_reject rfl

theorem plain_typeFields (s : Scope) : ∀ fields, Plain (s.typeFields fields)
  | [] => plain_ok _
  | (_, value) :: rest => (plain_typeOf s none value).bind fun _ =>
    (plain_typeFields s rest).bind fun _ => plain_ok _

theorem plain_checkFields (s : Scope) (struct : Ty) (loc : Option Location) :
    ∀ fields wanted, Plain (s.checkFields struct loc fields wanted)
  | (_, value) :: rest, (_, want) :: wanted => by
    rw [checkFields]
    refine (plain_typeOf s (some want) value).bind fun ty => ?_
    split
    · exact plain_checkFields s struct loc rest wanted
    · exact plain_reject rfl
  | [], _ | _ :: _, [] => plain_ok _

end

mutual

theorem plain_lower (s : Scope) : ∀ e, Plain (s.lower e)
  | .bool _ _ | .text _ _ => plain_ok _
  | .var x loc => s.plain_lowerName x loc
  | .paren inner _ => plain_lower s inner
  | .field target _ _ => (plain_lower s target).bind fun _ => plain_ok _
  | .struct fields _ => (plain_lowerFields s fields).bind fun _ => plain_ok _
  | .not operand _ => (plain_lower s operand).bind fun _ => plain_ok _
  | .and left right _ | .or left right _ => (plain_lower s left).bind fun _ =>
      (plain_lower s right).bind fun _ =>
    plain_ok _
  | .equal _ left right _ => by
    rw [lower]
    refine (plain_lower s left).bind fun _ => (plain_lower s right).bind fun _ => ?_
    split
    · exact plain_ok _
    · exact plain_ok _
  | .call _ _ _ | .other _ _ => plain_reject rfl

theorem plain_lowerFields (s : Scope) : ∀ fields, Plain (s.lowerFields fields)
  | [] => plain_ok _
  | (_, value) :: rest => (plain_lower s value).bind fun _ =>
    (plain_lowerFields s rest).bind fun _ => plain_ok _

end

end Scope

/-! ### Reports -/

theorem nodup_eraseDups : ∀ l : List String, l.eraseDups.Nodup
  | [] => nodup_nil
  | x :: l => by
    rw [eraseDups_cons, nodup_cons]
    exact ⟨by simp, nodup_eraseDups _⟩
termination_by l => l.length
decreasing_by exact Nat.lt_succ_of_le (length_filter_le _ _)

namespace TypeTable

variable {t : TypeTable}

def Silent (t : TypeTable) : Prop := t.errors = [] → t.invalid = []

theorem silent_record (t : TypeTable) (why : Diagnostic) : (t.record why).Silent := by
  simp [Silent, record]

theorem Silent.settleAlias (h : t.Silent) (d : TypedefDecl) : (settleAlias d t).Silent := by
  unfold TypeTable.settleAlias
  split
  · rename_i why hwhy
    obtain ⟨target, -, hfault⟩ := Option.bind_eq_some_iff.1 hwhy
    intro herrors
    rw [fault?, h herrors] at hfault
    cases hfault
  · split
    · exact h
    · exact silent_record _ _

theorem Silent.elaborateAlias (h : t.Silent) (fuel : Nat) (stack : List String) (d : TypedefDecl) :
    (elaborateAlias fuel stack d t).Silent := by
  induction fuel generalizing stack d with
  | zero => exact h
  | succ fuel ih =>
    unfold TypeTable.elaborateAlias
    split
    · exact h
    · split
      · exact silent_record _ _
      · split
        · exact (ih _ _).settleAlias d
        · exact h.settleAlias d

theorem Silent.elaborateStruct (h : t.Silent) (d : StructDecl) : (elaborateStruct d t).Silent := by
  unfold TypeTable.elaborateStruct
  refine foldlRecOn (motive := Silent) d.fields _ h fun t ht f _ => ?_
  unfold elaborateField
  split
  · exact silent_record _ _
  · split
    · exact ht
    · exact silent_record _ _

end TypeTable

theorem Declaration.recursive?_judged (before l : List Declaration) :
    ((judged before l).filterMap Prod.snd).filterMap Diagnostic.recursive? = [] := by
  induction l generalizing before with
  | nil => rfl
  | cons d l ih =>
    rw [judged, filterMap_cons, fault?]
    split
    · exact ih _
    · rename_i why hwhy
      rw [filterMap_cons_none, ih]
      split at hwhy
      · cases hwhy
        rfl
      · obtain ⟨previous, -, rfl⟩ := Option.map_eq_some_iff.1 hwhy
        rfl

namespace GlobalScope

/-- The structs that rejections say to contain themselves, in order. -/
def reported (g : GlobalScope) : List String := g.errors.filterMap Diagnostic.recursive?

theorem reported_record (g : GlobalScope) {why : Diagnostic} (h : why.recursive? = none) :
    (g.record why).reported = g.reported := by
  simp [reported, record, filterMap_append, h]

theorem reported_add (g : GlobalScope) (q : Declaration × Option Diagnostic) :
    (g.add q).reported = g.reported := by
  unfold add
  split
  · unfold addConstant
    split
    · rfl
    · rename_i d _ why hwhy
      refine g.reported_record
        (Plain.bind (g.scope.plain_resolveType d.type) (fun ty => ?_) why hwhy)
      refine Plain.bind (Plain.bind ?_ fun _ => g.scope.plain_lower d.value) fun _ => plain_ok _
      refine (g.scope.plain_typeOf _ _).bind fun actual => ?_
      split
      · exact plain_ok _
      · exact plain_reject rfl
  · unfold addInstance
    split
    · rfl
    · exact g.reported_record rfl
    · rfl
  · rfl

end GlobalScope

namespace Program

variable {p : Program}

theorem silent_filledTable (p : Program) : p.filledTable.Silent :=
  foldlRecOn (motive := TypeTable.Silent) _ _
    (foldlRecOn (motive := TypeTable.Silent) _ _ (fun _ => rfl)
      fun _ ht d _ => ht.elaborateAlias _ _ d)
    fun _ ht d _ => ht.elaborateStruct d

theorem reported_eq (h : p.filledTable.errors = []) :
    p.globals.reported = p.filledTable.recursiveStructs := by
  have hfaults : (p.ownership.filterMap Prod.snd).filterMap Diagnostic.recursive? = [] :=
    p.ownership_eq ▸ Declaration.recursive?_judged [] p.declarations
  have hkeep (l : List (Declaration × Option Diagnostic)) (g : GlobalScope) :
      (l.foldl GlobalScope.add g).reported = g.reported := by
    induction l generalizing g with
    | nil => rfl
    | cons q l ih => exact (ih _).trans (g.reported_add q)
  rw [globals, hkeep, GlobalScope.reported, filterMap_append, hfaults, errors_typeTable, h,
    nil_append, nil_append, filterMap_map]
  exact filterMap_some

/-- A struct has a field of a struct type if and only if the field is in the table. -/
theorem contains_iff (h : p.filledTable.errors = []) :
    p.Contains x y ↔ y ∈ p.filledTable.contained x := by
  refine ⟨?_, p.elaborated_filledTable.contains⟩
  rintro ⟨d, hd, rfl, f, hf, hstands⟩
  have hvalid : p.filledTable.isInvalid d.name = false := by
    rw [TypeTable.isInvalid, TypeTable.fault?, p.silent_filledTable h]
    rfl
  obtain hinvalid | ⟨-, hfields⟩ := p.elaborated_filledTable.filled d hd
  · cases hvalid.symm.trans hinvalid
  · obtain ⟨g, hg, -, hg'⟩ := exists_of_forall₂ hfields hf
    exact mem_filterMap.2 ⟨g, hg, by rw [hg'.unique hstands]; rfl⟩

/-- Reported structs contain themselves, no cycle is without two neighbours that are reported, and
no struct on a cycle has a type. -/
theorem reported_cycles (p : Program) (h : p.filledTable.errors = []) :
    p.globals.reported.Nodup ∧
    (∀ x ∈ p.globals.reported, TransGen p.Contains x x) ∧
    (∀ x, ¬ TransGen (fun y z => p.Contains y z ∧
      ¬ (y ∈ p.globals.reported ∧ z ∈ p.globals.reported)) x x) ∧
    ∀ x, TransGen p.Contains x x → ∀ ty, p.globals.scope.resolveType (.named x none) ≠ .ok ty := by
  have hsifted := p.elaborated_filledTable.toSifted
  obtain ⟨⟨hsound, hdone, -⟩, hwithin⟩ := hsifted.explore_spec
  rw [reported_eq h]
  refine ⟨nodup_eraseDups _, fun x hx => hsifted.cyclic_of_recursive hx, fun x hcycle => ?_,
    fun x hcycle ty hty => ?_⟩
  · obtain ⟨y, hxy, -⟩ := TransGen.head'_iff.1 hcycle
    have hx := (hsifted.mem_structNames ((contains_iff h).1 hxy.1)).1
    refine hsound.not_cyclic (hdone x (hsifted.keys ▸ hx)) (TransGen.mono (fun y z hyz => ?_) x x hcycle)
    refine ⟨(contains_iff h).1 hyz.1, ?_⟩
    rintro ⟨l, hl, rfl, rfl⟩
    obtain ⟨⟨hsource, htarget⟩, -⟩ := hwithin l hl
    exact hyz.2 ⟨TypeTable.mem_recursiveStructs.2 ⟨l, hl, hsource⟩,
      TypeTable.mem_recursiveStructs.2 ⟨l, hl, htarget⟩⟩
  · exact (resolveType_globals.1 hty).1.not_cyclic hcycle

end Program

/-! ### A struct that is passed over -/

namespace Crossing

def field (x y : String) : StructField := ⟨.named y none, x, none⟩

/-- The search goes from `A` to `B` and back to `A`; when it comes to `C`, it has left `B`. -/
def program : Program :=
  ⟨[.struct ⟨"A", [field "b" "B", field "c" "C"], none⟩, .struct ⟨"B", [field "a" "A"], none⟩,
    .struct ⟨"C", [field "b" "B"], none⟩], ""⟩

theorem silent : program.filledTable.errors = [] := rfl

theorem reported : program.globals.reported = ["A", "B"] := by
  rw [Program.reported_eq silent]
  decide +kernel

theorem cyclic : TransGen program.Contains "C" "C" := by
  have hA : .struct ⟨"A", [field "b" "B", field "c" "C"], none⟩ ∈ program.owned := .head _
  have hB : .struct ⟨"B", [field "a" "A"], none⟩ ∈ program.owned := .tail _ (.head _)
  have hC : .struct ⟨"C", [field "b" "B"], none⟩ ∈ program.owned := .tail _ (.tail _ (.head _))
  have hCB : program.Contains "C" "B" := ⟨_, hC, rfl, _, .head _, .struct none hB rfl⟩
  have hBA : program.Contains "B" "A" := ⟨_, hB, rfl, _, .head _, .struct none hA rfl⟩
  have hAC : program.Contains "A" "C" := ⟨_, hA, rfl, _, .tail _ (.head _), .struct none hC rfl⟩
  exact ((TransGen.single hCB).tail hBA).tail hAC

end Crossing

theorem Program.reported_cycles_crossing : Crossing.program.globals.reported = ["A", "B"] ∧
    TransGen Crossing.program.Contains "A" "A" ∧
    ∀ ty, Crossing.program.globals.scope.resolveType (.named "C" none) ≠ .ok ty := by
  obtain ⟨-, hcyclic, -, huntyped⟩ := Program.reported_cycles Crossing.program Crossing.silent
  refine ⟨Crossing.reported, hcyclic "A" ?_, huntyped "C" Crossing.cyclic⟩
  rw [Crossing.reported]
  decide

/-- Not every struct that contains itself is reported. -/
theorem Program.not_forall_reported_iff :
    ¬ ∀ p : Program, ((p.declarations.filterMap Declaration.declares?).map Prod.fst).Nodup →
      p.filledTable.errors = [] →
      p.globals.reported.Nodup ∧ ∀ x, x ∈ p.globals.reported ↔ TransGen p.Contains x x := by
  intro hall
  obtain ⟨-, hiff⟩ := hall Crossing.program (by decide) Crossing.silent
  have hmem := (hiff "C").2 Crossing.cyclic
  rw [Crossing.reported] at hmem
  revert hmem
  decide

end ControlReach
