import ControlReach.Document.Node
import Mathlib.Data.List.Basic

/-!
# How documents are refused

A document is decoded or refused. Two refusals are not reported to the user: a kind that is a list
or an object, and an infinite line or column.
-/

namespace ControlReach

open List

/-- A value is the document, or stands in an item of a list or under a key. -/
inductive Value.StandsIn (w : Value) : Value → Prop
  | here : StandsIn w w
  | item {items : List Value} {v : Value} (hv : v ∈ items) (h : StandsIn w v) :
    StandsIn w (.list items)
  | field {fields : List (String × Value)} {key : String} {v : Value} (hv : (key, v) ∈ fields)
    (h : StandsIn w v) : StandsIn w (.object fields)

namespace Document

/-- The causes of the refusals that are not reported, among the values for which `p` holds. -/
inductive Unreported (p : Value → Prop) : LoadFault → Prop
  | kind {fields : List (String × Value)} {kind : Value} (hobject : p (.object fields))
    (hkind : fields.lookup "kind" = some kind)
    (hcompound : (∃ items, kind = .list items) ∨ ∃ entries, kind = .object entries) :
    Unreported p .kindNotScalar
  | place {fields place : List (String × Value)} {key : String} {negative : Bool}
    (hobject : p (.object fields)) (hplace : ("location", .object place) ∈ fields)
    (hkey : key = "line" ∨ key = "column")
    (hnumber : place.lookup key = some (.real (.infinite negative))) :
    Unreported p (.badLocation .infinite)

/-- A refusal is reported, or has a cause among the values for which `p` holds. -/
def Explains {α : Type} (p : Value → Prop) (x : Except LoadError α) : Prop :=
  ∀ e, x = .error e → e.isReported = true ∨ Unreported p e.fault

section Explains

variable {p : Value → Prop}

theorem Explains.ok (a : α) : Explains p (.ok a : Except LoadError α) := nofun

theorem Explains.refuse (h : LoadError.isReported ⟨path, fault⟩ = true) :
    Explains p (refuse path fault : Except LoadError α) := by
  rintro e ⟨⟩
  exact .inl h

theorem Explains.bind (hx : Explains p x) (hf : ∀ a, Explains p (f a)) : Explains p (x >>= f) := by
  intro e he
  cases x with
  | error e' =>
    cases he
    exact hx e rfl
  | ok a => exact hf a e he

theorem Explains.map (hx : Explains p x) : Explains p (x.map f) :=
  hx.bind fun a => .ok (f a)

theorem Explains.mono (hx : Explains p x) (h : ∀ v, p v → q v) : Explains q x := by
  rintro ⟨path, fault⟩ he
  refine (hx _ he).imp_right fun hu => ?_
  cases hu with
  | kind hobject hkind hcompound => exact .kind (h _ hobject) hkind hcompound
  | place hobject hplace hkey hnumber => exact .place (h _ hobject) hplace hkey hnumber

end Explains

variable {p : Value → Prop} {path : String}

/-! ### The parts of a node -/

/-- Decode the value of a field that is written in the given form. -/
def decodeForm (path : String) (v : Value) : FieldForm → Except LoadError Node
  | .place => decodePlace path v
  | .direction => decodeDirection path v
  | .structFields =>
    match v with
    | .list items => (decodePairs path 0 items).map Node.pairs
    | _ => refuse path .fieldsNotList
  | .block => (decode path v).bind (asBlock path)
  | .any => decode path v

theorem decodeFields_cons (path : String) (kind : Kind) (key : String) (v : Value)
    (rest : List (String × Value)) : decodeFields path kind ((key, v) :: rest) =
      if key = "kind" then decodeFields path kind rest else if kind.hasField key then do
        let n ← decodeForm (path ++ "." ++ key) v (fieldForm kind key)
        return (key, n) :: (← decodeFields path kind rest)
      else refuse path (.unknownField kind key) := by
  rw [decodeFields]
  cases fieldForm kind key <;> cases v <;> rfl

theorem eq_of_fieldForm_eq_place (h : fieldForm kind key = .place) : key = "location" := by
  unfold fieldForm at h
  split_ifs at h
  assumption

variable {fields : List (String × Value)}

theorem explains_placeNumber (hp : p (.object fields))
    (hplace : ("location", .object place) ∈ fields) (hkey : key = "line" ∨ key = "column") :
    Explains p (placeNumber path key place) := by
  unfold placeNumber
  split
  · exact .ok _
  · rename_i v hv
    split
    · exact .ok _
    · rename_i fault hfault
      rintro e ⟨⟩
      by_cases hinf : fault = .infinite
      · subst hinf
        -- no value but an infinite number has this fault
        obtain ⟨negative, rfl⟩ : ∃ negative, v = .real (.infinite negative) := by
          unfold Value.toInteger at hfault
          split at hfault <;> (try split at hfault) <;> cases hfault
          exact ⟨_, rfl⟩
        exact .inr (.place hp hplace hkey hv)
      · left
        cases fault <;> first | rfl | exact absurd rfl hinf

theorem explains_decodePlace (hp : p (.object fields)) (hv : ("location", v) ∈ fields) :
    Explains p (decodePlace path v) := by
  unfold decodePlace
  split
  · exact .ok _
  · exact (explains_placeNumber hp hv (.inl rfl)).bind fun _ =>
      (explains_placeNumber hp hv (.inr rfl)).bind fun _ => .ok _
  · exact .refuse rfl

theorem explains_decodeDirection (v : Value) : Explains p (decodeDirection path v) := by
  unfold decodeDirection
  split
  · split
    · split
      · exact .ok _
      · exact .refuse rfl
    · exact .refuse rfl
  · exact .ok _

theorem explains_kindOf (hp : p (.object fields)) : Explains p (kindOf path fields) := by
  unfold kindOf
  split
  · exact .refuse rfl
  · exact .refuse rfl
  · rename_i items hkind
    rintro e ⟨⟩
    exact .inr (.kind hp hkind (.inl ⟨items, rfl⟩))
  · rename_i entries hkind
    rintro e ⟨⟩
    exact .inr (.kind hp hkind (.inr ⟨entries, rfl⟩))
  · split
    · exact .ok _
    · exact .refuse rfl
  · exact .refuse rfl

theorem explains_buildNode (kind : Kind) (given : List (String × Node)) :
    Explains p (buildNode path kind given) := by
  unfold buildNode
  split
  · exact .ok _
  · exact .refuse rfl

theorem explains_asBlock (n : Node) : Explains p (asBlock path n) := by
  unfold asBlock
  split
  · exact .ok _
  · exact .ok _
  · exact .ok _
  · exact .refuse rfl

/-! ### Nodes -/

mutual

theorem explains_decode (path : String) : ∀ v : Value, Explains (·.StandsIn v) (decode path v)
  | .list items => by
    rw [decode]
    refine .bind ((explains_decodeItems path 0 items).mono ?_) fun _ => .ok _
    rintro w ⟨v, hv, hw⟩
    exact .item hv hw
  | .object fields => by
    rw [decode]
    refine .bind (explains_kindOf .here) fun kind => .bind ?_ fun given =>
      explains_buildNode kind given
    exact explains_decodeFields path kind fields fields (Subset.refl _)
  | .null | .bool _ | .int _ | .real _ | .text _ | .bytes _ | .moment _ | .set _ => by
    rw [decode] <;> first | exact .ok _ | nofun

theorem explains_decodeItems (path : String) (i : Nat) :
    ∀ items : List Value, Explains (fun w => ∃ v ∈ items, w.StandsIn v) (decodeItems path i items)
  | [] => by
    rw [decodeItems]
    exact .ok _
  | v :: rest => by
    rw [decodeItems]
    refine .bind ((explains_decode _ v).mono fun w hw => ⟨v, mem_cons_self, hw⟩) fun n => .bind ?_
      fun _ => .ok _
    refine (explains_decodeItems path (i + 1) rest).mono ?_
    rintro w ⟨u, hu, hw⟩
    exact ⟨u, mem_cons_of_mem _ hu, hw⟩

theorem explains_decodeFields (path : String) (kind : Kind) (fields : List (String × Value)) :
    ∀ rest : List (String × Value), rest ⊆ fields →
      Explains (·.StandsIn (.object fields)) (decodeFields path kind rest)
  | [], _ => by
    rw [decodeFields]
    exact .ok _
  | (key, v) :: rest, hsub => by
    have hv : (key, v) ∈ fields := hsub mem_cons_self
    have hrest := explains_decodeFields path kind fields rest fun q hq =>
      hsub (mem_cons_of_mem _ hq)
    have hin : ∀ w : Value, w.StandsIn v → w.StandsIn (.object fields) := fun w hw => .field hv hw
    rw [decodeFields_cons]
    split
    · exact hrest
    · split
      · refine .bind ?_ fun n => .bind hrest fun _ => .ok _
        cases hform : fieldForm kind key with
        | place =>
          obtain rfl := eq_of_fieldForm_eq_place hform
          exact explains_decodePlace .here hv
        | direction => exact explains_decodeDirection v
        | structFields => exact (explains_structFields _ v).mono hin
        | block => exact .bind ((explains_decode _ v).mono hin) fun n => explains_asBlock n
        | any => exact (explains_decode _ v).mono hin
      · exact .refuse rfl

theorem explains_structFields (path : String) :
    ∀ v : Value, Explains (·.StandsIn v) (decodeForm path v .structFields)
  | .list items => .map ((explains_decodePairs path 0 items).mono fun _ ⟨_, hu, hw⟩ => .item hu hw)
  | .null | .bool _ | .int _ | .real _ | .text _ | .bytes _ | .moment _ | .set _ | .object _ =>
    .refuse rfl

theorem explains_decodePairs (path : String) (i : Nat) :
    ∀ items : List Value, Explains (fun w => ∃ v ∈ items, w.StandsIn v) (decodePairs path i items)
  | [] => by
    rw [decodePairs]
    exact .ok _
  | v :: rest => by
    rw [decodePairs]
    refine .bind ((explains_decodePair _ v).mono fun w hw => ⟨v, mem_cons_self, hw⟩) fun n =>
      .bind ?_ fun _ => .ok _
    refine (explains_decodePairs path (i + 1) rest).mono ?_
    rintro w ⟨u, hu, hw⟩
    exact ⟨u, mem_cons_of_mem _ hu, hw⟩

theorem explains_decodePair (path : String) :
    ∀ v : Value, Explains (·.StandsIn v) (decodePair path v)
  | .list [name, u] => by
    rw [decodePair]
    refine .bind ((explains_decode _ u).mono fun w hw => ?_) fun _ => .ok _
    exact .item (mem_cons_of_mem _ mem_cons_self) hw
  | .object fields => by
    rw [decodePair]
    split
    · exact .refuse rfl
    · exact .bind (explains_decodeValueField path fields fields (Subset.refl _)) fun _ => .ok _
  | .list [] | .list [_] | .list (_ :: _ :: _ :: _) => by
    rw [decodePair] <;> first | exact .refuse rfl | nofun
  | .null | .bool _ | .int _ | .real _ | .text _ | .bytes _ | .moment _ | .set _ => by
    rw [decodePair] <;> first | exact .refuse rfl | nofun

theorem explains_decodeValueField (path : String) (fields : List (String × Value)) :
    ∀ rest : List (String × Value), rest ⊆ fields →
      Explains (·.StandsIn (.object fields)) (decodeValueField path rest)
  | [], _ => by
    rw [decodeValueField]
    exact .refuse rfl
  | (key, v) :: rest, hsub => by
    rw [decodeValueField]
    split
    · exact (explains_decode _ v).mono fun w hw => .field (hsub mem_cons_self) hw
    · exact explains_decodeValueField path fields rest fun q hq => hsub (mem_cons_of_mem _ hq)

end

/-! ### Programs -/

def wrapped : Value → Value
  | .list items => .object [("kind", .text "Program"), ("declarations", .list items)]
  | v => v

def asProgram (source : String) : Node → Except LoadError Node
  | .tree .program fields => .ok (.tree .program (setSource source fields))
  | n => refuse "$" (.notProgram n.typeName)

theorem decodeProgram_eq (source : String) (v : Value) :
    decodeProgram source v = decode "$" (wrapped v) >>= asProgram source := by
  cases v <;> rfl

theorem asProgram_cases (source : String) (n : Node) :
    (∃ fields, asProgram source n = .ok (.tree .program fields)) ∨
      asProgram source n = refuse "$" (.notProgram n.typeName) := by
  unfold asProgram
  split
  · exact .inl ⟨_, rfl⟩
  · exact .inr rfl

theorem unreported_of_wrapped (h : Unreported (·.StandsIn (wrapped v)) fault) :
    Unreported (·.StandsIn v) fault := by
  cases v with
  | list items =>
    -- what stands in the wrapping is the wrapping itself or stands in the list
    have hin : ∀ {fields : List (String × Value)},
        (Value.object fields).StandsIn (wrapped (.list items)) →
          fields = [("kind", .text "Program"), ("declarations", .list items)] ∨
            (Value.object fields).StandsIn (.list items) := by
      intro fields hfields
      cases hfields with
      | here => exact .inl rfl
      | field hv hw =>
        simp only [mem_cons, Prod.mk.injEq, not_mem_nil, or_false] at hv
        rcases hv with ⟨-, rfl⟩ | ⟨-, rfl⟩
        · cases hw
        · exact .inr hw
    cases h with
    | kind hobject hkind hcompound =>
      rcases hin hobject with rfl | hobject
      · cases hkind
        rcases hcompound with ⟨_, h⟩ | ⟨_, h⟩ <;> cases h
      · exact .kind hobject hkind hcompound
    | place hobject hplace hkey hnumber =>
      rcases hin hobject with rfl | hobject
      · simp at hplace
      · exact .place hobject hplace hkey hnumber
  | _ => exact h

/-- **Every document is decoded or refused.** Only a kind that is a list or an object, or an
infinite line or column, is not reported. -/
theorem decodeProgram_or_refused (source : String) (v : Value) :
    (∃ fields, decodeProgram source v = .ok (.tree .program fields)) ∨
      ∃ e, decodeProgram source v = .error e ∧
        (e.isReported = true ∨ Unreported (·.StandsIn v) e.fault) := by
  rw [decodeProgram_eq]
  cases hn : decode "$" (wrapped v) with
  | error e =>
    refine .inr ⟨e, rfl, ?_⟩
    exact (explains_decode "$" (wrapped v) e hn).imp_right unreported_of_wrapped
  | ok n =>
    rcases asProgram_cases source n with ⟨fields, hok⟩ | herr
    · exact .inl ⟨fields, hok⟩
    · exact .inr ⟨_, herr, .inl rfl⟩

/-- A kind that is a list is not reported as a refusal. -/
theorem not_forall_reported : ¬ ∀ (source : String) (v : Value),
    (∃ fields, decodeProgram source v = .ok (.tree .program fields)) ∨
      ∃ e, decodeProgram source v = .error e ∧ e.isReported = true := by
  intro h
  rcases h "<input>" (.object [("kind", .list [])]) with ⟨fields, hok⟩ | ⟨e, herr, hrep⟩
  · cases hok
  · cases herr
    cases hrep

end Document

end ControlReach
