import ControlReach.Assoc
import ControlReach.Proofs.Refusals

/-!
# Nodes and their documents

A node is written as its kind, then every field of the kind in order. Decoding gives the node back,
if each field is in the form in which fields of its name are written.
-/

namespace ControlReach.Document

open List

namespace Node

mutual

def encode : Node → Value
  | .leaf v => v
  | .list items => .list (encodeItems items)
  | .place l => .object [("file", .text l.file), ("line", .int l.line), ("column", .int l.column)]
  | .direction d => .text d.text
  | .pairs fields => .list (encodePairs fields)
  | .tree kind fields => .object (("kind", .text kind.name) :: encodeFields fields)

def encodeItems : List Node → List Value
  | [] => []
  | n :: rest => encode n :: encodeItems rest

/-- The fields of a struct literal, each as an object of its own. -/
def encodePairs : List (Value × Node) → List Value
  | [] => []
  | (name, n) :: rest => .object [("name", name), ("value", encode n)] :: encodePairs rest

def encodeFields : List (String × Node) → List (String × Value)
  | [] => []
  | (key, n) :: rest => (key, encode n) :: encodeFields rest

end

/-- A node is in a form in which fields are written. -/
inductive Written : FieldForm → Node → Prop
  | noPlace : Written .place (.leaf .null)
  | place (l : Location) : Written .place (.place l)
  | direction (d : Direction) : Written .direction (.direction d)
  | pairs {fields : List (Value × Node)} (h : ∀ p ∈ fields, Written .any p.2) :
    Written .structFields (.pairs fields)
  | noBlock : Written .block (.leaf .null)
  | block {fields : List (String × Node)} (h : Written .any (.tree .blockStatement fields)) :
    Written .block (.tree .blockStatement fields)
  | null : Written .any (.leaf .null)
  | bool (b : Bool) : Written .any (.leaf (.bool b))
  | text (s : String) : Written .any (.leaf (.text s))
  | list {items : List Node} (h : ∀ n ∈ items, Written .any n) : Written .any (.list items)
  | tree {kind : Kind} {fields : List (String × Node)}
    (hkeys : fields.map Prod.fst = kind.schema.map Prod.fst)
    (h : ∀ f ∈ fields, Written (fieldForm kind f.1) f.2) : Written .any (.tree kind fields)

end Node

/-! ### The tables of kinds -/

theorem Kind.ofName?_name (kind : Kind) : Kind.ofName? kind.name = some kind := by
  cases kind <;> decide

theorem Kind.nodup_schema (kind : Kind) : (kind.schema.map Prod.fst).Nodup := by
  cases kind <;> decide

theorem Kind.kind_notMem_schema (kind : Kind) : "kind" ∉ kind.schema.map Prod.fst := by
  cases kind <;> decide

variable {kind : Kind}

theorem Kind.hasField_iff : kind.hasField key = true ↔ key ∈ kind.schema.map Prod.fst := by
  rw [hasField, any_eq_true, mem_map]
  exact exists_congr fun f => and_congr_right fun _ => beq_iff_eq

/-! ### Fields -/

/-- A list of fields that has the keys of a table is complete already. -/
theorem complete_eq {given : List (String × Node)} (hn : (given.map Prod.fst).Nodup)
    {table : List (String × Default)} (hsub : fields ⊆ given)
    (hkeys : fields.map Prod.fst = table.map Prod.fst) : complete given table = fields := by
  induction table generalizing fields with
  | nil =>
    rw [map_nil, map_eq_nil_iff] at hkeys
    rw [hkeys, complete]
  | cons entry table ih =>
    obtain ⟨key, default⟩ := entry
    cases fields with
    | nil => cases hkeys
    | cons f fields =>
      obtain ⟨key', n⟩ := f
      rw [map_cons, map_cons, cons.injEq] at hkeys
      obtain ⟨rfl, hkeys⟩ := hkeys
      have hlook : given.lookup key' = some n := Assoc.lookup_of_mem hn (hsub mem_cons_self)
      rw [complete, hlook, ih (fun f hf => hsub (mem_cons_of_mem _ hf)) hkeys]
      rfl

theorem missing_eq_nil {given : List (String × Node)} {table : List (String × Default)}
    (h : table.map Prod.fst ⊆ given.map Prod.fst) : missing given table = [] := by
  have hlook : ∀ f ∈ table, (given.lookup f.1).isNone = false := by
    intro f hf
    rw [Option.isNone_eq_false_iff, Option.isSome_iff_ne_none, Ne, Assoc.lookup_eq_none_iff,
      not_not]
    exact h (mem_map_of_mem hf)
  rw [missing, filter_eq_nil_iff.2, map_nil]
  intro f hf
  simp [hlook f hf]

theorem buildNode_of_keys {fields : List (String × Node)}
    (hkeys : fields.map Prod.fst = kind.schema.map Prod.fst) :
    buildNode path kind fields = .ok (.tree kind fields) := by
  have hn : (fields.map Prod.fst).Nodup := hkeys ▸ kind.nodup_schema
  rw [buildNode, missing_eq_nil (hkeys ▸ Subset.refl _), complete_eq hn (Subset.refl _) hkeys]

theorem kindOf_name (path : String) (kind : Kind) (rest : List (String × Value)) :
    kindOf path (("kind", .text kind.name) :: rest) = .ok kind := by
  simp [kindOf, Kind.ofName?_name]

/-! ### Decoding what has been written -/

theorem decodeItems_encode (h : ∀ n ∈ items, ∀ path, decode path n.encode = .ok n) (path : String)
    (i : Nat) : decodeItems path i (Node.encodeItems items) = .ok items := by
  induction items generalizing i with
  | nil => rw [Node.encodeItems, decodeItems]
  | cons n items ih =>
    rw [Node.encodeItems, decodeItems, h n mem_cons_self,
      ih (fun n hn => h n (mem_cons_of_mem _ hn))]
    rfl

theorem decodePairs_encode (h : ∀ p ∈ pairs, ∀ path, decode path p.2.encode = .ok p.2)
    (path : String) (i : Nat) : decodePairs path i (Node.encodePairs pairs) = .ok pairs := by
  induction pairs generalizing i with
  | nil => rw [Node.encodePairs, decodePairs]
  | cons p pairs ih =>
    obtain ⟨name, n⟩ := p
    have hn := h (name, n) mem_cons_self
    rw [Node.encodePairs, decodePairs, ih (fun p hp => h p (mem_cons_of_mem _ hp))]
    simp [decodePair, decodeValueField, hn, bind, Except.bind, pure, Except.pure]

theorem decodeFields_encode {fields : List (String × Node)}
    (hkeys : fields.map Prod.fst ⊆ kind.schema.map Prod.fst)
    (h : ∀ f ∈ fields, ∀ path, decodeForm path f.2.encode (fieldForm kind f.1) = .ok f.2)
    (path : String) : decodeFields path kind (Node.encodeFields fields) = .ok fields := by
  induction fields with
  | nil => rw [Node.encodeFields, decodeFields]
  | cons f fields ih =>
    obtain ⟨key, n⟩ := f
    rw [map_cons, cons_subset] at hkeys
    have hne : key ≠ "kind" := fun heq => kind.kind_notMem_schema (heq ▸ hkeys.1)
    rw [Node.encodeFields, decodeFields_cons, if_neg hne, if_pos (Kind.hasField_iff.2 hkeys.1),
      h (key, n) mem_cons_self, ih hkeys.2 fun f hf => h f (mem_cons_of_mem _ hf)]
    rfl

/-- **Decoding undoes encoding**, in every form in which a field is written. -/
theorem decodeForm_encode {n : Node} (h : n.Written form) (path : String) :
    decodeForm path n.encode form = .ok n := by
  induction h generalizing path with
  | noPlace => rfl
  | place l =>
    rw [Node.encode]
    rfl
  | direction d => cases d <;> rfl
  | pairs _ ih =>
    rw [Node.encode]
    change (decodePairs path 0 _).map Node.pairs = _
    rw [decodePairs_encode fun p hp path => ih p hp path]
    rfl
  | noBlock => rfl
  | block _ ih =>
    change (decode path _).bind (asBlock path) = _
    rw [show decode path _ = _ from ih path]
    rfl
  | null | bool | text => rfl
  | list _ ih =>
    rw [Node.encode, decodeForm, decode, decodeItems_encode fun n hn path => ih n hn path]
    rfl
  | @tree kind fields hkeys _ ih =>
    rw [Node.encode, decodeForm, decode, kindOf_name]
    change decodeFields path kind _ >>= _ = _
    rw [decodeFields_cons, if_pos rfl,
      decodeFields_encode (hkeys ▸ Subset.refl _) fun f hf path => ih f hf path]
    exact buildNode_of_keys hkeys

/-! ### Programs -/

theorem setSource_eq (h : source = "<input>" ∨ ("source", .leaf (.text "<input>")) ∉ fields) :
    setSource source fields = fields := by
  induction fields with
  | nil => rw [setSource]
  | cons f fields ih =>
    obtain ⟨key, n⟩ := f
    have ih := ih (h.imp_right fun hmem hf => hmem (mem_cons_of_mem _ hf))
    unfold setSource
    split
    · split
      · rename_i hkey
        subst hkey
        rcases h with rfl | h
        · rfl
        · exact absurd mem_cons_self h
      · rw [ih]
    · rw [ih]

/-- Decoding a program undoes encoding it. -/
theorem decodeProgram_encode {fields : List (String × Node)}
    (h : (Node.tree .program fields).Written .any) {source : String}
    (hsource : source = "<input>" ∨ ("source", .leaf (.text "<input>")) ∉ fields) :
    decodeProgram source (Node.tree .program fields).encode = .ok (.tree .program fields) := by
  have hdecode : decode "$" (wrapped (Node.tree .program fields).encode) = _ :=
    decodeForm_encode h "$"
  rw [decodeProgram_eq, hdecode]
  change Except.ok (Node.tree .program (setSource source fields)) = _
  rw [setSource_eq hsource]

namespace Sample

def yes : Node := .tree .boolLiteral [("value", .leaf (.bool true)), ("location", .leaf .null)]

def literal : Node := .tree .structLiteral
  [("fields", .pairs [(.text "a", yes)]), ("location", .place ⟨"p4", 3, -1⟩)]

def type : Node := .tree .namedTypeRef [("name", .leaf (.text "S")), ("location", .leaf .null)]

def constant : Node := .tree .constantDeclaration [("type", type), ("name", .leaf (.text "c")),
  ("value", literal), ("location", .leaf .null)]

def fields : List (String × Node) :=
  [("declarations", .list [constant]), ("source", .leaf (.text "main.p4"))]

theorem written_fields : (Node.tree .program fields).Written .any := by
  have hyes : yes.Written .any :=
    .tree rfl (by simp [fieldForm, Node.Written.bool, Node.Written.noPlace])
  have hliteral : literal.Written .any :=
    .tree rfl (by simp [fieldForm, Node.Written.pairs, Node.Written.place, hyes])
  have htype : type.Written .any :=
    .tree rfl (by simp [fieldForm, Node.Written.text, Node.Written.noPlace])
  have hconstant : constant.Written .any :=
    .tree rfl (by simp [fieldForm, Node.Written.text, Node.Written.noPlace, hliteral, htype])
  exact .tree rfl (by simp [fields, fieldForm, Node.Written.text, Node.Written.list, hconstant])

end Sample

theorem decodeProgram_encode_sample : (Node.tree .program Sample.fields).Written .any ∧
    decodeProgram "other.p4" (Node.tree .program Sample.fields).encode =
      .ok (.tree .program Sample.fields) :=
  ⟨Sample.written_fields,
    decodeProgram_encode Sample.written_fields (.inr (by simp [Sample.fields]))⟩

end ControlReach.Document
