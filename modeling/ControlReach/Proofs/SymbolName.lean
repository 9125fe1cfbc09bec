import ControlReach.Query.Store
import Mathlib.Data.List.Basic

/-!
# The names of unknowns

The names of the unknowns of a query are put together from identifiers and numbers. As identifiers
hold none of the signs `@`, `#`, `.` and `|`, a name can be read back.
-/

namespace ControlReach

open List

/-- Which characters beyond ASCII count as letters. -/
class Letters where
  isLetter : Char → Bool

/-- All of them, unless something else is said. -/
instance : Letters := ⟨fun _ => true⟩

section Letters

variable [Letters]

def isWordChar (c : Char) : Bool :=
  c.isAlphanum || c == '_' || (128 ≤ c.toNat && Letters.isLetter c)

/-- Letters, digits and underscores, not starting with a digit. -/
def IsIdentifier (s : String) : Prop :=
  (∀ c ∈ s.toList, isWordChar c = true) ∧ ∀ c ∈ s.toList.head?, c.isDigit = false

/-- Only the characters of the text are looked at, not all characters there are. -/
instance (s : String) : Decidable (IsIdentifier s) :=
  decidable_of_iff (s.toList.all isWordChar = true ∧ s.toList.head?.all (!·.isDigit) = true) (by
    cases h : s.toList.head? <;> simp [IsIdentifier, h])

def isDottedChar (c : Char) : Bool := isWordChar c || c == '.'

/-- The characters are those of identifiers joined by dots. -/
def IsDotted (s : String) : Prop := ∀ c ∈ s.toList, isDottedChar c = true

theorem isIdentifier_empty : IsIdentifier "" := by simp [IsIdentifier]

theorem IsIdentifier.dotted (h : IsIdentifier s) : IsDotted s := by
  intro c hc
  rw [isDottedChar, h.1 c hc, Bool.true_or]

theorem IsDotted.append (hs : IsDotted s) (ht : IsDotted t) : IsDotted (s ++ t) := by
  intro c hc
  rw [String.toList_append, mem_append] at hc
  exact hc.elim (hs c) (ht c)

theorem isDotted_dot : IsDotted "." := by simp [IsDotted, isDottedChar]

theorem isDotted_join (h : ∀ s ∈ l, IsDotted s) : IsDotted (Text.join "." l) := by
  fun_induction Text.join "." l with
  | case1 => exact forall_mem_nil _
  | case2 s => exact h s mem_cons_self
  | case3 s rest _ ih =>
    obtain ⟨hs, hrest⟩ := forall_mem_cons.1 h
    exact (hs.append isDotted_dot).append (ih hrest)

theorem IsIdentifier.ne_dot (h : IsIdentifier s) : ∀ c ∈ s.toList, c ≠ '.' := by
  rintro c hc rfl
  have hdot : isWordChar '.' = false := rfl
  rw [h.1 _ hc] at hdot
  cases hdot

end Letters

/-! ### Numbers -/

def isNumberChar (c : Char) : Bool := c.isDigit || c == '-'

variable {n : Nat} {path : List String}

theorem isDigit_of_mem_toString (h : c ∈ (toString n).toList) : c.isDigit = true := by
  rw [Nat.toString_eq_repr, Nat.toList_repr] at h
  exact Nat.isDigit_of_mem_toDigits (by omega) (by omega) h

theorem toList_toString_ne_nil (n : Nat) : (toString n).toList ≠ [] := by
  rw [Nat.toString_eq_repr, Nat.toList_repr]
  exact Nat.toDigits_ne_nil

theorem toString_nat_inj (h : (toString m).toList = (toString n).toList) : m = n := by
  rw [Nat.toString_eq_repr, Nat.toString_eq_repr, Nat.toList_repr, Nat.toList_repr] at h
  have := congrArg (fun ds => Nat.ofDigitChars 10 ds 0) h
  simpa using this

theorem toString_int (i : Int) : (toString i).toList =
    if 0 ≤ i then (toString i.toNat).toList else '-' :: (toString (-i).toNat).toList := by
  rw [Int.toString_eq_repr, Int.repr_eq_if]
  split
  · rw [Nat.toString_eq_repr]
  · rw [Nat.toString_eq_repr, String.toList_append]
    rfl

theorem isNumberChar_of_mem_toString {i : Int} {c : Char} (h : c ∈ (toString i).toList) :
    isNumberChar c = true := by
  rw [toString_int] at h
  unfold isNumberChar
  split at h
  · rw [isDigit_of_mem_toString h, Bool.true_or]
  · rcases mem_cons.1 h with rfl | h
    · rfl
    · rw [isDigit_of_mem_toString h, Bool.true_or]

theorem toList_toString_int_ne_nil (i : Int) : (toString i).toList ≠ [] := by
  rw [toString_int]
  split
  · exact toList_toString_ne_nil _
  · exact cons_ne_nil _ _

theorem toString_int_inj {i j : Int} (h : (toString i).toList = (toString j).toList) : i = j := by
  -- A minus sign is not a digit, so both numbers have the same sign.
  have hsign : ∀ n m : Nat, (toString n).toList ≠ '-' :: (toString m).toList := by
    intro n m hnm
    have : ('-').isDigit = true := isDigit_of_mem_toString (n := n) (by rw [hnm]; simp)
    revert this
    decide
  rw [toString_int, toString_int] at h
  split at h <;> split at h
  · have := toString_nat_inj h
    omega
  · exact absurd h (hsign _ _)
  · exact absurd h.symm (hsign _ _)
  · have := toString_nat_inj (cons.inj h).2
    omega

/-! ### Leaves -/

def leafName (name : String) : List String → String
  | [] => name
  | f :: path => leafName (name ++ "." ++ f) path

/-- The end of a name that a field path makes. -/
def pathChars (path : List String) : List Char := path.flatMap fun f => '.' :: f.toList

theorem toList_leafName (name : String) (path : List String) :
    (leafName name path).toList = name.toList ++ pathChars path := by
  induction path generalizing name with
  | nil => simp [leafName, pathChars]
  | cons f path ih => simp [leafName, pathChars, ih, String.toList_append]

section Split

variable {s : List Char}

theorem span_of_stop (ha : ∀ c ∈ a, p c = true) (hs : ∀ c ∈ s.head?, p c = false) :
    (a ++ s).takeWhile p = a ∧ (a ++ s).dropWhile p = s := by
  rw [takeWhile_append_of_pos ha, dropWhile_append_of_pos ha]
  cases s with
  | nil => simp
  | cons c s => simp [hs c rfl]

theorem span_of_sign (ha : ∀ c ∈ a, p c = true) (hc : p c = false) (s : List Char) :
    (a ++ c :: s).takeWhile p = a ∧ (a ++ c :: s).dropWhile p = c :: s :=
  span_of_stop ha (by simpa using hc)

end Split

theorem head?_pathChars (path : List String) : ∀ c ∈ (pathChars path).head?, c = '.' := by
  cases path <;> simp [pathChars]

theorem pathChars_inj [Letters] (h : ∀ f ∈ path, IsIdentifier f) (h' : ∀ f ∈ path', IsIdentifier f)
    (heq : pathChars path = pathChars path') : path = path' := by
  induction path generalizing path' with
  | nil =>
    cases path' with
    | nil => rfl
    | cons => cases heq
  | cons f path ih =>
    cases path' with
    | nil => cases heq
    | cons f' path' =>
      obtain ⟨hf, hpath⟩ := forall_mem_cons.1 h
      obtain ⟨hf', hpath'⟩ := forall_mem_cons.1 h'
      have hrest : f.toList ++ pathChars path = f'.toList ++ pathChars path' :=
        (cons.inj heq).2
      have hstop : ∀ path : List String, ∀ c ∈ (pathChars path).head?, (c != '.') = false := by
        intro path c hc
        rw [head?_pathChars path c hc]
        rfl
      have hword : ∀ g, IsIdentifier g → ∀ c ∈ g.toList, (c != '.') = true :=
        fun g hg c hc => by simpa using hg.ne_dot c hc
      have hhere := congrArg (takeWhile (· != '.')) hrest
      rw [(span_of_stop (hword f hf) (hstop _)).1, (span_of_stop (hword f' hf') (hstop _)).1]
        at hhere
      obtain rfl := String.toList_inj.1 hhere
      obtain rfl := ih hpath hpath' (append_cancel_left hrest)
      rfl

/-! ### Reading a name -/

/-- What a name consists of. -/
inductive NameShape where
  | fresh (display number path : List Char)
  | joined (display block path : List Char)
  | edge (block index : List Char)
  | guard (table site label : List Char)
  | observed (control index key : List Char)

namespace NameShape

def readAt (display rest : List Char) : NameShape :=
  let number := rest.takeWhile isNumberChar
  let more := rest.dropWhile isNumberChar
  if number = [] then
    let rest := rest.drop 4
    .joined display (rest.takeWhile isNumberChar) (rest.dropWhile isNumberChar)
  else if ((more.drop 1).head?.map Char.isDigit) = some true then .edge number (more.drop 1)
  else .fresh display number more

def readHash (owner rest : List Char) : Option NameShape :=
  let number := rest.takeWhile Char.isDigit
  match rest.dropWhile Char.isDigit with
  | '.' :: label => some (.guard owner number label)
  | '|' :: key => some (.observed owner number key)
  | _ => none

def read (name : List Char) : Option NameShape :=
  let owner := name.takeWhile isDottedChar
  match name.dropWhile isDottedChar with
  | '@' :: rest => some (readAt owner rest)
  | '#' :: rest => readHash owner rest
  | _ => none

theorem read_at (h : ∀ c ∈ owner, isDottedChar c = true) (rest : List Char) :
    read (owner ++ '@' :: rest) = some (readAt owner rest) := by
  simp only [read, span_of_sign h (c := '@') (by decide)]

theorem read_hash (h : ∀ c ∈ owner, isDottedChar c = true) (rest : List Char) :
    read (owner ++ '#' :: rest) = readHash owner rest := by
  simp only [read, span_of_sign h (c := '#') (by decide)]

theorem head?_drop_pathChars (h : ∀ f ∈ path, IsIdentifier f) :
    ((pathChars path).drop 1).head?.map Char.isDigit ≠ some true := by
  cases path with
  | nil => simp [pathChars]
  | cons f path =>
    obtain ⟨hf, -⟩ := forall_mem_cons.1 h
    show (f.toList ++ pathChars path).head?.map Char.isDigit ≠ some true
    cases hlist : f.toList with
    | nil =>
      cases hhead : (pathChars path).head? with
      | none => simp [hhead]
      | some c =>
        rw [nil_append, hhead, head?_pathChars path c hhead]
        decide
    | cons c rest =>
      have := hf.2 c (by rw [hlist]; rfl)
      simp [this]

theorem isNumberChar_head?_pathChars (path : List String) :
    ∀ c ∈ (pathChars path).head?, isNumberChar c = false := by
  intro c hc
  rw [head?_pathChars path c hc]
  decide

theorem isNumberChar_of_mem_digits : ∀ c ∈ (toString n).toList, isNumberChar c = true := by
  intro c hc
  rw [isNumberChar, isDigit_of_mem_toString hc, Bool.true_or]

theorem read_freshName {v : Variable} (hv : IsDotted v.display) (n : Nat)
    (hpath : ∀ f ∈ path, IsIdentifier f) : read (leafName (freshName v n) path).toList =
      some (.fresh v.display.toList (toString n).toList (pathChars path)) := by
  have hname : (leafName (freshName v n) path).toList =
      v.display.toList ++ '@' :: ((toString n).toList ++ pathChars path) := by
    rw [toList_leafName, freshName, String.toList_append, String.toList_append]
    simp
  rw [hname, read_at hv, readAt]
  simp only [span_of_stop isNumberChar_of_mem_digits (isNumberChar_head?_pathChars path)]
  rw [if_neg (toList_toString_ne_nil n), if_neg (head?_drop_pathChars hpath)]

theorem read_joinName {v : Variable} (hv : IsDotted v.display) (block : Int) (path : List String) :
    read (leafName (v.display ++ "@join" ++ toString block) path).toList =
      some (.joined v.display.toList (toString block).toList (pathChars path)) := by
  have hname : (leafName (v.display ++ "@join" ++ toString block) path).toList =
      v.display.toList ++ '@' :: 'j' :: 'o' :: 'i' :: 'n' ::
        ((toString block).toList ++ pathChars path) := by
    rw [toList_leafName, String.toList_append, String.toList_append]
    simp
  rw [hname, read_at hv, readAt]
  have hj : isNumberChar 'j' = false := by decide
  simp only [takeWhile_cons, hj, Bool.false_eq_true, if_false, if_true, drop_succ_cons, drop_zero,
    span_of_stop (fun _ => isNumberChar_of_mem_toString) (isNumberChar_head?_pathChars path)]

theorem read_edgeName (block : Int) (i : Nat) :
    read ("edge@" ++ toString block ++ "." ++ toString i).toList =
      some (.edge (toString block).toList (toString i).toList) := by
  have hname : ("edge@" ++ toString block ++ "." ++ toString i).toList =
      ['e', 'd', 'g', 'e'] ++ '@' :: ((toString block).toList ++ '.' :: (toString i).toList) := by
    simp [String.toList_append]
  have hdigit : ((toString i).toList.head?.map Char.isDigit) = some true := by
    cases hlist : (toString i).toList with
    | nil => exact absurd hlist (toList_toString_ne_nil i)
    | cons c rest =>
      have : c.isDigit = true := isDigit_of_mem_toString (n := i) (by rw [hlist]; simp)
      simp [this]
  rw [hname, read_at (all_eq_true.1 (by decide)), readAt]
  simp only [span_of_sign (fun _ => isNumberChar_of_mem_toString) (c := '.') (by decide),
    drop_succ_cons, drop_zero]
  rw [if_neg (toList_toString_int_ne_nil block), if_pos hdigit]

theorem read_guardName {s : TableSite} (hs : IsDotted s.table) (label : String) :
    read (s.guardName label).toList =
      some (.guard s.table.toList (toString s.id).toList label.toList) := by
  have hname : (s.guardName label).toList =
      s.table.toList ++ '#' :: ((toString s.id).toList ++ '.' :: label.toList) := by
    simp [TableSite.guardName, String.toList_append]
  rw [hname, read_hash hs, readHash]
  simp only [span_of_sign (fun _ => isDigit_of_mem_toString) (c := '.') (by decide)]

theorem read_observedName {t : Target} (ht : IsDotted t.control) (key : String) :
    read (t.id ++ "|" ++ key).toList =
      some (.observed t.control.toList (toString t.index).toList key.toList) := by
  have hname : (t.id ++ "|" ++ key).toList =
      t.control.toList ++ '#' :: ((toString t.index).toList ++ '|' :: key.toList) := by
    simp [Target.id, String.toList_append]
  rw [hname, read_hash ht, readHash]
  simp only [span_of_sign (fun _ => isDigit_of_mem_toString) (c := '|') (by decide)]

end NameShape

end ControlReach
