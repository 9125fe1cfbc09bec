import ControlReach.Solver.StringValue
import Mathlib.Data.List.Infix
import Mathlib.Tactic.IntervalCases

/-!
# How texts spell values

A constant is escaped outside printable ASCII, and then all escapes are read, also those that it
spells out itself. Seen from the text this is one pass, and what a value is shown as spells that
value again.
-/

namespace ControlReach

open List

namespace StringValue

variable {ds es cs : List Char} {c : Char} {n : Nat}

theorem toNat_ofNat (h : n < 256) : (Char.ofNat n).toNat = n := by
  have hvalid : n.isValidChar := .inl (by omega)
  rw [Char.ofNat, dif_pos hvalid]
  rfl

/-! ### Numbers -/

/-- A character that is submitted as it is and starts no escape. -/
abbrev Literal (c : Char) : Prop := 32 ≤ c.toNat ∧ c.toNat < 127 ∧ c.toNat ≠ 92

theorem literal_of_digit? (h : (digit? c).isSome) : Literal c := by
  have bounds : '0'.val.toNat = 48 ∧ '9'.val.toNat = 57 ∧ 'a'.val.toNat = 97 ∧
      'f'.val.toNat = 102 ∧ 'A'.val.toNat = 65 ∧ 'F'.val.toNat = 70 := by decide
  simp only [digit?, Bool.and_eq_true, decide_eq_true_eq, Char.le_def, UInt32.le_iff_toNat_le] at h
  simp only [Literal, Char.toNat]
  split_ifs at h
  all_goals first | omega | cases h

theorem digit?_digitChar (h : n < 16) : digit? n.digitChar = some n := by
  interval_cases n <;> rfl

def continue? (n : Option Nat) (ds : List Char) : Option Nat :=
  ds.foldl (fun n c => n.bind fun n => (digit? c).map fun d => 16 * n + d) n

theorem number?_eq (h : ds ≠ []) : number? ds = continue? (some 0) ds :=
  if_neg (by simpa using h)

theorem forall_of_continue? (h : continue? o ds = some n) :
    o.isSome ∧ ∀ c ∈ ds, (digit? c).isSome := by
  induction ds generalizing o with
  | nil => exact ⟨by rw [show o = some n from h]; rfl, nofun⟩
  | cons c ds ih =>
    obtain ⟨hsome, hall⟩ := ih h
    cases o with
    | none => cases hsome
    | some m =>
      exact ⟨rfl, forall_mem_cons.2 ⟨by simpa using hsome, hall⟩⟩

theorem digit_of_number? (h : number? ds = some n) : ∀ c ∈ ds, (digit? c).isSome := fun c hc =>
  (forall_of_continue? (number?_eq (ne_nil_of_mem hc) ▸ h)).2 c hc

theorem literal_of_number? (h : number? ds = some n) : ∀ c ∈ ds, Literal c := fun c hc =>
  literal_of_digit? (digit_of_number? h c hc)

theorem number?_toDigits (n : Nat) : number? (Nat.toDigits 16 n) = some n := by
  induction n using Nat.strongRecOn with
  | ind n ih =>
    rw [Nat.toDigits_eq_if (by decide)]
    split
    · rename_i h
      simp [number?, digit?_digitChar h]
    · rename_i h
      have hrest := ih (n / 16) (by omega)
      have hne : Nat.toDigits 16 (n / 16) ≠ [] := fun hnil => by rw [hnil] at hrest; cases hrest
      rw [number?_eq hne, continue?] at hrest
      rw [number?_eq (append_ne_nil_of_left_ne_nil hne _), continue?, foldl_append, hrest]
      simp [digit?_digitChar (Nat.mod_lt n (by decide : 0 < 16)), Nat.div_add_mod]

/-! ### Escapes -/

/-- The characters after the backslash of an escape, and the code that it stands for. -/
inductive Escape : List Char → Nat → Prop
  | braced (ds : List Char) (n : Nat) : ds.length < 6 → number? ds = some n → n ≤ maxCode →
    Escape ('u' :: '\x7b' :: (ds ++ ['\x7d'])) n
  | bare (ds : List Char) (n : Nat) : ds.length = 4 → number? ds = some n → Escape ('u' :: ds) n

theorem Escape.literal (h : Escape es n) : ∀ c ∈ es, Literal c := by
  cases h with
  | braced ds n _ hds _ =>
    simp only [forall_mem_cons, forall_mem_append]
    exact ⟨by decide, by decide, literal_of_number? hds, by decide, nofun⟩
  | bare ds n _ hds => exact forall_mem_cons.2 ⟨by decide, literal_of_number? hds⟩

theorem escape_escape (h : n ≤ maxCode) : ∃ es, escape n = '\\' :: es ∧ Escape es n := by
  refine ⟨_, rfl, .braced _ n ?_ (number?_toDigits n) h⟩
  have hlen := (Nat.length_toDigits_le_iff (b := 16) (n := n) (k := 5) (by decide) (by decide)).2
    (by simp only [maxCode] at h; omega)
  omega

theorem exists_brace : ∀ {k} {cs},
    ((cs.take k).takeWhile (· ≠ '\x7d')).length < k →
    ((cs.take k).takeWhile (· ≠ '\x7d')).length < cs.length →
    ∃ rest, cs = (cs.take k).takeWhile (· ≠ '\x7d') ++ '\x7d' :: rest
  | 0, _, h, _ | _ + 1, [], _, h => absurd h (Nat.not_lt_zero _)
  | k + 1, c :: cs, hk, hcs => by
    by_cases hc : c = '\x7d'
    · exact ⟨cs, by simp [hc]⟩
    · simp only [take_succ_cons, takeWhile_cons, ne_eq, hc, not_false_eq_true, decide_true, if_true,
        length_cons, Nat.add_lt_add_iff_right] at hk hcs ⊢
      obtain ⟨rest, hrest⟩ := exists_brace hk hcs
      exact ⟨rest, congrArg (c :: ·) hrest⟩

theorem braced?_digits (hn : number? ds = some n) (rest : List Char) :
    braced? (ds ++ '\x7d' :: rest) =
      if ds.length < 6 ∧ n ≤ maxCode then some (n, ds.length + 1) else none := by
  have hne : ∀ c ∈ ds.take 6, decide (c ≠ '\x7d') = true := fun c hc => by
    have hdigit := digit_of_number? hn c (mem_of_mem_take hc)
    rw [decide_eq_true_eq]
    rintro rfl
    cases hdigit
  have htake : ((ds ++ '\x7d' :: rest).take 6).takeWhile (· ≠ '\x7d') = ds.take 6 := by
    rw [take_append, takeWhile_append_of_pos hne]
    cases 6 - ds.length <;> simp
  simp only [braced?, htake, length_take, length_append, length_cons]
  by_cases hlen : ds.length < 6
  · rw [take_of_length_le (by omega), hn]
    simp [hlen, Nat.min_eq_right (Nat.le_of_lt hlen)]
  · rw [if_neg (by simp; omega), if_neg (by omega)]

theorem escape?_eq_some_iff : escape? cs = some (n, k) ↔
    ∃ es rest, cs = es ++ rest ∧ es.length = k ∧ Escape es n := by
  constructor
  · fun_cases escape? cs with
    | case1 rest =>
      intro h
      obtain ⟨⟨n', k'⟩, hr, hnk⟩ := Option.map_eq_some_iff.1 h
      cases hnk
      simp only [braced?] at hr
      split at hr
      · rename_i hlen
        simp only [Bool.and_eq_true, decide_eq_true_eq] at hlen
        obtain ⟨tail, htail⟩ := exists_brace hlen.1 hlen.2
        obtain ⟨m, hm, hr⟩ := Option.bind_eq_some_iff.1 hr
        split at hr
        · rename_i hle
          cases hr
          refine ⟨_, tail, ?_, ?_, .braced _ _ hlen.1 hm hle⟩
          · simpa using htail
          · simp
        · cases hr
      · cases hr
    | case2 a b c d rest =>
      intro h
      obtain ⟨m, hm, hnk⟩ := Option.map_eq_some_iff.1 h
      cases hnk
      exact ⟨['u', a, b, c, d], rest, rfl, rfl, .bare _ _ rfl hm⟩
    | case3 => nofun
  · rintro ⟨es, rest, rfl, rfl, hes⟩
    cases hes with
    | braced ds n hds hn hle =>
      simp [escape?, braced?_digits hn, hds, hle]
    | bare ds n hds hn =>
      match ds, hds with
      | [a, b, c, d], _ =>
        have ha : a ≠ '\x7b' := by
          rintro rfl
          cases digit_of_number? hn _ mem_cons_self
        simp [escape?, hn]

/-! ### Reading -/

theorem read_skip (cs rest : List Char) : read cs.length (cs ++ rest) = read 0 rest := by
  induction cs with
  | nil => rfl
  | cons c cs ih => exact ih

theorem read_literal (hcs : ∀ c ∈ cs, Literal c) (rest : List Char) :
    read 0 (cs ++ rest) = cs.map Char.toNat ++ read 0 rest := by
  induction cs with
  | nil => rfl
  | cons c cs ih =>
    obtain ⟨⟨-, -, hc⟩, hcs⟩ := forall_mem_cons.1 hcs
    rw [cons_append, read, if_neg (by rintro rfl; exact hc rfl), ih hcs]
    rfl

theorem read_escape (h : Escape es n) (rest : List Char) :
    read 0 ('\\' :: (es ++ rest)) = n :: read 0 rest := by
  have hes : escape? (es ++ rest) = some (n, es.length) :=
    escape?_eq_some_iff.2 ⟨es, rest, rfl, rfl, h⟩
  rw [read, if_pos rfl, hes]
  exact congrArg (n :: ·) (read_skip es rest)

theorem submit_literal (hcs : ∀ c ∈ cs, Literal c) : (cs.map Char.toNat).flatMap submit = cs := by
  induction cs with
  | nil => rfl
  | cons c cs ih =>
    obtain ⟨⟨hlow, hhigh, -⟩, hcs⟩ := forall_mem_cons.1 hcs
    simp [submit, hlow, hhigh, ih hcs]

theorem exists_of_submit {ns : List Nat} (hcs : ∀ c ∈ cs, Literal c)
    (h : ns.flatMap submit = cs ++ rest) :
    ∃ ms, ns = cs.map Char.toNat ++ ms ∧ ms.flatMap submit = rest := by
  induction cs generalizing ns with
  | nil => exact ⟨ns, rfl, h⟩
  | cons c cs ih =>
    obtain ⟨⟨-, -, hc⟩, hrest⟩ := forall_mem_cons.1 hcs
    cases ns with
    | nil => cases h
    | cons n ns =>
      rw [flatMap_cons, submit] at h
      split at h
      · rename_i hn
        obtain ⟨hchar, htail⟩ := cons.inj h
        obtain ⟨ms, rfl, hms⟩ := ih hrest htail
        simp only [Bool.and_eq_true, decide_eq_true_eq] at hn
        exact ⟨ms, by rw [map_cons, ← hchar, toNat_ofNat (by omega)]; rfl, hms⟩
      · exact absurd (congrArg Char.toNat (cons.inj h).1).symm hc

/-! ### Spelling -/

/-- The text starts with an escape. -/
def Begins (ns : List Nat) : Prop :=
  ∃ es n rest, Escape es n ∧ ns = 92 :: es.map Char.toNat ++ rest

/-- What the codes of a text spell. -/
inductive Spells : List Nat → StringValue → Prop
  | nil : Spells [] []
  | escape {es : List Char} {n : Nat} {rest : List Nat} {v : StringValue} : Escape es n →
    Spells rest v → Spells (92 :: es.map Char.toNat ++ rest) (n :: v)
  | far {n : Nat} {rest : List Nat} {v : StringValue} : maxCode < n → Spells rest v →
    Spells (n :: rest) ((StringValue.escape n).map Char.toNat ++ v)
  | self {n : Nat} {rest : List Nat} {v : StringValue} : n ≤ maxCode → ¬ Begins (n :: rest) →
    Spells rest v → Spells (n :: rest) (n :: v)

variable {ns : List Nat} {v : StringValue}

theorem exists_spells (ns : List Nat) : ∃ v, Spells ns v := by
  induction hk : ns.length using Nat.strongRecOn generalizing ns with
  | ind k ih =>
    match ns with
    | [] => exact ⟨[], .nil⟩
    | n :: rest =>
      by_cases hb : Begins (n :: rest)
      · obtain ⟨es, m, tail, hes, htail⟩ := hb
        have hlen := congrArg length htail
        simp only [length_cons, length_append] at hlen hk
        obtain ⟨v, hv⟩ := ih tail.length (by omega) tail rfl
        exact ⟨m :: v, htail ▸ .escape hes hv⟩
      · obtain ⟨v, hv⟩ := ih rest.length (by simp only [length_cons] at hk; omega) rest rfl
        by_cases hn : n ≤ maxCode
        · exact ⟨n :: v, .self hn hb hv⟩
        · exact ⟨_, .far (by omega) hv⟩

theorem read_far (hn : maxCode < n) (rest : List Char) :
    read 0 (escape n ++ rest) = (escape n).map Char.toNat ++ read 0 rest := by
  have hn' := number?_toDigits n
  have hnone : escape? ('u' :: '\x7b' :: (Nat.toDigits 16 n ++ '\x7d' :: rest)) = none := by
    simp [escape?, braced?_digits hn', hn]
  have hlit : ∀ c ∈ 'u' :: '\x7b' :: (Nat.toDigits 16 n ++ ['\x7d']), Literal c := by
    simp only [forall_mem_cons, forall_mem_append]
    exact ⟨by decide, by decide, literal_of_number? hn', by decide, nofun⟩
  have hread := read_literal hlit rest
  simp only [escape, cons_append, append_assoc, nil_append] at hread ⊢
  rw [read, if_pos rfl, hnone]
  exact congrArg _ hread

theorem read_of_spells (h : Spells ns v) : read 0 (ns.flatMap submit) = v := by
  induction h with
  | nil => rfl
  | escape hes _ ih =>
    rw [cons_append, flatMap_cons, flatMap_append, submit_literal hes.literal]
    exact (read_escape hes _).trans (congrArg _ ih)
  | @far n rest v hn _ ih =>
    rw [flatMap_cons, submit, if_neg (by simp only [maxCode] at hn; simp; omega), read_far hn, ih]
  | @self n rest v hn hb _ ih =>
    rw [flatMap_cons, submit]
    split
    · rename_i hprint
      simp only [Bool.and_eq_true, decide_eq_true_eq] at hprint
      have hchar : (Char.ofNat n).toNat = n := toNat_ofNat (by omega)
      by_cases hback : n = 92
      · subst hback
        cases hesc : escape? (rest.flatMap submit) with
        | none =>
          show read 0 ('\\' :: rest.flatMap submit) = _
          rw [read, if_pos rfl, hesc, ih]
          rfl
        | some r =>
          obtain ⟨es, tail, htail, -, hes⟩ := escape?_eq_some_iff.1 hesc
          obtain ⟨ms, rfl, -⟩ := exists_of_submit hes.literal htail
          exact absurd ⟨es, _, ms, hes, rfl⟩ hb
      · have hlit : ∀ c ∈ [Char.ofNat n], Literal c := by simp [Literal, hchar]; omega
        rw [read_literal hlit, ih]
        simp [hchar]
    · obtain ⟨es, hes, hesc⟩ := escape_escape hn
      rw [hes, cons_append, read_escape hesc, ih]

theorem ofText_eq_iff : ofText s = v ↔ Spells (Text.codes s.toList) v := by
  obtain ⟨w, hw⟩ := exists_spells (Text.codes s.toList)
  have hread : ofText s = w := read_of_spells hw
  exact ⟨fun h => h ▸ hread ▸ hw, read_of_spells⟩

/-! ### Values that are shown -/

theorem codes_of_unmarked : ∀ l : List Char, Text.mark ∉ l → Text.codes l = l.map Char.toNat
  | [], _ | [_], _ => rfl
  | c :: d :: rest, h => by
    obtain ⟨hc, hrest⟩ := not_or.1 (fun h' => h (mem_cons.2 h'))
    rw [Text.codes, if_neg (Ne.symm hc), codes_of_unmarked (d :: rest) hrest]
    rfl

theorem head_write (h : (write v).map Char.toNat = 117 :: l) : v.head? = some 117 := by
  cases v with
  | nil => cases h
  | cons n v =>
    rw [write] at h
    split at h
    · cases h
    · rename_i hn
      simp only [Bool.or_eq_true, decide_eq_true_eq, not_or, not_lt] at hn
      have hhead := (cons.inj h).1
      rw [toNat_ofNat (by omega)] at hhead
      rw [head?_cons, hhead]

theorem spells_write (hv : ∀ n ∈ v, n ≤ maxCode) :
    (∀ c ∈ write v, c.toNat < 256) ∧ Spells ((write v).map Char.toNat) v := by
  induction v with
  | nil => exact ⟨nofun, .nil⟩
  | cons n v ih =>
    obtain ⟨hn, hv⟩ := forall_mem_cons.1 hv
    obtain ⟨hsmall, hspells⟩ := ih hv
    rw [write]
    split
    · obtain ⟨es, hes, hesc⟩ := escape_escape hn
      rw [hes, map_append]
      refine ⟨forall_mem_append.2 ⟨forall_mem_cons.2 ⟨by decide, fun c hc => ?_⟩, hsmall⟩,
        .escape hesc hspells⟩
      exact Nat.lt_trans (hesc.literal c hc).2.1 (by decide)
    · rename_i hraw
      simp only [Bool.or_eq_true, Bool.and_eq_true, decide_eq_true_eq, beq_iff_eq, not_or,
        not_lt] at hraw
      have hchar : (Char.ofNat n).toNat = n := toNat_ofNat (by omega)
      rw [map_cons, hchar]
      refine ⟨forall_mem_cons.2 ⟨by omega, hsmall⟩, .self hn ?_ hspells⟩
      -- A backslash that is shown as it is has no `u` after it.
      rintro ⟨es, m, rest, hes, heq⟩
      obtain ⟨hback, htail⟩ := cons.inj heq
      cases hes <;> exact hraw.2 ⟨hback, head_write htail⟩

/-- What a value is shown as denotes the value. -/
theorem ofText_toText (v : StringValue) (hv : ∀ n ∈ v, n ≤ maxCode) : ofText (toText v) = v := by
  obtain ⟨hsmall, hspells⟩ := spells_write hv
  rw [ofText_eq_iff, toText, String.toList_ofList,
    codes_of_unmarked _ fun hmark => absurd (hsmall _ hmark) (by decide)]
  exact hspells

/-- Escapes that are spelled out, and characters that are shown or submitted as escapes. -/
def tangled : StringValue :=
  [92, 117, 123, 53, 99, 125, 117, 48, 48, 52, 49, 92, 0, 92, 117, 92, 0xd800, 92, 0xe9, 7, 0x2ffff]

theorem ofText_toText_tangled : (∀ n ∈ tangled, n ≤ maxCode) ∧ ofText (toText tangled) = tangled :=
  ⟨by decide, ofText_toText tangled (by decide)⟩

/-! ### Texts that denote themselves -/

/-- The solver knows all characters of the text, and no escape is spelled out in it. -/
structure Plain (s : String) : Prop where
  known : ∀ n ∈ Text.codes s.toList, n ≤ maxCode
  unescaped : ∀ ns, ns <:+ Text.codes s.toList → ¬ Begins ns

theorem spells_self (hns : ∀ n ∈ ns, n ≤ maxCode) (h : ∀ ms, ms <:+ ns → ¬ Begins ms) :
    Spells ns ns := by
  induction ns with
  | nil => exact .nil
  | cons n ns ih =>
    obtain ⟨hn, hns⟩ := forall_mem_cons.1 hns
    exact .self hn (h _ suffix_rfl) (ih hns fun ms hms => h ms (hms.trans (suffix_cons n ns)))

theorem isHalf_toNat (c : Char) : Text.isHalf c.toNat = false := by
  have hvalid : c.toNat < 0xd800 ∨ 0xdfff < c.toNat ∧ c.toNat < 0x110000 := c.valid
  rw [Text.isHalf, Bool.and_eq_false_iff]
  simp only [decide_eq_false_iff_not]
  omega

theorem ofCode_toNat (h : c.toNat ≤ maxCode) : Text.ofCode c.toNat = [c] := by
  have hmark : c.toNat ≠ Text.markCode := by
    simp only [maxCode] at h
    simp only [Text.markCode]
    omega
  rw [Text.ofCode, isHalf_toNat, if_neg Bool.false_ne_true, if_neg hmark, Char.ofNat_toNat]

theorem ofCodes_codes (h : ∀ n ∈ Text.codes cs, n ≤ maxCode) :
    Text.ofCodes (Text.codes cs) = cs := by
  have hmark : ¬ Text.markCode ≤ maxCode := by decide
  fun_induction Text.codes cs with
  | case1 => rfl
  | case2 c => simpa [Text.ofCodes] using ofCode_toNat (by simpa using h)
  | case3 => exact absurd (h _ mem_cons_self) hmark
  | case4 d rest hd n hn ih =>
    have hcode : Text.ofCode n = [Text.mark, d] := by
      simp only [Text.half?, Bool.and_eq_true, decide_eq_true_eq, Option.ite_none_right_eq_some,
        Option.some.injEq] at hn
      obtain ⟨hrange, rfl⟩ := hn
      rw [Text.ofCode, if_pos (by simp [Text.isHalf]; omega), Nat.add_sub_cancel,
        Nat.add_sub_cancel' hrange.1, Char.ofNat_toNat]
    rw [Text.ofCodes, flatMap_cons, hcode]
    exact congrArg (Text.mark :: d :: ·) (ih (forall_mem_cons.1 h).2)
  | case5 => exact absurd (h _ mem_cons_self) hmark
  | case6 c d rest hc ih =>
    obtain ⟨hn, hrest⟩ := forall_mem_cons.1 h
    rw [Text.ofCodes, flatMap_cons, ofCode_toNat hn]
    exact congrArg (c :: ·) (ih hrest)

theorem Plain.ofText_eq (h : Plain s) : ofText s = Text.codes s.toList :=
  ofText_eq_iff.2 (spells_self h.known h.unescaped)

theorem Plain.eq (ha : Plain a) (hb : Plain b) (h : ofText a = ofText b) : a = b := by
  rw [ha.ofText_eq, hb.ofText_eq] at h
  rw [← String.toList_inj, ← ofCodes_codes ha.known, ← ofCodes_codes hb.known, h]

end StringValue

end ControlReach
