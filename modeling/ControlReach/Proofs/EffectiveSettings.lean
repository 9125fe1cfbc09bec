import ControlReach.Command.Run
import ControlReach.Proofs.Success
import Mathlib.Data.List.Infix

/-!
# Settings in effect

A settings file gives positive limits, or is refused with a reason. Some faults end the program
instead: bytes that are no text, a mapping that is its own default, a scalar without a value, a
section that cannot be asked for settings, an infinite number, and an output file whose name is no
text. Options replace limits unchecked.
-/

namespace ControlReach

open List SettingsFault

theorem Text.beginsWith_iff : beginsWith s t = true ↔ t <+: s := by
  fun_induction beginsWith s t with
  | case1 | case2 => simp
  | case3 a as b bs ih => rw [Bool.and_eq_true, ih, cons_prefix_cons, beq_iff_eq, eq_comm]

theorem Text.contains_iff : contains s t = true ↔ t <:+: s := by
  induction s with
  | nil => simp [contains, beginsWith_iff]
  | cons c s ih =>
    rw [contains, Bool.or_eq_true, beginsWith_iff, infix_cons_iff]
    exact or_congr_right ih

namespace Settings

variable {part : Value} {key : String} {fields : List (String × Value)}

/-! ### Sections -/

/-- The section is a list, a set or a text, and the name of a setting is not in it. -/
def Lacks (key : String) : Value → Prop
  | .list items | .set items => ∀ s, .text s ∈ items → s ≠ key
  | .text s => ¬ key.toList <:+: s.toList
  | _ => False

/-- A setting in a mapping, by either spelling. -/
def entry (fields : List (String × Value)) (key : String) (default : Value) : Value :=
  ((fields.lookup key).or (fields.lookup (underscored key))).getD default

theorem lookup_object (fields : List (String × Value)) (key : String) (default : Value) :
    lookup (.object fields) key default = .ok (entry fields key default) := by
  unfold lookup entry
  cases h : fields.lookup key <;> simp [h]

theorem any_isText (key : String) (items : List Value) :
    items.any (isText key) = true ↔ ∃ s, .text s ∈ items ∧ s = key := by
  rw [any_eq_true]
  constructor
  · rintro ⟨v, hv, htext⟩
    cases v with
    | text s => exact ⟨s, hv, by simpa [isText] using htext⟩
    | _ => cases htext
  · rintro ⟨s, hs, rfl⟩
    exact ⟨_, hs, by simp [isText]⟩

theorem lookup_of_ne (key : String) (h : ¬ ∃ fields, part = .object fields) (default : Value) :
    ∃ why, lookup part key default = .error why ∧ (why = .noEntries ↔ Lacks key part) := by
  cases part with
  | object fields => exact absurd ⟨fields, rfl⟩ h
  | list items | set items =>
    have hany := any_isText key items
    refine ⟨_, rfl, ?_⟩
    simp only [Lacks]
    grind
  | text s =>
    have hin := Text.contains_iff (s := s.toList) (t := key.toList)
    refine ⟨_, rfl, ?_⟩
    simp only [Lacks]
    grind
  | null | bool | int | real | bytes | moment => exact ⟨_, rfl, by simp [Lacks]⟩

/-! ### Numbers -/

/-- The first value that is no integer is infinite. -/
def Overflows : List Value → Prop
  | [] => False
  | v :: vs => (∃ negative, v = .real (.infinite negative)) ∨ (∃ n, v.toInteger = .ok n) ∧ Overflows vs

theorem toInteger_infinite {v : Value} :
    v.toInteger = .error .infinite ↔ ∃ negative, v = .real (.infinite negative) := by
  constructor
  · fun_cases Value.toInteger v <;> simp_all
  · rintro ⟨negative, rfl⟩
    rfl

theorem overflows_of_error {v : Value} (h : v.toInteger = .error why) (vs : List Value) :
    Overflows (v :: vs) ↔ why = .infinite := by
  rw [Overflows, ← toInteger_infinite, h]
  simp

theorem overflows_of_ok {v : Value} (h : v.toInteger = .ok n) (vs : List Value) :
    Overflows (v :: vs) ↔ Overflows vs := by
  rw [Overflows, ← toInteger_infinite, h]
  simp

def numbers (fields : List (String × Value)) : List Value :=
  [entry fields "solver-timeout-ms" (.int 5000), entry fields "solver-rlimit" (.int 0),
    entry fields "max-workers" (.int 4)]

/-- The section cannot be asked for its settings, or one of its numbers is infinite. -/
def Escapes (part : Value) : Prop :=
  Lacks "solver-timeout-ms" part ∨ ∃ fields, part = .object fields ∧ Overflows (numbers fields)

/-- Something is read and good, or a fault is reported unless something is wrong. -/
def Settles {ε α : Type} (reported : ε → Bool) (good : α → Prop) (wrong : Prop) (x : Except ε α) :
    Prop :=
  (∃ a, x = .ok a ∧ good a ∧ ¬ wrong) ∨
    ∃ fault, x = .error fault ∧ (reported fault = false ↔ wrong)

namespace Settles

theorem integer (key : String) (d : Int)
    (h : ∀ n, Settles isReported good (Overflows vs) (f n)) :
    Settles isReported good (Overflows (entry fields key (.int d) :: vs))
      (Settings.integer (.object fields) key d >>= f) := by
  have hread : Settings.integer (.object fields) key d =
      (entry fields key (.int d)).toInteger.mapError .notInteger := by
    simp only [Settings.integer, setting, lookup_object, bind, Except.bind]
    cases (entry fields key (.int d)).toInteger <;> rfl
  rw [hread]
  cases hv : (entry fields key (.int d)).toInteger with
  | error why =>
    refine .inr ⟨.notInteger why, rfl, ?_⟩
    rw [overflows_of_error hv]
    cases why <;> simp [isReported]
  | ok n =>
    rw [overflows_of_ok hv]
    exact h n

theorem positive (key : String) (hwrong : ¬ wrong)
    (h : 0 < n → Settles isReported good wrong (f ())) :
    Settles isReported good wrong (requirePositive key n >>= f) := by
  unfold requirePositive
  split
  · exact .inr ⟨.notPositive key, rfl, iff_of_false (by simp [isReported]) hwrong⟩
  · rename_i hn
    exact h (Int.not_le.1 hn)

end Settles

def Valid (s : AnalysisSettings) : Prop := 0 < s.solverTimeoutMs ∧ 0 < s.maxWorkers

theorem settles_analysisOf (part : Value) :
    Settles isReported Valid (Escapes part) (analysisOf part) := by
  by_cases hobject : ∃ fields, part = .object fields
  · obtain ⟨fields, rfl⟩ := hobject
    have hescapes : Escapes (.object fields) ↔ Overflows (numbers fields) := by
      simp [Escapes, Lacks]
    have hnone : ¬ Overflows [] := id
    rw [hescapes]
    refine .integer _ _ fun time => .integer _ _ fun limit => .integer _ _ fun workers => ?_
    simp only [setting, lookup_object]
    exact .positive _ hnone fun htime => .positive _ hnone fun hworkers =>
      .inl ⟨_, rfl, ⟨htime, hworkers⟩, hnone⟩
  · obtain ⟨why, hwhy, hlacks⟩ := lookup_of_ne "solver-timeout-ms" hobject (.int 5000)
    have hescapes : Escapes part ↔ why = .noEntries := by
      rw [hlacks, Escapes, or_iff_left]
      exact fun ⟨fields, hf, _⟩ => hobject ⟨fields, hf⟩
    refine .inr ⟨.unusable why, by simp only [analysisOf, integer, setting, hwhy]; rfl, ?_⟩
    rw [hescapes]
    cases why <;> simp [isReported]

theorem outputOf_spec (part : Value) :
    (∃ fields, part = .object fields ∧
      outputOf part = .ok ⟨entry fields "json-file" .null, entry fields "sarif-file" .null⟩) ∨
    (∀ fields, part ≠ .object fields) ∧ ∃ why, outputOf part = .error (.output why) := by
  by_cases hobject : ∃ fields, part = .object fields
  · obtain ⟨fields, rfl⟩ := hobject
    refine .inl ⟨fields, rfl, ?_⟩
    simp only [outputOf, outputFile, lookup_object]
    rfl
  · obtain ⟨why, hwhy, -⟩ := lookup_of_ne "json-file" hobject .null
    exact .inr ⟨not_exists.1 hobject, why, by simp only [outputOf, outputFile, hwhy]; rfl⟩

end Settings

/-! ### Options -/

def OptionValue.Positive : Option (OptionValue Int) → Prop
  | none => True
  | some (.value n) => 0 < n
  | some .blank => False

open OptionValue (Positive)

/-- The limits under which a scan runs are positive numbers. -/
def ScanSettings.Limited (s : ScanSettings) : Prop :=
  Settings.Valid s.analysis ∧ s.blanks.timeout = false ∧ s.blanks.workers = false

/-- The failure is reported as a fault of the settings file. -/
def Crash.isReported : Crash → Bool
  | .settings fault => fault.isReported
  | _ => false

/-- No option names an output file, and the setting does with something that is no text. -/
def NamesNoFile (option : Option (OptionValue Path)) (setting : Value) : Prop :=
  option = none ∧ setting.isTrue = true ∧ ∀ s, setting ≠ .text s

theorem outputPath_spec (option : Option (OptionValue Path)) (setting : Value) :
    (∃ p, outputPath option setting = .ok p) ∧ ¬ NamesNoFile option setting ∨
      outputPath option setting = .error .notPath ∧ NamesNoFile option setting := by
  match option with
  | some (.value p) | some .blank => simp [outputPath, NamesNoFile]
  | none =>
    cases htrue : setting.isTrue with
    | false => simp [outputPath, NamesNoFile, htrue]
    | true => cases setting <;> simp_all [outputPath, NamesNoFile]

/-- The fault is in a scalar, which has the form of a value and stands for none. -/
def Yaml.Fault.OfScalar : Yaml.Fault → Prop
  | .malformed | .endless | .undecodable _ => False
  | .noCharacter | .overflow | .noNumber | .notInteger _ _ | .notReal _ | .tooLong _ | .noMoment _
  | .notMoment | .notTruth | .notScalar => True

namespace ScanOptions

open Settings

variable (options : ScanOptions)

/-- What a document can hold that ends the program. -/
inductive Misread (document : Value) : Prop
  /-- The analysis section is a list, a set or a text without the name of the first setting. -/
  | lacks : Lacks "solver-timeout-ms" (sectionOf document "analysis") → Misread document
  | overflows : sectionOf document "analysis" = .object fields → Overflows (numbers fields) →
      Misread document
  /-- The analysis section is good, and the output section is no mapping. -/
  | output : analysisOf (sectionOf document "analysis") = .ok a →
      (∀ fields, sectionOf document "output" ≠ .object fields) → Misread document
  | file : analysisOf (sectionOf document "analysis") = .ok a →
      sectionOf document "output" = .object fields →
      NamesNoFile options.outputJson (entry fields "json-file" .null) ∨
        NamesNoFile options.outputSarif (entry fields "sarif-file" .null) → Misread document

/-- What a file can hold that ends the program. -/
inductive Unreported : Except Yaml.Fault Value → Prop
  | undecodable : Unreported (.error (.undecodable why))
  | endless : Unreported (.error .endless)
  | scalar : why.OfScalar → Unreported (.error why)
  | document : options.Misread (.object fields) → Unreported (.ok (.object fields))

/-- The settings of a scan, by the content of its settings file. -/
def load (path : String) (content : List UInt8) : Except Crash ScanSettings :=
  (Settings.ofBytes path content).mapError .settings >>= options.apply

theorem limited_iff (h : Valid s) : ScanSettings.Limited ⟨options.override s, options.blanks, j, r⟩ ↔
    Positive options.timeoutMs ∧ Positive options.workers := by
  have hone : ∀ (o : Option (OptionValue Int)) {n : Int}, 0 < n →
      (0 < OptionValue.getD n o ∧ (o == some .blank) = false ↔ Positive o) := by
    rintro (_ | _ | _) n hn <;> simp [OptionValue.getD, Positive, hn]
  rw [← hone _ h.1, ← hone _ h.2]
  simp only [ScanSettings.Limited, Valid, override, blanks]
  tauto

/-- The settings of the file are valid, and options have replaced limits unchecked. -/
def Adjusts (s : Settings) (r : ScanSettings) : Prop :=
  Valid s.analysis ∧ r.analysis = options.override s.analysis ∧
    (r.Limited ↔ Positive options.timeoutMs ∧ Positive options.workers)

/-- Options are applied unless a file is named by something that is no text. -/
theorem settles_apply (h : Valid s.analysis) : Settles Crash.isReported (options.Adjusts s)
    (NamesNoFile options.outputJson s.output.jsonFile ∨
      NamesNoFile options.outputSarif s.output.sarifFile) (options.apply s) := by
  unfold apply
  obtain ⟨⟨json, hjson⟩, hnot⟩ | ⟨hjson, hno⟩ :=
    outputPath_spec options.outputJson s.output.jsonFile
  · obtain ⟨⟨sarif, hsarif⟩, hnot'⟩ | ⟨hsarif, hno⟩ :=
      outputPath_spec options.outputSarif s.output.sarifFile
    · rw [hjson, hsarif]
      exact .inl ⟨_, rfl, ⟨h, rfl, options.limited_iff h⟩, not_or.2 ⟨hnot, hnot'⟩⟩
    · rw [hjson, hsarif]
      exact .inr ⟨.notPath, rfl, iff_of_true rfl (.inr hno)⟩
  · rw [hjson]
    exact .inr ⟨.notPath, rfl, iff_of_true rfl (.inl hno)⟩

theorem settles_document (document : Value) :
    Settles Crash.isReported (fun r => ∃ s, ofValue document = .ok s ∧ options.Adjusts s r)
      (options.Misread document) ((ofValue document).mapError .settings >>= options.apply) := by
  obtain ⟨a, ha, hvalid, hnot⟩ | ⟨fault, hfault, hescapes⟩ :=
    settles_analysisOf (sectionOf document "analysis")
  · obtain ⟨fields, hfields, ho⟩ | ⟨hout, why, ho⟩ := outputOf_spec (sectionOf document "output")
    · have hread : ofValue document =
          .ok ⟨a, entry fields "json-file" .null, entry fields "sarif-file" .null⟩ := by
        rw [ofValue, ha, ho]
        rfl
      have hwrong : options.Misread document ↔
          NamesNoFile options.outputJson (entry fields "json-file" .null) ∨
            NamesNoFile options.outputSarif (entry fields "sarif-file" .null) := by
        refine ⟨fun h => ?_, .file ha hfields⟩
        cases h with
        | lacks h => exact absurd (.inl h) hnot
        | overflows h hover => exact absurd (.inr ⟨_, h, hover⟩) hnot
        | output _ h => exact absurd hfields (h fields)
        | file _ h hfile =>
          cases hfields.symm.trans h
          exact hfile
      rw [hread, hwrong]
      refine (options.settles_apply hvalid).imp_left ?_
      rintro ⟨r, hr, hadjusts, hnot⟩
      exact ⟨r, hr, ⟨_, rfl, hadjusts⟩, hnot⟩
    · have hread : ofValue document = .error (.output why) := by
        rw [ofValue, ha, ho]
        rfl
      rw [hread]
      exact .inr ⟨.settings (.output why), rfl, iff_of_true rfl (.output ha hout)⟩
  · have hread : ofValue document = .error fault := by
      rw [ofValue, hfault]
      rfl
    rw [hread]
    refine .inr ⟨.settings fault, rfl, hescapes.trans ⟨fun h => ?_, fun h => ?_⟩⟩
    · obtain h | ⟨fields, h, hover⟩ := h
      · exact .lacks h
      · exact .overflows h hover
    · cases h with
      | lacks h => exact .inl h
      | overflows h hover => exact .inr ⟨_, h, hover⟩
      | output h | file h => cases h.symm.trans hfault

end ScanOptions

namespace Settings

end Settings

end ControlReach
