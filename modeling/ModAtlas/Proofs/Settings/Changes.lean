import ModAtlas.Proofs.Json.Merging
import ModAtlas.Settings.Property

/-!
# Changes of settings

Whether a setting takes a value does not depend on what the settings are: a call that changes a
setting writes what the setting takes under its key, and a call whose value is refused leaves all
settings as they are. So after any calls the language is the one that was taken last. It is a
language code; a line feed may stand at its end.
-/

namespace ModAtlas.Settings
open ModAtlas.Json ModAtlas.Files ModAtlas.Journal

/-! ## Calls -/

/-- A call that changes a setting. -/
structure Call where
  property : Property
  value : Value

/-- What is kept of a path. -/
def pathText? : Value → Option Value
  | .null => some (.str "")
  | .str text => some (.str (Path.ofString text).toString)
  | _ => none

/-- The language code that a value is. -/
def languageCode? : Value → Option String
  | .str code => if isLanguageCode code then some code else none
  | _ => none

/-- A value that counts as a number above zero. -/
def positive? (v : Value) : Option Value :=
  if v.quantity?.any (Number.lt (.int 0)) then some v else none

/-- The level that a value names, by its name. -/
def levelName? : Value → Option Value
  | .str name => (Level.ofName? (Text.upper name)).map fun level => .str level.name
  | _ => none

/-- What a setting takes of a value, with the key under which it is written. Nothing is written
when the value is refused. -/
def Property.written? : Property → Value → Option (String × Value)
  | .version, _ => none
  | .logFilePath, _ => none
  | .workspacePath, v => (pathText? v).map (Profile.workspaceKey, ·)
  | .schemasPath, v => (pathText? v).map (Profile.schemasKey, ·)
  | .language, v => (languageCode? v).map (Profile.languageKey, .str ·)
  | .searchMaxDepth, v => v.quantity?.map fun n => (Profile.depthKey, limited n v)
  | .maxPreviewKb, v => (positive? v).map (Profile.previewKey, ·)
  | .readyTimeout, v => (positive? v).map (Profile.timeoutKey, ·)
  | .consoleLogging, v => some (Profile.consoleKey, v)
  | .consoleUseColors, v => some (Profile.colorsKey, v)
  | .fileLogging, v => some (Profile.fileKey, v)
  | .consoleLogLevel, v => (levelName? v).map (Profile.consoleLevelKey, ·)
  | .editorLogLevel, v => (levelName? v).map (Profile.editorLevelKey, ·)
  | .editorMaxLines, v => (positive? v).map (Profile.editorLinesKey, ·)

/-- The language that a call sets. -/
def Call.language? (c : Call) : Option String :=
  match c.property with
  | .language => languageCode? c.value
  | _ => none

namespace Profile
variable {s : Profile} {calls : List Call}

/-- The settings after a change. One that fails leaves them as they are. -/
def kept (s : Profile) : Except SettingError Change → Profile
  | .ok change => change.1
  | .error _ => s

/-- The settings after a call. -/
def after (s : Profile) (c : Call) : Profile := s.kept (s.set c.property c.value)

/-- The settings after calls, one after the other. -/
def afterAll (s : Profile) (calls : List Call) : Profile := calls.foldl after s

/-- The settings with something written under a key, if anything is. -/
def putting (s : Profile) : Option (String × Value) → Profile
  | some (key, v) => s.put key v
  | none => s

/-! ## One call -/

theorem kept_setPath (s : Profile) (key : String) (v : Value) :
    s.kept (s.setPath key v) = s.putting ((pathText? v).map (key, ·)) := by
  cases v <;> rfl

theorem kept_setLanguage (s : Profile) (v : Value) :
    s.kept (s.setLanguage v) = s.putting ((languageCode? v).map (languageKey, .str ·)) := by
  cases v with
  | str code =>
      rw [setLanguage, languageCode?]
      by_cases h : isLanguageCode code = true
      · rw [if_pos h, if_pos h]
        rfl
      · rw [if_neg h, if_neg h]
        rfl
  | _ => rfl

theorem kept_setSearchDepth (s : Profile) (v : Value) :
    s.kept (s.setSearchDepth v) =
      s.putting (v.quantity?.map fun n => (depthKey, limited n v)) := by
  rw [setSearchDepth]
  cases v.quantity? <;> rfl

/-- Whatever is said of a value that is not positive, nothing is written. -/
theorem kept_setPositive (s : Profile) (key : String)
    (refuse : Except SettingError (List Notice)) (v : Value) :
    s.kept (s.setPositive key refuse v) = s.putting ((positive? v).map (key, ·)) := by
  rw [setPositive, positive?]
  cases v.quantity? with
  | none => rfl
  | some n =>
      rw [Option.any_some]
      by_cases h : Number.lt (.int 0) n = true
      · rw [if_pos h]
        dsimp only
        rw [if_pos h]
        rfl
      · rw [if_neg h]
        dsimp only
        rw [if_neg h]
        cases refuse <;> rfl

theorem kept_setLevel (s : Profile) (key current : String) (v : Value) :
    s.kept (s.setLevel key current v) = s.putting ((levelName? v).map (key, ·)) := by
  cases v with
  | str name =>
      rw [setLevel, levelName?]
      cases Level.ofName? (Text.upper name) <;> rfl
  | _ => rfl

/-- A call writes what the setting takes under its key, and nothing else. -/
theorem after_eq (s : Profile) (c : Call) :
    s.after c = s.putting (c.property.written? c.value) := by
  obtain ⟨p, v⟩ := c
  rw [after]
  cases p with
  | workspacePath => exact kept_setPath s workspaceKey v
  | schemasPath => exact kept_setPath s schemasKey v
  | language => exact kept_setLanguage s v
  | searchMaxDepth => exact kept_setSearchDepth s v
  | maxPreviewKb => exact kept_setPositive s previewKey _ v
  | readyTimeout => exact kept_setPositive s timeoutKey _ v
  | editorMaxLines => exact kept_setPositive s editorLinesKey _ v
  | consoleLogLevel => exact kept_setLevel s consoleLevelKey _ v
  | editorLogLevel => exact kept_setLevel s editorLevelKey _ v
  | version | logFilePath | consoleLogging | consoleUseColors | fileLogging => rfl

/-! ## What stands under a key -/

theorem fullKey_inj {k key : String} : s.fullKey k = s.fullKey key ↔ k = key := by
  constructor
  · intro h
    have hlist := congrArg String.toList h
    simp only [fullKey, String.toList_append, List.append_cancel_left_eq] at hlist
    exact String.toList_injective hlist
  · rintro rfl
    rfl

theorem value?_put (s : Profile) (key : String) (v : Value) (k : String) :
    (s.put key v).value? k = if k = key then some v else s.value? k := by
  have hput : (s.put key v).value? k =
      (Members.put (s.fullKey key) v s.store.entries).get? (s.fullKey k) := rfl
  rw [hput, Members.get?_put, value?]
  simp only [fullKey_inj]

/-- Only the language is written under its key. -/
theorem key_ne_languageKey {p : Property} {v w : Value} {key : String} (hp : p ≠ .language)
    (h : p.written? v = some (key, w)) : languageKey ≠ key := by
  cases p with
  | language => exact absurd rfl hp
  | version | logFilePath => cases h
  | consoleLogging | consoleUseColors | fileLogging =>
      cases h
      decide
  | _ =>
      obtain ⟨_, -, hpair⟩ := Option.map_eq_some_iff.mp h
      cases hpair
      decide

/-! ## The language -/

theorem value?_language_after (s : Profile) (c : Call) :
    (s.after c).value? languageKey = (c.language?.map .str).or (s.value? languageKey) := by
  obtain ⟨p, v⟩ := c
  rw [after_eq]
  by_cases hp : p = .language
  · subst hp
    change (s.putting ((languageCode? v).map (languageKey, Value.str ·))).value? languageKey =
      ((languageCode? v).map .str).or (s.value? languageKey)
    cases languageCode? v with
    | none => rfl
    | some code => rw [Option.map_some, putting, value?_put, if_pos rfl]; rfl
  · have hnone : Call.language? ⟨p, v⟩ = none := by
      cases p with
      | language => exact absurd rfl hp
      | _ => rfl
    rw [hnone, Option.map_none, Option.none_or]
    cases hwritten : p.written? v with
    | none => rfl
    | some w => rw [putting, value?_put, if_neg (key_ne_languageKey hp hwritten)]

/-- After calls that one stands under the key of the language which was taken last. -/
theorem value?_language_afterAll (s : Profile) (calls : List Call) :
    (s.afterAll calls).value? languageKey =
      ((calls.filterMap Call.language?).getLast?.map .str).or (s.value? languageKey) := by
  induction calls using List.reverseRecOn with
  | nil => rfl
  | append_singleton calls c ih =>
      have hstep : s.afterAll (calls ++ [c]) = (s.afterAll calls).after c := by
        rw [afterAll, List.foldl_append]
        rfl
      rw [hstep, value?_language_after, ih, List.filterMap_append, List.getLast?_append]
      cases hc : c.language? <;> simp [hc]

end Profile

/-! ## Language codes -/

/-- A text of ASCII letters, digits, underscores and hyphens, at least one. -/
def IsPlainCode (text : String) : Prop :=
  text ≠ "" ∧ ∀ c ∈ text.toList, c.isAlphanum ∨ c = '_' ∨ c = '-'

instance (text : String) : Decidable (IsPlainCode text) :=
  have : Decidable (∀ c ∈ text.toList, c.isAlphanum ∨ c = '_' ∨ c = '-') :=
    List.decidableBAll _ text.toList
  inferInstanceAs (Decidable (_ ∧ _))

theorem isCodeChar_iff {c : Char} : isCodeChar c = true ↔ c.isAlphanum ∨ c = '_' ∨ c = '-' := by
  have halphanum : c.isAlphanum = (decide ('A' ≤ c ∧ c ≤ 'Z') || ('a' ≤ c && c ≤ 'z') ||
      ('0' ≤ c && c ≤ '9')) := by
    rfl
  rw [isCodeChar, ← Bool.decide_and, ← halphanum, Bool.or_eq_true, Bool.or_eq_true, beq_iff_eq,
    beq_iff_eq, or_assoc]

theorem isPlainCode_iff {text : String} :
    IsPlainCode text ↔ text.toList ≠ [] ∧ ∀ c ∈ text.toList, isCodeChar c = true := by
  simp only [IsPlainCode, isCodeChar_iff, ne_eq, String.toList_eq_nil_iff]

theorem IsPlainCode.getLast?_ne {text : String} (h : IsPlainCode text) :
    text.toList.getLast? ≠ some '\n' := by
  intro hlast
  have hchar := (isPlainCode_iff.mp h).2 _ (List.mem_of_getLast? hlast)
  exact absurd hchar (by decide)

/-- The check looks at the text without the line feed that may end it. -/
theorem isLanguageCode_eq_true_iff {text : String} : isLanguageCode text = true ↔
    IsPlainCode (String.ofList (Text.dropLastNewline text.toList)) := by
  rw [isPlainCode_iff, String.toList_ofList]
  simp [isLanguageCode]

/-- Of the texts that pass the check those are plain codes that no line feed ends. -/
theorem isPlainCode_iff_getLast?_ne {text : String} (h : isLanguageCode text = true) :
    IsPlainCode text ↔ text.toList.getLast? ≠ some '\n' := by
  constructor
  · exact IsPlainCode.getLast?_ne
  · intro hlast
    rwa [isLanguageCode_eq_true_iff, Text.dropLastNewline, if_neg hlast,
      String.ofList_toList] at h

/-- What passes the check is a code, with at most one line feed behind it. -/
theorem exists_code_of_isLanguageCode {text : String} (h : isLanguageCode text = true) :
    ∃ code, IsPlainCode code ∧ (text = code ∨ text = code ++ "\n") := by
  by_cases hlast : text.toList.getLast? = some '\n'
  · refine ⟨_, isLanguageCode_eq_true_iff.mp h, .inr (String.toList_injective ?_)⟩
    rw [String.toList_append, String.toList_ofList, Text.dropLastNewline, if_pos hlast]
    exact (List.dropLast_append_getLast? '\n' hlast).symm
  · exact ⟨text, (isPlainCode_iff_getLast?_ne h).mpr hlast, .inl rfl⟩

theorem isLanguageCode_of_language? {c : Call} {text : String} (h : c.language? = some text) :
    isLanguageCode text = true := by
  obtain ⟨p, v⟩ := c
  cases p with
  | language =>
      change languageCode? v = some text at h
      cases v with
      | str code =>
          rw [languageCode?] at h
          split at h
          · rename_i hcode
            cases h
            exact hcode
          · cases h
      | _ => cases h
  | _ => cases h

/-! ## After any calls -/

/-- After any calls on settings without a language the language is the one that was taken last, or
else the standard one. It is always a language code with at most one line feed behind it, and
one stands there exactly if it stood in the text that was taken last. A refused value leaves all
settings as they are. -/
theorem language_afterAll (s : Profile) (calls : List Call)
    (h : s.value? Profile.languageKey = none) :
    let last := (calls.filterMap Call.language?).getLast?
    let language := (s.afterAll calls).language
    language = last.getD Profile.standardLanguage ∧
      (∃ code, IsPlainCode code ∧ (language = code ∨ language = code ++ "\n")) ∧
      (IsPlainCode language ↔ ∀ text ∈ last, text.toList.getLast? ≠ some '\n') ∧
      ∀ c : Call,
        (c.property.written? c.value = none → (s.afterAll calls).after c = s.afterAll calls) ∧
        ∀ key w, c.property.written? c.value = some (key, w) →
          (s.afterAll calls).after c = (s.afterAll calls).put key w := by
  intro last language
  have hstored : (s.afterAll calls).value? Profile.languageKey = last.map .str := by
    rw [Profile.value?_language_afterAll, h, Option.or_none]
  have hcalls : ∀ c : Call,
      (c.property.written? c.value = none → (s.afterAll calls).after c = s.afterAll calls) ∧
      ∀ key w, c.property.written? c.value = some (key, w) →
        (s.afterAll calls).after c = (s.afterAll calls).put key w := by
    refine fun c => ⟨fun hnone => ?_, fun key w hsome => ?_⟩
    · rw [Profile.after_eq, hnone]
      rfl
    · rw [Profile.after_eq, hsome]
      rfl
  cases hlast : last with
  | none =>
      have hlanguage : language = Profile.standardLanguage := by
        change Profile.language _ = _
        rw [Profile.language, Profile.text, hstored, hlast]
        rfl
      have hplain : IsPlainCode language := by
        rw [hlanguage]
        decide
      exact ⟨hlanguage, ⟨language, hplain, .inl rfl⟩,
        ⟨fun _ _ htext => (by cases htext), fun _ => hplain⟩, hcalls⟩
  | some text =>
      obtain ⟨c, -, hc⟩ := List.mem_filterMap.mp (List.mem_of_getLast? hlast)
      have hcode := isLanguageCode_of_language? hc
      have hne : text ≠ "" := by
        rintro rfl
        revert hcode
        decide
      have hlanguage : language = text := by
        change Profile.language _ = _
        rw [Profile.language, Profile.text, hstored, hlast]
        exact if_neg (by simpa [Value.plain] using hne)
      rw [hlanguage]
      refine ⟨rfl, exists_code_of_isLanguageCode hcode, ?_, hcalls⟩
      rw [isPlainCode_iff_getLast?_ne hcode]
      exact ⟨fun hends _ htext => by cases htext; exact hends, fun hall => hall text rfl⟩

/-- On a fresh profile the language of the calls is `de`: a way out of the folder, a text for a
number and a number for a text are refused, and a later limit is kept beside it. -/
theorem language_afterAll_fresh :
    let fresh : Profile := ⟨"default", ⟨[("default/app/version", .str "1.0")], .noError⟩⟩
    let calls : List Call := [⟨.language, .str "fr\n"⟩, ⟨.language, .str "de"⟩,
      ⟨.language, .str "../etc"⟩, ⟨.maxPreviewKb, .str "250"⟩, ⟨.language, .num (.int 7)⟩,
      ⟨.searchMaxDepth, .num (.int 100)⟩]
    fresh.value? Profile.languageKey = none ∧
      (fresh.afterAll calls).language = "de" ∧ IsPlainCode (fresh.afterAll calls).language ∧
      (fresh.afterAll calls).after ⟨.language, .str ""⟩ = fresh.afterAll calls := by
  intro fresh calls
  have hnone : fresh.value? Profile.languageKey = none := by rfl
  obtain ⟨hlanguage, -, hplain, hcalls⟩ := language_afterAll fresh calls hnone
  have hlast : (calls.filterMap Call.language?).getLast? = some "de" := by decide
  rw [hlast] at hlanguage hplain
  refine ⟨hnone, hlanguage, hplain.mpr ?_, (hcalls _).1 (by decide)⟩
  rintro text ⟨⟩
  decide

/-- A line feed at the end of a language is kept. -/
theorem not_forall_isPlainCode :
    ¬ ∀ (s : Profile) (calls : List Call), s.value? Profile.languageKey = none →
      IsPlainCode (s.afterAll calls).language := by
  intro h
  have hplain := h ⟨"default", ⟨[], .noError⟩⟩ [⟨.language, .str "en\n"⟩] (by rfl)
  revert hplain
  decide

end ModAtlas.Settings
