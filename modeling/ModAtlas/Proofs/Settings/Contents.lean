import ModAtlas.Journal.Basic
import ModAtlas.Proofs.Number.Decimal
import ModAtlas.Proofs.Number.Overflow
import ModAtlas.Proofs.Settings.Changes

/-!
# Contents of settings

Settings are read from a store that can hold anything. Of all contents only these cannot be read:
infinity where a whole number is due, and an integer beyond all floating point numbers where one of
those is due. Of what is read a setting takes everything but a number of lines below one, a
language that is no code, and a level that is none of the five. The journal opens unless a level
has one of two names or the number of lines is no capacity. Contents with an integer too long to
be shown, where a text is looked for, are left aside.
-/

namespace ModAtlas.Settings
open ModAtlas.Json ModAtlas.Files ModAtlas.Journal

/-- What is read, as it is given to a setting. -/
def Content.given : Content → Value
  | .value v => v
  | .path p => .str p.toString

/-- A setting would take what it is read as. Those that cannot be changed take nothing. -/
def Property.Takes (p : Property) (c : Content) : Prop :=
  p = .version ∨ p = .logFilePath ∨ (p.written? c.given).isSome = true

namespace Profile
variable {s : Profile} {key : String} {v : Value}

/-- The keys under which a text is looked for. The number of lines is read from a text as well. -/
def textKeys : List String :=
  [versionKey, workspaceKey, languageKey, schemasKey, consoleLevelKey, editorLevelKey,
    editorLinesKey]

/-- No integer is kept for a text that has more digits than a text may show. -/
def IsLegible (s : Profile) : Prop :=
  ∀ key ∈ textKeys, ∀ n, s.value? key = some (.num (.int n)) → n.natAbs < 10 ^ Number.digitLimit

/-- Infinity is kept under a key. -/
def IsInfinite (s : Profile) (key : String) : Prop :=
  ∃ negative, s.value? key = some (.num (.real (.infinite negative)))

/-- An integer is kept that is rounded to infinity. -/
def IsTooGreat (s : Profile) (key : String) : Prop :=
  ∃ n, s.value? key = some (.num (.int n)) ∧ Binary64.firstInfinite ≤ n.natAbs

/-- Something is kept, with a property of its text. -/
def Shows (s : Profile) (key : String) (P : String → Prop) : Prop :=
  ∃ v, s.value? key = some v ∧ v ≠ .null ∧ P v.plain

/-- An integer below one is kept, or a text that is read as one. -/
def IsLow (s : Profile) (key : String) : Prop :=
  ∃ n : Int, n < 1 ∧ (s.value? key = some (.num (.int n)) ∨
    ∃ text, s.value? key = some (.str text) ∧ Number.readInt? text.toList = some n)

/-- A setting cannot be read. -/
def Breaks (s : Profile) : Property → Prop
  | .searchMaxDepth => s.IsInfinite depthKey
  | .maxPreviewKb => s.IsInfinite previewKey
  | .readyTimeout => s.IsTooGreat timeoutKey
  | _ => False

/-- A setting is read as what it would not take. -/
def Misleads (s : Profile) : Property → Prop
  | .editorMaxLines => s.IsLow editorLinesKey
  | .language => s.Shows languageKey fun text => text ≠ "" ∧ isLanguageCode text = false
  | .consoleLogLevel => s.Shows consoleLevelKey fun text => Level.ofName? (Text.upper text) = none
  | .editorLogLevel => s.Shows editorLevelKey fun text => Level.ofName? (Text.upper text) = none
  | _ => False

/-! ## Texts -/

/-- What is read as a text has a property unless what is kept shows otherwise. -/
theorem text_iff_not_shows (key default : String) {P : String → Prop} (hdefault : P default) :
    P (s.text key default) ↔ ¬ s.Shows key fun text => ¬ P text := by
  rw [text]
  split
  · rename_i hnone
    refine iff_of_true hdefault ?_
    rintro ⟨v, hsome, -⟩
    rw [hnone] at hsome
    cases hsome
  · rename_i hnull
    refine iff_of_true hdefault ?_
    rintro ⟨v, hsome, hv, -⟩
    rw [hnull] at hsome
    cases hsome
    exact hv rfl
  · rename_i v hv hkept
    constructor
    · rintro hP ⟨w, hsome, -, hnot⟩
      rw [hkept] at hsome
      cases hsome
      exact hnot hP
    · intro h
      by_contra hnot
      exact h ⟨v, hkept, hv, hnot⟩

theorem language_ne_empty (s : Profile) : s.language ≠ "" := by
  rw [language]
  split
  · decide
  · rename_i h
    simpa using h

/-- The language is a code unless a text is kept that is none. -/
theorem isLanguageCode_language_iff :
    isLanguageCode s.language = true ↔ ¬ s.Misleads .language := by
  have hiff := text_iff_not_shows languageKey standardLanguage (s := s)
    (P := fun text => text = "" ∨ isLanguageCode text = true) (.inr (by decide))
  have hlanguage : isLanguageCode s.language = true ↔
      s.text languageKey standardLanguage = "" ∨
        isLanguageCode (s.text languageKey standardLanguage) = true := by
    rw [language]
    split
    · rename_i h
      exact iff_of_true (by decide) (.inl (by simpa using h))
    · rename_i h
      exact ⟨.inr, fun hor => hor.resolve_left (by simpa using h)⟩
  rw [hlanguage, hiff]
  simp only [Misleads, not_or, Bool.not_eq_true]

/-- A level is one of the five unless a text is kept that names none. -/
theorem isSome_levelName?_iff :
    (levelName? (.str (s.text key standardLevel))).isSome = true ↔
      ¬ s.Shows key fun text => Level.ofName? (Text.upper text) = none := by
  have hiff := text_iff_not_shows key standardLevel (s := s)
    (P := fun text => Level.ofName? (Text.upper text) ≠ none) (by decide)
  rw [levelName?, Option.isSome_map, Option.isSome_iff_ne_none, hiff]
  simp only [ne_eq, not_not]

/-! ## Numbers -/

theorem exists_map_eq_ok {ε α β : Type} {e : Except ε α} {f : α → β} :
    (∃ y, e.map f = .ok y) ↔ ∃ x, e = .ok x := by
  cases e <;> simp [Except.map]

theorem map_eq_ok {ε α β : Type} {e : Except ε α} {f : α → β} {y : β} (h : e.map f = .ok y) :
    ∃ x, e = .ok x ∧ y = f x := by
  cases e with
  | error e => cases h
  | ok x => exact ⟨x, rfl, (Except.ok.inj h).symm⟩

/-- A whole number is read unless infinity is kept. -/
theorem integer_ok_iff {default : Int} :
    (∃ n, s.integer key default = .ok n) ↔ ¬ s.IsInfinite key := by
  rw [integer, IsInfinite]
  cases hkept : s.value? key with
  | none => simp [toInteger]
  | some v =>
      cases v with
      | num n =>
          cases n with
          | int n => simp [toInteger]
          | real x => cases x <;> simp [toInteger, Binary64.truncate?, Binary64.ratio?]
      | _ => simp [toInteger]

/-- A floating point number is read unless an integer is kept that is rounded to infinity. -/
theorem real_ok_iff {default : Binary64} :
    (∃ x, s.real key default = .ok x) ↔ ¬ s.IsTooGreat key := by
  rw [real, IsTooGreat]
  cases hkept : s.value? key with
  | none => simp [toReal]
  | some v =>
      cases v with
      | num n =>
          cases n with
          | int n =>
              have hfinite : (Binary64.ofInt n).isFinite = true ↔
                  n.natAbs < Binary64.firstInfinite := Binary64.isFinite_ofRatio_iff
              rw [Option.getD_some, toReal, realOfInteger]
              split
              · rename_i h
                simpa using hfinite.mp h
              · rename_i h
                simpa using mt hfinite.mpr h
          | real x => simp [toReal]
      | _ => simp [toReal]

/-- The number of lines is what is kept as an integer or as the text of one. -/
theorem editorLines_eq (h : s.IsLegible) : s.editorLines =
    match s.value? editorLinesKey with
    | some (.num (.int n)) => n
    | some (.str text) => (Number.readInt? text.toList).getD 1000
    | _ => 1000 := by
  have hstandard {text : List Char} (hnone : Number.readInt? text = none) :
      (Number.readInt? text).getD 1000 = 1000 := by
    rw [hnone]
    rfl
  rw [editorLines]
  cases hkept : s.value? editorLinesKey with
  | none => rfl
  | some v =>
      cases v with
      | num n =>
          cases n with
          | int n =>
              change (Number.readInt? (toString n).toList).getD 1000 = n
              rw [Number.readInt?_toString (h editorLinesKey (by decide) n hkept)]
              rfl
          | real x => exact hstandard (Number.readInt?_text x)
      | null => rfl
      | str text => rfl
      | bool b => cases b <;> decide
      | arr items =>
          have hopening : '[' ∈ (Value.arr items).plain.toList := by
            simp [Value.plain, Value.literal]
          exact hstandard (Number.readInt?_eq_none (by decide) hopening)
      | obj members =>
          have hopening : '\x7b' ∈ (Value.obj members).plain.toList := by
            simp [Value.plain, Value.literal]
          exact hstandard (Number.readInt?_eq_none (by decide) hopening)

/-- The number of lines is positive unless an integer below one is kept, or the text of one. -/
theorem one_le_editorLines_iff (h : s.IsLegible) :
    1 ≤ s.editorLines ↔ ¬ s.Misleads .editorMaxLines := by
  rw [editorLines_eq h]
  constructor
  · rintro hle ⟨n, hlow, hkept | ⟨text, hkept, hread⟩⟩
    · rw [hkept] at hle
      exact absurd hle (Int.not_le.mpr hlow)
    · rw [hkept] at hle
      dsimp only at hle
      rw [hread] at hle
      exact absurd hle (Int.not_le.mpr hlow)
  · intro hnot
    by_contra hlow
    apply hnot
    split at hlow
    · rename_i n hkept
      exact ⟨n, Int.not_le.mp hlow, .inl hkept⟩
    · rename_i text hkept
      cases hread : Number.readInt? text.toList with
      | none =>
          rw [hread] at hlow
          exact absurd (by decide) hlow
      | some n =>
          rw [hread] at hlow
          exact ⟨n, Int.not_le.mp hlow, .inr ⟨text, hkept, hread⟩⟩
    · exact absurd (by decide) hlow

/-! ## Limits -/

theorem mem_depths_of_searchDepth {n : Int} (h : s.searchDepth = .ok n) : 1 ≤ n ∧ n ≤ 32 := by
  obtain ⟨m, -, rfl⟩ := map_eq_ok h
  rw [withinDepths]
  omega

theorem one_le_of_maxPreview {n : Int} (h : s.maxPreview = .ok n) : 1 ≤ n := by
  obtain ⟨m, -, rfl⟩ := map_eq_ok h
  exact Int.le_max_left 1 m

theorem pos_of_readyTimeout {x : Binary64} (h : s.readyTimeout = .ok x) :
    Number.lt (.int 0) (.real x) = true := by
  obtain ⟨y, -, rfl⟩ := map_eq_ok h
  split
  · rename_i hpos
    exact hpos
  · decide +kernel

/-! ## All settings -/

/-- A setting can be read unless it breaks. -/
theorem get_ok_iff (s : Profile) (p : Property) : (∃ c, s.get p = .ok c) ↔ ¬ s.Breaks p := by
  cases p with
  | searchMaxDepth =>
      rw [get, exists_map_eq_ok, searchDepth, exists_map_eq_ok, integer_ok_iff, Breaks]
  | maxPreviewKb =>
      rw [get, exists_map_eq_ok, maxPreview, exists_map_eq_ok, integer_ok_iff, Breaks]
  | readyTimeout =>
      rw [get, exists_map_eq_ok, readyTimeout, exists_map_eq_ok, real_ok_iff, Breaks]
  | _ => exact iff_of_true ⟨_, rfl⟩ id

theorem isSome_positive?_iff {n : Number} :
    (positive? (.num n)).isSome = true ↔ Number.lt (.int 0) n = true := by
  change (if Number.lt (.int 0) n then some (Value.num n) else none).isSome = true ↔ _
  split <;> simp_all

theorem lt_int_iff {m n : Int} : Number.lt (.int m) (.int n) = true ↔ m < n := by
  simp [Number.lt, Number.ratio?]

/-- What a setting is read as it would take unless it misleads. -/
theorem takes_iff (h : s.IsLegible) {p : Property} {c : Content} (hread : s.get p = .ok c) :
    p.Takes c ↔ ¬ s.Misleads p := by
  have hchanged (hversion : p ≠ .version) (hfile : p ≠ .logFilePath) :
      p.Takes c ↔ (p.written? c.given).isSome = true := by
    simp [Property.Takes, hversion, hfile]
  cases p with
  | version => exact iff_of_true (.inl rfl) id
  | logFilePath => exact iff_of_true (.inr (.inl rfl)) id
  | workspacePath =>
      cases hread
      rw [hchanged (by decide) (by decide)]
      cases s.workspace? <;> exact iff_of_true rfl id
  | schemasPath =>
      cases hread
      rw [hchanged (by decide) (by decide)]
      cases s.schemas? <;> exact iff_of_true rfl id
  | language =>
      cases hread
      rw [hchanged (by decide) (by decide), ← isLanguageCode_language_iff]
      change ((languageCode? (.str s.language)).map _).isSome = true ↔ _
      rw [Option.isSome_map, languageCode?]
      split <;> simp_all
  | searchMaxDepth =>
      obtain ⟨n, -, rfl⟩ := map_eq_ok hread
      rw [hchanged (by decide) (by decide)]
      exact iff_of_true rfl id
  | maxPreviewKb =>
      obtain ⟨n, hn, rfl⟩ := map_eq_ok hread
      rw [hchanged (by decide) (by decide)]
      refine iff_of_true ?_ id
      change ((positive? (.num (.int n))).map _).isSome = true
      rw [Option.isSome_map, isSome_positive?_iff, lt_int_iff]
      exact one_le_of_maxPreview hn
  | readyTimeout =>
      obtain ⟨x, hx, rfl⟩ := map_eq_ok hread
      rw [hchanged (by decide) (by decide)]
      refine iff_of_true ?_ id
      change ((positive? (.num (.real x))).map _).isSome = true
      rw [Option.isSome_map, isSome_positive?_iff]
      exact pos_of_readyTimeout hx
  | consoleLogging | consoleUseColors | fileLogging =>
      cases hread
      rw [hchanged (by decide) (by decide)]
      exact iff_of_true rfl id
  | consoleLogLevel | editorLogLevel =>
      cases hread
      rw [hchanged (by decide) (by decide), Misleads, ← isSome_levelName?_iff]
      change ((levelName? _).map _).isSome = true ↔ _
      rw [Option.isSome_map]
      rfl
  | editorMaxLines =>
      cases hread
      rw [hchanged (by decide) (by decide), ← one_le_editorLines_iff h]
      change ((positive? (.num (.int s.editorLines))).map _).isSome = true ↔ _
      rw [Option.isSome_map, isSome_positive?_iff, lt_int_iff]
      rfl

end Profile

/-! ## Opening the journal -/

/-- A text that a threshold can be had from: every text but the names of two layouts. -/
def NamesThreshold (text : String) : Prop :=
  Text.upper text ≠ "BASIC_FORMAT" ∧ Text.upper text ≠ "_STYLES"

instance (text : String) : Decidable (NamesThreshold text) :=
  inferInstanceAs (Decidable (Text.upper text ≠ "BASIC_FORMAT" ∧ Text.upper text ≠ "_STYLES"))

theorem threshold_ok_iff {text : String} :
    (∃ threshold, Threshold.ofText text = .ok threshold) ↔ NamesThreshold text := by
  rw [NamesThreshold, Threshold.ofText]
  cases hlevel : Level.ofName? (Text.upper text) with
  | some level =>
      have hother {name : String} (hnone : Level.ofName? name = none) :
          Text.upper text ≠ name := by
        rintro rfl
        rw [hnone] at hlevel
        cases hlevel
      exact iff_of_true ⟨_, rfl⟩ ⟨hother (by decide), hother (by decide)⟩
  | none =>
      dsimp only
      split <;> simp_all

theorem exists_bind_eq_ok {ε α β : Type} {e : Except ε α} {f : α → Except ε β} :
    (∃ y, e >>= f = .ok y) ↔ ∃ x, e = .ok x ∧ ∃ y, f x = .ok y := by
  cases e <;> simp [bind, Except.bind]

theorem consoleOutlet_ok_iff {o : Options} :
    (∃ console, Outlets.consoleOutlet o = .ok console) ↔
      (o.hasConsole = true → NamesThreshold o.consoleLevel) := by
  rw [Outlets.consoleOutlet]
  split
  · rename_i hconsole
    rw [← threshold_ok_iff]
    cases Threshold.ofText o.consoleLevel <;> simp [hconsole]
  · rename_i hconsole
    simp [hconsole]

theorem editorLog_ok_iff {o : Options} :
    (∃ log, Outlets.editorLog o = .ok log) ↔ NamesThreshold o.editorLevel ∧
      0 ≤ o.editorLines ∧ o.editorLines ≤ EditorLog.greatestCapacity := by
  rw [Outlets.editorLog, EditorLog.opened, ← threshold_ok_iff]
  by_cases hnegative : o.editorLines < 0
  · rw [if_pos hnegative]
    exact iff_of_false (by simp) (by omega)
  · rw [if_neg hnegative]
    by_cases hlarge : EditorLog.greatestCapacity < o.editorLines
    · rw [if_pos hlarge]
      exact iff_of_false (by simp) (by omega)
    · rw [if_neg hlarge]
      have hcapacity : 0 ≤ o.editorLines ∧ o.editorLines ≤ EditorLog.greatestCapacity := by omega
      cases Threshold.ofText o.editorLevel <;> simp [hcapacity]

/-- The journal opens when both levels can be had and the number of lines is a capacity. -/
theorem opened_ok_iff (t : Tree) (now : Number) (o : Options) :
    (∃ j, Outlets.opened t now o = .ok j) ↔
      (o.hasConsole = true → NamesThreshold o.consoleLevel) ∧ NamesThreshold o.editorLevel ∧
        0 ≤ o.editorLines ∧ o.editorLines ≤ EditorLog.greatestCapacity := by
  rw [Outlets.opened, exists_bind_eq_ok, ← consoleOutlet_ok_iff, ← editorLog_ok_iff]
  constructor
  · rintro ⟨console, hconsole, hrest⟩
    obtain ⟨log, hlog, -⟩ := exists_bind_eq_ok.mp hrest
    exact ⟨⟨console, hconsole⟩, log, hlog⟩
  · rintro ⟨⟨console, hconsole⟩, log, hlog⟩
    exact ⟨console, hconsole, exists_bind_eq_ok.mpr ⟨log, hlog, _, rfl⟩⟩

/-! ## All contents -/

/-- Whatever settings hold, each can be read unless it breaks, and is read as what it would take
unless it misleads. The depth is then between 1 and 32, a preview has at least one kilobyte, and a
request waits for more than no time; there always is a language. The journal opens unless one of
its levels is the name of a layout or the number of lines is no capacity. -/
theorem read_and_open_iff (s : Profile) (h : s.IsLegible) :
    (∀ p, ((∃ c, s.get p = .ok c) ↔ ¬ s.Breaks p) ∧
      ∀ c, s.get p = .ok c → (p.Takes c ↔ ¬ s.Misleads p)) ∧
    ((∀ n, s.searchDepth = .ok n → 1 ≤ n ∧ n ≤ 32) ∧ (∀ n, s.maxPreview = .ok n → 1 ≤ n) ∧
      (∀ x, s.readyTimeout = .ok x → Number.lt (.int 0) (.real x) = true) ∧
      (1 ≤ s.editorLines ↔ ¬ s.Misleads .editorMaxLines) ∧ s.language ≠ "") ∧
    ∀ t now, (∃ j, Outlets.opened t now (.ofSettings s) = .ok j) ↔
      (s.hasConsole = true → NamesThreshold s.consoleLevel) ∧ NamesThreshold s.editorLevel ∧
        0 ≤ s.editorLines ∧ s.editorLines ≤ EditorLog.greatestCapacity := by
  refine ⟨fun p => ⟨s.get_ok_iff p, fun c => Profile.takes_iff h⟩, ⟨?_, ?_, ?_, ?_, ?_⟩, ?_⟩
  · exact fun n => Profile.mem_depths_of_searchDepth
  · exact fun n => Profile.one_le_of_maxPreview
  · exact fun x => Profile.pos_of_readyTimeout
  · exact Profile.one_le_editorLines_iff h
  · exact s.language_ne_empty
  · exact fun t now => opened_ok_iff t now (.ofSettings s)

/-- A depth that is no number, a negative time and infinitely many lines do no harm. -/
theorem read_and_open_iff_harmless :
    let s : Profile := ⟨"default", ⟨[("default/workspace/search_max_depth", .str "deep"),
      ("default/workspace/ready_timeout", .num (.int (-5))),
      ("default/logging/editor_max_lines", .num (.real (.infinite false)))], .noError⟩⟩
    s.IsLegible ∧ (∀ p, ∃ c, s.get p = .ok c ∧ p.Takes c) ∧
      ∀ t now, ∃ j, Outlets.opened t now (.ofSettings s) = .ok j := by
  intro s
  have hlegible : s.IsLegible := by
    intro key _ n hkept
    have hmem := Members.mem_of_get? hkept
    simp only [s, List.mem_cons, Prod.mk.injEq, reduceCtorEq, and_false, Value.num.injEq,
      Number.int.injEq, List.not_mem_nil, or_false, false_or] at hmem
    rw [hmem.2]
    decide +kernel
  have hdepth : s.value? Profile.depthKey = some (.str "deep") := by rfl
  have hpreview : s.value? Profile.previewKey = none := by rfl
  have htimeout : s.value? Profile.timeoutKey = some (.num (.int (-5))) := by rfl
  have hlines : s.value? Profile.editorLinesKey = some (.num (.real (.infinite false))) := by rfl
  have hlanguage : s.value? Profile.languageKey = none := by rfl
  have hconsole : s.value? Profile.consoleLevelKey = none := by rfl
  have heditor : s.value? Profile.editorLevelKey = none := by rfl
  obtain ⟨hsettings, -, hopened⟩ := read_and_open_iff s hlegible
  refine ⟨hlegible, fun p => ?_, fun t now => (hopened t now).mpr ?_⟩
  · have hbreaks : ¬ s.Breaks p := by
      cases p with
      | searchMaxDepth => simp [Profile.Breaks, Profile.IsInfinite, hdepth]
      | maxPreviewKb => simp [Profile.Breaks, Profile.IsInfinite, hpreview]
      | readyTimeout =>
          rintro ⟨n, hkept, hgreat⟩
          rw [htimeout] at hkept
          cases hkept
          revert hgreat
          decide +kernel
      | _ => exact id
    have hmisleads : ¬ s.Misleads p := by
      cases p with
      | editorMaxLines => simp [Profile.Misleads, Profile.IsLow, hlines]
      | language => simp [Profile.Misleads, Profile.Shows, hlanguage]
      | consoleLogLevel => simp [Profile.Misleads, Profile.Shows, hconsole]
      | editorLogLevel => simp [Profile.Misleads, Profile.Shows, heditor]
      | _ => exact id
    obtain ⟨c, hc⟩ := (hsettings p).1.mpr hbreaks
    exact ⟨c, hc, ((hsettings p).2 c hc).mpr hmisleads⟩
  · have heditorLevel : s.editorLevel = "INFO" := by rfl
    have hconsoleLevel : s.consoleLevel = "INFO" := by rfl
    have heditorLines : s.editorLines = 1000 := by rfl
    have hinfo : NamesThreshold "INFO" := by decide +kernel
    rw [heditorLevel, hconsoleLevel, heditorLines]
    exact ⟨fun _ => hinfo, hinfo, by decide, by decide⟩

/-- A negative number of lines is read as it is kept, and no such number is taken. -/
theorem not_forall_read_and_open :
    ¬ ∀ s : Profile, s.IsLegible → (∀ p, ∃ c, s.get p = .ok c ∧ p.Takes c) ∧
      ∀ t now, ∃ j, Outlets.opened t now (.ofSettings s) = .ok j := by
  intro h
  let s : Profile :=
    ⟨"default", ⟨[("default/logging/editor_max_lines", .num (.int (-5)))], .noError⟩⟩
  have hlegible : s.IsLegible := by
    intro key _ n hkept
    have hmem := Members.mem_of_get? hkept
    simp only [s, List.mem_singleton, Prod.mk.injEq, Value.num.injEq, Number.int.injEq] at hmem
    rw [hmem.2]
    decide +kernel
  obtain ⟨c, hread, htakes⟩ := (h s hlegible).1 .editorMaxLines
  obtain rfl : .value (.num (.int (-5))) = c := Except.ok.inj hread
  revert htakes
  rintro (hversion | hfile | htaken)
  · cases hversion
  · cases hfile
  · cases htaken

end ModAtlas.Settings
