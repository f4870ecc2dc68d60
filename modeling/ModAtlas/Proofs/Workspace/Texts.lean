import ModAtlas.Proofs.Files.Finding
import ModAtlas.Proofs.Json.Merging
import ModAtlas.Proofs.Workspace.Population
import ModAtlas.Workspace.Localization

/-!
# Keys and texts of a language

The keys of a language and its texts are read from files that are chosen in two ways: the keys
from the file with the right name, or else the first whose name ends so; the texts from the first
readable file that is known by the language. Where the two choices agree, the keys are those of
the texts, but for keys whose values are no strings.
-/

namespace ModAtlas.Json

theorem Members.nodup_keys_merge (pairs : Members) : (merge pairs).keys.Nodup := by
  have hsub : (merge pairs).keys.Sublist pairs.keys.eraseDups := by
    rw [merge, keys, select, List.map_filterMap]
    induction pairs.keys.eraseDups with
    | nil => exact .slnil
    | cons key keys ih =>
        rw [List.filterMap_cons]
        cases pairs.last? key with
        | none => exact ih.cons key
        | some v => exact ih.cons_cons key
  exact hsub.nodup (nodup_eraseDups _)

namespace Strict
variable {number? : Numeral → Option Number} {text rest : List Char} {members : Members}

theorem scalar_ne_obj : scalar number? text ≠ some (.obj members, rest) := by
  intro h
  unfold scalar at h
  split at h
  · obtain ⟨p, -, hp⟩ := Option.map_eq_some_iff.mp h
    cases hp
  · cases h
  · cases h
  · cases h
  · split at h
    · cases h
    · obtain ⟨n, -, hn⟩ := Option.map_eq_some_iff.mp h
      cases hn

/-- A key stands once in an object that was read strictly. -/
theorem nodup_keys_value {budget : Nat}
    (h : value number? budget text = some (.obj members, rest)) : members.keys.Nodup := by
  unfold value at h
  split at h
  · split at h
    · cases h
    · split at h
      · cases h
      · obtain ⟨p, -, hp⟩ := Option.map_eq_some_iff.mp h
        cases hp
  · split at h
    · cases h
    · split at h
      · cases h
        exact .nil
      · obtain ⟨p, -, hp⟩ := Option.map_eq_some_iff.mp h
        cases hp
        rw [Members.ofList_eq_merge]
        exact Members.nodup_keys_merge p.1
  · exact absurd h scalar_ne_obj

end Strict
end ModAtlas.Json

namespace ModAtlas.Files

/-- The members of a file are those of the object that its octets are read as. -/
theorem octets_of_readJsonObject {t : Tree} {p : Path} {members : Json.Members}
    (h : readJsonObject t p = .ok members) :
    ∃ octets, t.octets p = .ok octets ∧ Json.Strict.readOctets octets = some (.obj members) := by
  unfold readJsonObject readJson at h
  cases hoctets : t.octets p with
  | error e => simp [hoctets] at h
  | ok octets =>
      refine ⟨octets, rfl, ?_⟩
      cases hread : Json.Strict.readOctets octets with
      | none => simp [hoctets, hread] at h
      | some v =>
          simp only [hoctets, hread] at h
          split at h
          · rename_i hbad
            cases hbad
          · rename_i hok
            cases hok
            cases h
            rfl
          · cases h

theorem nodup_keys_of_readJsonObject {t : Tree} {p : Path} {members : Json.Members}
    (h : readJsonObject t p = .ok members) : members.keys.Nodup := by
  obtain ⟨octets, -, hread⟩ := octets_of_readJsonObject h
  obtain ⟨text, -, htext⟩ := Option.bind_eq_some_iff.mp hread
  obtain ⟨⟨w, rest⟩, hvalue, hwhole⟩ := Option.bind_eq_some_iff.mp htext
  have hw : w = .obj members := by
    dsimp only at hwhole
    split at hwhole
    · exact Option.some.inj hwhole
    · cases hwhole
  exact Json.Strict.nodup_keys_value (hw ▸ hvalue)

/-- Does a path lead to a file that holds a JSON object? -/
def isReadable (t : Tree) (path : String) : Bool :=
  (readJsonObject t (Path.ofString path)).isOk

end ModAtlas.Files

namespace ModAtlas.Workspace
open ModAtlas.Files ModAtlas.Reference ModAtlas.Text

/-! ## Texts -/

theorem textEntries_cons (key : String) (v : Json.Value) (rest : Json.Members) :
    textEntries ((key, v) :: rest) =
      match v.text? with
      | some s => (key, s) :: textEntries rest
      | none => textEntries rest := by
  rw [textEntries, List.filterMap_cons]
  cases v.text? <;> rfl

/-- The entry of a key is its value, if that is a string. -/
theorem lookup_textEntries {members : Json.Members} (h : members.keys.Nodup) (key : String) :
    (textEntries members).lookup key =
      (Json.Members.get? members key).bind Json.Value.text? := by
  induction members with
  | nil => rfl
  | cons m rest ih =>
      obtain ⟨k, v⟩ := m
      obtain ⟨hfresh, hnodup⟩ := List.nodup_cons.mp h
      have hrest := ih hnodup
      rw [Json.Members.get?] at hrest ⊢
      rw [textEntries_cons]
      by_cases hk : key = k
      · subst hk
        cases hv : v.text? with
        | some s => simp [hv]
        | none =>
            -- the key does not come again
            have hnone : rest.lookup key = none := by
              refine List.lookup_eq_none_iff.mpr fun p hp => bne_iff_ne.mpr ?_
              intro heq
              exact hfresh (List.mem_map.mpr ⟨p, hp, heq.symm⟩)
            simpa [hv, hnone] using hrest
      · have hbeq : (key == k) = false := beq_false_of_ne hk
        cases v.text? <;> simpa only [List.lookup_cons, hbeq] using hrest

namespace Localization

/-- Of several files of a language the first counts. -/
theorem file?_ofFiles (files : List LanguageFile) (language : String) :
    (ofFiles files).file? language = files.find? (·.language == language) := by
  induction files using List.reverseRecOn with
  | nil => rfl
  | append_singleton files file ih =>
      have hadd : ofFiles (files ++ [file]) = (ofFiles files).add file := by
        simp [ofFiles]
      rw [hadd, add, List.find?_append, ← ih, List.find?_singleton]
      by_cases hlanguage : file.language = language
      · subst hlanguage
        split
        · rename_i hsome
          obtain ⟨first, hfirst⟩ := Option.isSome_iff_exists.mp hsome
          rw [hfirst, Option.some_or]
        · simp [file?]
      · split <;> simp [file?, hlanguage]

end Localization

/-! ## The two files of a language -/

/-- The file that the texts of a language are read from: the first that is known by the language
and can be read. -/
def textFile? (t : Tree) (found : List String) (language : String) : Option String :=
  found.find? fun path => identifierOf path == language && isReadable t path

/-- The file that the keys of a language are read from, if it can be read. -/
def keyFile? (t : Tree) (found : List String) (language : String) : Option String :=
  (pickNamed found (localizedFile language)).filter (isReadable t)

section Files
variable {t : Tree} {found : List String} {language path : String} {content : Json.Members}

theorem isReadable_iff :
    isReadable t path = true ↔ ∃ content, readJsonObject t (Path.ofString path) = .ok content := by
  unfold isReadable
  cases readJsonObject t (Path.ofString path) <;> simp [Except.isOk, Except.toBool]

theorem exists_content_of_textFile? (h : textFile? t found language = some path) :
    ∃ content, readJsonObject t (Path.ofString path) = .ok content := by
  have hboth := List.find?_some (p := fun p => identifierOf p == language && isReadable t p) h
  exact isReadable_iff.mp (Bool.and_eq_true_iff.mp hboth).2

theorem Localization.file?_readLanguageFiles :
    (ofFiles (readLanguageFiles t found)).file? language =
      (textFile? t found language).bind (readLanguageFile? t) := by
  have hsame (path : String) : ((readLanguageFile? t path).any fun f => f.language == language) =
      (identifierOf path == language && isReadable t path) := by
    rw [readLanguageFile?, isReadable]
    cases readJsonObject t (Path.ofString path) <;> simp [Except.isOk, Except.toBool]
  rw [file?_ofFiles, readLanguageFiles, List.find?_filterMap, textFile?]
  simp only [hsame]

/-- The texts of a language are those of its file. -/
theorem Localization.value_readLanguageFiles (h : textFile? t found language = some path)
    (hread : readJsonObject t (Path.ofString path) = .ok content) (key : String) :
    (ofFiles (readLanguageFiles t found)).value language key =
      (Json.Members.get? content key).bind Json.Value.text? := by
  rw [value, file?_readLanguageFiles, h, Option.bind_some, readLanguageFile?, hread]
  exact lookup_textEntries (nodup_keys_of_readJsonObject hread) key

variable {f : Finder} {root : String}

theorem load_localizedText (h : f.find t root (localizedFile language) = .ok found) :
    load t f root language .localizedText =
      match pickNamed found (localizedFile language) with
      | none => .ok ⟨[], []⟩
      | some path =>
        (readJsonObject t (Path.ofString path)).map fun content =>
          ⟨sortedDistinct content.keys, [(language, path)]⟩ := by
  change loadLocalizedKeys t f root language = _
  rewrite [loadLocalizedKeys, h]
  rfl

/-- Of the keys of a language the file is known from which they were read. -/
theorem lookup_loadedFiles_localizedText
    (h : f.find t root (localizedFile language) = .ok found) :
    (loadedFiles (load t f root language .localizedText)).lookup language =
      keyFile? t found language := by
  rw [load_localizedText h, keyFile?]
  cases pickNamed found (localizedFile language) with
  | none => rfl
  | some path =>
      rw [Option.filter_some]
      cases hread : readJsonObject t (Path.ofString path) <;>
        simp [isReadable, hread, Except.map, loadedFiles, Except.isOk, Except.toBool]

/-- The keys of a language are those of the object in that file. -/
theorem mem_loadedMembers_localizedText
    (h : f.find t root (localizedFile language) = .ok found) {key : String} :
    key ∈ loadedMembers (load t f root language .localizedText) ↔
      ∃ path content, keyFile? t found language = some path ∧
        readJsonObject t (Path.ofString path) = .ok content ∧ key ∈ content.keys := by
  rw [load_localizedText h, keyFile?]
  cases pickNamed found (localizedFile language) with
  | none => simp [loadedMembers]
  | some path =>
      cases hread : readJsonObject t (Path.ofString path) <;>
        simp [isReadable, hread, Except.map, loadedMembers, Except.isOk, Except.toBool]

/-! ## Where both are the same -/

/-- The files whose names end with the name for the texts of a language. -/
def namedFor (language : String) (found : List String) : List String :=
  found.filter fun path => endsWith (fileName path).toList (localizedFile language).toList

/-- If the first file known by a language has just the name for it and can be read, keys and texts
of the language are read from that file. -/
theorem textFile?_of_first (hfirst : found.find? (identifierOf · == language) = some path)
    (hname : fileName path = localizedFile language) (hreadable : isReadable t path = true) :
    textFile? t found language = some path ∧
      keyFile? t (namedFor language found) language = some path := by
  obtain ⟨hknown, before, after, rfl, hbefore⟩ := List.find?_eq_some_iff_append.mp hfirst
  have hother : ∀ p ∈ before, identifierOf p ≠ language := fun p hp => by
    simpa using hbefore p hp
  constructor
  · apply List.find?_eq_some_iff_append.mpr
    refine ⟨by rw [hknown, hreadable]; rfl, before, after, rfl, fun p hp => ?_⟩
    simp [hother p hp]
  · have hpicked : pickNamed (namedFor language (before ++ path :: after))
        (localizedFile language) = some path := by
      rw [pickNamed, namedFor, List.find?_filter, List.find?_eq_some_iff_append.mpr]
      refine ⟨?_, before, after, rfl, fun p hp => ?_⟩
      · simp [hname, endsWith_iff]
      · -- a file of the same name would be known by the same language
        have hdiffers : fileName p ≠ localizedFile language := by
          intro heq
          apply hother p hp
          rw [← eq_of_beq hknown, identifierOf, identifierOf, heq, hname]
        simp [hdiffers]
    rw [keyFile?, hpicked, Option.filter_some, if_pos hreadable]

/-- If no file is known by a language or has a name that ends so, there are no keys and no
texts. -/
theorem textFile?_of_none
    (hnone : ∀ p ∈ found, identifierOf p ≠ language ∧
      ¬ (localizedFile language).toList <:+ (fileName p).toList) :
    textFile? t found language = none ∧
      keyFile? t (namedFor language found) language = none := by
  constructor
  · refine List.find?_eq_none.mpr fun p hp => ?_
    simp [(hnone p hp).1]
  · have hnil : namedFor language found = [] := by
      refine List.filter_eq_nil_iff.mpr fun p hp => ?_
      rw [endsWith_iff]
      exact (hnone p hp).2
    rw [keyFile?, hnil]
    rfl

end Files
end ModAtlas.Workspace
