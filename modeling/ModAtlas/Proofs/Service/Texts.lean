import ModAtlas.Proofs.Service.Renewal
import ModAtlas.Proofs.Workspace.Texts

/-!
# Keys and texts after a rebuild

A rebuild reads the keys and the texts of its language. If both come from one file, every key
with a text is a member, and every member whose value is a string has that string for its text.
They come from one file when the first that is known by the language has just the name for it
and can be read.
-/

namespace ModAtlas.Service
open ModAtlas.Files ModAtlas.Workspace ModAtlas.Reference ModAtlas.Text

/-! ## What is surveyed of a language -/

section Surveyed
variable {t : Tree} {f : Finder} {root language : String} {found : List String}

/-- A root can be searched for one suffix if it can be searched for another. -/
theorem exists_find {suffix : String} (h : f.find t root suffix = .ok found) (suffix' : String) :
    ∃ found', f.find t root suffix' = .ok found' := by
  cases hfind : f.find t root suffix' with
  | ok found' => exact ⟨found', rfl⟩
  | error e =>
      rw [unsearchable_of_find hfind] at h
      cases h

/-- The files named for a language are among the localized text files. -/
theorem find_localizedFile (hnamed : t.root.Named)
    (h : f.find t root localizedSuffix = .ok found) :
    f.find t root (localizedFile language) = .ok (namedFor language found) := by
  unfold Finder.find at h ⊢
  split at h
  · cases h
  · rename_i hsearchable
    cases h
    have hsuffix : localizedSuffix.toList <:+ (localizedFile language).toList := by
      simp [localizedFile]
    rw [if_neg hsearchable, f.walk_longer hnamed hsuffix]
    rfl

theorem localization_surveyed (h : f.find t root localizedSuffix = .ok found) :
    (surveyed t f root language).localization = .ofFiles (readLanguageFiles t found) := by
  have htexts : Rebuild.readTexts t f root = .ok (readLanguageFiles t found) := by
    rw [Rebuild.readTexts, h]
    rfl
  cases hpaths : collect t f root trackedSuffixes with
  | error e =>
      rw [unsearchable_of_collect hpaths] at h
      cases h
  | ok paths => simp [surveyed, Rebuild.whole, Rebuild.deliver, hpaths, htexts]

theorem members_surveyed :
    (surveyed t f root language).members = gathered t f root language [] := by
  unfold surveyed Rebuild.deliver
  split <;> rfl

theorem mem_keys_of_get? {members : Json.Members} {key : String} {v : Json.Value}
    (h : Json.Members.get? members key = some v) : key ∈ members.keys := by
  obtain ⟨before, after, rfl, -⟩ := List.lookup_eq_some_iff.mp h
  simp [Json.Members.keys]

theorem eq_str_of_text? {v : Json.Value} {text : String} (h : v.text? = some text) :
    v = .str text := by
  cases v <;> cases h
  rfl

/-- The file of the texts. -/
theorem file?_surveyed (h : f.find t root localizedSuffix = .ok found) :
    ((surveyed t f root language).localization.file? language).map (·.path) =
      textFile? t found language := by
  rw [localization_surveyed h, Localization.file?_readLanguageFiles]
  cases htext : textFile? t found language with
  | none => rfl
  | some path =>
      obtain ⟨content, hread⟩ := exists_content_of_textFile? htext
      simp [readLanguageFile?, hread]

/-- The texts are those of that file. -/
theorem value_surveyed (h : f.find t root localizedSuffix = .ok found) {key text : String} :
    (surveyed t f root language).localization.value language key = some text ↔
      ∃ path content, textFile? t found language = some path ∧
        readJsonObject t (Path.ofString path) = .ok content ∧
        Json.Members.get? content key = some (.str text) := by
  rw [localization_surveyed h]
  cases htext : textFile? t found language with
  | none => simp [Localization.value, Localization.file?_readLanguageFiles, htext]
  | some path =>
      obtain ⟨content, hread⟩ := exists_content_of_textFile? htext
      rw [Localization.value_readLanguageFiles htext hread]
      constructor
      · intro h
        obtain ⟨v, hv, htext⟩ := Option.bind_eq_some_iff.mp h
        refine ⟨path, content, rfl, hread, ?_⟩
        rw [hv, eq_str_of_text? htext]
      · rintro ⟨path', content', heq, hread', hget⟩
        obtain rfl := Option.some.inj heq
        cases hread.symm.trans hread'
        rw [hget]
        rfl

/-- The file of the keys. -/
theorem locate_surveyed (h : f.find t root (localizedFile language) = .ok found) :
    (surveyed t f root language).members.locate .localizedText language =
      keyFile? t found language := by
  rw [members_surveyed, ← lookup_loadedFiles_localizedText h]
  rfl

/-- The keys are those of that file. -/
theorem contains_surveyed (h : f.find t root (localizedFile language) = .ok found) {key : String} :
    (surveyed t f root language).members.contains .localizedText key = true ↔
      ∃ path content, keyFile? t found language = some path ∧
        readJsonObject t (Path.ofString path) = .ok content ∧ key ∈ content.keys := by
  rw [members_surveyed, ← mem_loadedMembers_localizedText h]
  exact List.contains_iff_mem

end Surveyed

namespace Workshop
variable {s s' : Workshop} {root : String} {language : Option String}

/-- After a rebuild the keys of its language are those of the file where they are located. If the
texts of the language come from the same file, every key with a text is a member, and a member
whose value in the file is a string has that string for its text. The file is the same if the first
localized text file that is known by the language has just the name for it and can be read, and
there is none on either side if no file is known by the language or has a name that ends so. -/
theorem texts_agree (idle : s.IsIdle) (h : s.Rebuilds root language s') :
    let spoken := s.rebuildLanguage language
    let keys := s'.service.atlas.members
    let texts := s'.service.atlas.localization
    (∀ key, keys.contains .localizedText key = true ↔
      ∃ path content, keys.locate .localizedText spoken = some path ∧
        readJsonObject s.tree (Path.ofString path) = .ok content ∧ key ∈ content.keys) ∧
    ((texts.file? spoken).map (·.path) = keys.locate .localizedText spoken → ∀ key,
      (∀ text, texts.value spoken key = some text → keys.contains .localizedText key = true) ∧
      ∀ path content text, keys.contains .localizedText key = true →
        keys.locate .localizedText spoken = some path →
        readJsonObject s.tree (Path.ofString path) = .ok content →
        Json.Members.get? content key = some (.str text) → texts.value spoken key = some text) ∧
    (s.tree.root.Named → ∀ found, s.service.finder.find s.tree root localizedSuffix = .ok found →
      ((∀ path ∈ found, identifierOf path ≠ spoken ∧
          ¬ (localizedFile spoken).toList <:+ (fileName path).toList) ∨
        ∃ path, found.find? (identifierOf · == spoken) = some path ∧
          fileName path = localizedFile spoken ∧ isReadable s.tree path = true) →
      (texts.file? spoken).map (·.path) = keys.locate .localizedText spoken) := by
  intro spoken keys texts
  have hkeys : keys = (surveyed s.tree s.service.finder root spoken).members :=
    congrArg Atlas.members (h.leaves idle).1
  have htexts : texts = (surveyed s.tree s.service.finder root spoken).localization :=
    congrArg Atlas.localization (h.leaves idle).1
  rw [hkeys, htexts]
  cases hfind : s.service.finder.find s.tree root localizedSuffix with
  | error e =>
      -- nothing is known of a root that cannot be searched
      rw [Rebuild.surveyed_of_unsearchable (unsearchable_of_find hfind)]
      refine ⟨fun key => ?_, fun _ key => ⟨nofun, nofun⟩, nofun⟩
      simp [Atlas.empty, MemberStore.empty, MemberStore.contains, MemberStore.locate]
  | ok found =>
      obtain ⟨named, hnamed⟩ := exists_find hfind (localizedFile spoken)
      rw [file?_surveyed hfind, locate_surveyed hnamed]
      refine ⟨fun key => contains_surveyed hnamed, fun hsame key => ⟨?_, ?_⟩, ?_⟩
      · intro text htext
        obtain ⟨path, content, hfile, hread, hget⟩ := (value_surveyed hfind).mp htext
        exact (contains_surveyed hnamed).mpr
          ⟨path, content, hsame ▸ hfile, hread, mem_keys_of_get? hget⟩
      · intro path content text _ hfile hread hget
        exact (value_surveyed hfind).mpr ⟨path, content, hsame ▸ hfile, hread, hget⟩
      · intro htree found' hfound' hfirst
        cases hfound'
        obtain rfl : named = namedFor spoken found :=
          Except.ok.inj (hnamed.symm.trans (find_localizedFile htree hfind))
        rcases hfirst with hnone | ⟨path, hfirst, hname, hreadable⟩
        · obtain ⟨htext, hkey⟩ := textFile?_of_none (t := s.tree) hnone
          rw [htext, hkey]
        · obtain ⟨htext, hkey⟩ := textFile?_of_first hfirst hname hreadable
          rw [htext, hkey]

/-! ## One file of texts -/

/-- A folder with one file of texts. -/
def textTree (name : String) : Tree where
  root := .folder .full [
    ("mod", .folder .full [(name, textFile "\x7b\"k\": \"v\"\x7d")])]
  workingFolder := .ofString "/"

theorem named_textTree {name : String} (h : IsName name) : (textTree name).root.Named := by
  refine .folder _ (List.forall_mem_singleton.mpr (show IsName "mod" by decide))
    (List.forall_mem_singleton.mpr ?_)
  refine .folder _ (List.forall_mem_singleton.mpr h) (List.forall_mem_singleton.mpr ?_)
  exact .file _

/-- A service over the folder after a rebuild for English. -/
def englishRebuilt (name : String) : Workshop :=
  (openedOver (textTree name)).run (.rebuild "/mod" (some "en") :: gatherAll 0)

theorem idle_openedOver (t : Tree) : (openedOver t).IsIdle := by
  intro n r hn
  cases hn

theorem rebuilds_english (name : String) :
    (openedOver (textTree name)).Rebuilds "/mod" (some "en") (englishRebuilt name) :=
  rebuilds_gatherAll _ "/mod" (some "en")

theorem atlas_englishRebuilt (name : String) : (englishRebuilt name).service.atlas =
    surveyed (textTree name) (openedOver (textTree name)).service.finder "/mod" "en" :=
  ((rebuilds_english name).leaves (idle_openedOver _)).1

theorem texts_agree_english :
    ((openedOver (textTree "en.localized_text")).IsIdle ∧
      (openedOver (textTree "en.localized_text")).Rebuilds "/mod" (some "en")
        (englishRebuilt "en.localized_text") ∧
      (textTree "en.localized_text").root.Named) ∧
      let atlas := (englishRebuilt "en.localized_text").service.atlas
      atlas.members.contains .localizedText "k" = true ∧
        atlas.localization.value "en" "k" = some "v" := by
  have idle := idle_openedOver (textTree "en.localized_text")
  have hrebuilds := rebuilds_english "en.localized_text"
  have hnamed : (textTree "en.localized_text").root.Named := named_textTree (by decide +kernel)
  obtain ⟨hkeys, hsame, hfile⟩ := texts_agree idle hrebuilds
  have hlocate : (englishRebuilt "en.localized_text").service.atlas.members.locate .localizedText
      "en" = some "/mod/en.localized_text" := by
    rw [atlas_englishRebuilt]
    decide +kernel
  have hread : readJsonObject (textTree "en.localized_text")
      (Path.ofString "/mod/en.localized_text") = .ok [("k", .str "v")] := rfl
  have hk := (hkeys "k").mpr ⟨_, _, hlocate, hread, by decide⟩
  have hagree := hsame (hfile hnamed _ rfl
    (.inr ⟨"/mod/en.localized_text", by decide +kernel, by decide +kernel, by decide +kernel⟩))
  exact ⟨⟨idle, hrebuilds, hnamed⟩, hk, (hagree "k").2 _ _ _ hk hlocate hread rfl⟩

/-- Keys are also read from a file whose name merely ends with the name for a language; texts are
not. -/
theorem not_forall_texts_agree :
    ¬ ∀ (s s' : Workshop) (root language : String), s.IsIdle →
      s.Rebuilds root (some language) s' → s.tree.root.Named →
      ∀ key path content text, s'.service.atlas.members.contains .localizedText key = true →
        s'.service.atlas.members.locate .localizedText language = some path →
        readJsonObject s.tree (Path.ofString path) = .ok content →
        Json.Members.get? content key = some (.str text) →
        s'.service.atlas.localization.value language key = some text := by
  intro h
  have hall := h _ _ "/mod" "en" (idle_openedOver _) (rebuilds_english "old_en.localized_text")
    (named_textTree (by decide +kernel)) "k" "/mod/old_en.localized_text" [("k", .str "v")] "v"
  rw [atlas_englishRebuilt] at hall
  have hvalue := hall (by decide +kernel) (by decide +kernel) rfl rfl
  revert hvalue
  decide +kernel

end Workshop
end ModAtlas.Service
