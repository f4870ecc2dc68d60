import ModAtlas.Proofs.Files.Uris
import ModAtlas.Proofs.Schema.Scope
import ModAtlas.Proofs.Schema.Tagging
import ModAtlas.Schema.Library

/-!
# Documents and the state of their schema files

The URI of a schema file always leads to a path. What cannot be read there, and what is no JSON
object, is no schema of a document. An object is the schema, unless it cannot be prepared: because
it is to be corrected and its `properties` are no object, or because the scope of what the player
reads breaks off. Nothing else fails.
-/

namespace ModAtlas.Schema
open ModAtlas.Document ModAtlas.Files ModAtlas.Json

/-! ## Schemas that cannot be prepared -/

theorem mapM_eq_error_iff {ε α β : Type} {f : α → Except ε β} {l : List α} :
    (∃ e, l.mapM f = .error e) ↔ ∃ a ∈ l, ∃ e, f a = .error e := by
  induction l with
  | nil => simp [pure, Except.pure]
  | cons a l ih =>
      rw [List.mapM_cons]
      simp only [List.mem_cons, exists_eq_or_imp, ← ih]
      cases f a with
      | error e => simp [bind, Except.bind]
      | ok b => cases l.mapM f <;> simp [bind, Except.bind, pure, Except.pure]

/-- The scope of a rule is the whole schema or what the player reads. -/
theorem scope_of_mem_rulesFor {file : String} {rule : TagRule} (h : rule ∈ rulesFor file) :
    rule.scope = "" ∨ rule.scope = interfaceScope := by
  have hcommon : ∀ rule ∈ commonRules, rule.scope = "" ∨ rule.scope = interfaceScope := by decide
  have hown : ∀ rule ∈ ownRules file, rule.scope = "" := by
    unfold ownRules
    split <;> decide
  exact (List.mem_append.mp h).elim (hcommon rule) fun h => .inl (hown rule h)

/-- Tagging by the rules of a file fails where the scope of what the player reads breaks off. -/
theorem tagsOf_fails_iff {schema : Value} {file : String} :
    (∃ e, tagsOf schema (rulesFor file) = .error e) ↔
      ∃ e, ScopeSearch.Ends schema ⟨[interfaceScope], [interfaceScope]⟩ (.error e) := by
  have hne : interfaceScope ≠ "" := by decide
  have hends (e : Pointer.Error) : scopeRoots schema interfaceScope = .error e ↔
      ScopeSearch.Ends schema ⟨[interfaceScope], [interfaceScope]⟩ (.error e) :=
    ⟨fun h => h ▸ ends_scopeRoots schema hne, (ends_scopeRoots schema hne).unique⟩
  have htags : (∃ e, tagsOf schema (rulesFor file) = .error e) ↔
      ∃ e, scopedRules schema (rulesFor file) = .error e := by
    unfold tagsOf
    cases scopedRules schema (rulesFor file) <;> simp [bind, Except.bind, pure, Except.pure]
  have hrule (rule : TagRule) :
      (∃ e, (do return ⟨rule, ← scopeRoots schema rule.scope⟩ : Except Pointer.Error ScopedRule) =
        .error e) ↔ ∃ e, scopeRoots schema rule.scope = .error e := by
    cases scopeRoots schema rule.scope <;> simp [bind, Except.bind, pure, Except.pure]
  rw [htags, scopedRules, mapM_eq_error_iff]
  simp only [hrule, ← hends]
  constructor
  · rintro ⟨rule, hmem, e, herror⟩
    rcases scope_of_mem_rulesFor hmem with hscope | hscope
    · rw [hscope] at herror
      cases herror
    · exact ⟨e, hscope ▸ herror⟩
  · rintro ⟨e, herror⟩
    exact ⟨⟨"name", .localizedText, interfaceScope⟩,
      List.mem_append_left _ List.mem_cons_self, e, herror⟩

/-- The members of an object that cannot be used as the schema in a file. -/
inductive Unusable (file : String) (members : Members) : Prop
  /-- Properties are to be added to something that is no object. -/
  | uncorrectable {declared : Value} (corrected : (correctionOf file).isSome)
      (declares : Members.get? members "properties" = some declared)
      (other : ∀ properties, declared ≠ .obj properties)
  /-- The search for the scope of what the player reads comes to a root that breaks off. -/
  | breaking {schema : Value} {e : Pointer.Error}
      (corrected : correct file (.obj members) = .ok schema)
      (breaks : ScopeSearch.Ends schema ⟨[interfaceScope], [interfaceScope]⟩ (.error e))

theorem correct_fails_iff {file : String} {members : Members} :
    (∃ e, correct file (.obj members) = .error e) ↔ (correctionOf file).isSome ∧
      ∃ declared, Members.get? members "properties" = some declared ∧
        ∀ properties, declared ≠ .obj properties := by
  unfold correct
  cases correctionOf file with
  | none => simp
  | some f =>
      cases hget : Members.get? members "properties" with
      | none => simp [hget]
      | some declared => cases declared <;> simp [hget]

theorem unusable_iff {file : String} {members : Members} : Unusable file members ↔
    (∃ e, correct file (.obj members) = .error e) ∨
      ∃ schema, correct file (.obj members) = .ok schema ∧
        ∃ e, tagsOf schema (rulesFor file) = .error e := by
  simp only [correct_fails_iff, tagsOf_fails_iff]
  constructor
  · rintro (⟨hsome, hdeclares, hother⟩ | ⟨hschema, hbreaks⟩)
    · exact .inl ⟨hsome, _, hdeclares, hother⟩
    · exact .inr ⟨_, hschema, _, hbreaks⟩
  · rintro (⟨hsome, declared, hdeclares, hother⟩ | ⟨schema, hschema, e, hbreaks⟩)
    · exact .uncorrectable hsome hdeclares hother
    · exact .breaking hschema hbreaks

theorem prepare_fails_iff {file : String} {members : Members} :
    (∃ e, prepare file (.obj members) = .error e) ↔ Unusable file members := by
  rw [unusable_iff]
  unfold prepare
  cases correct file (.obj members) with
  | error e => simp
  | ok schema =>
      dsimp only
      cases htags : tagsOf schema (rulesFor file) with
      | error e => exact iff_of_true ⟨_, rfl⟩ (.inr ⟨schema, rfl, e, htags⟩)
      | ok tags => simp [htags]

/-! ## Documents -/

namespace Library
variable {l : Library} {t : Tree} {name : String}

/-- The schema file of a document is not loaded, and reading it at its path gives a result. -/
def Finds (l : Library) (t : Tree) (name : String) (path : Path)
    (result : Except ReadError Value) : Prop :=
  ∃ file text, schemaFileFor name = some file ∧ l.loaded.lookup (l.uriFor t file) = none ∧
    Uri.toPath (l.uriFor t file) = .ok text ∧ path = .ofString text ∧ readJson t path = result

theorem schemaFileFor_cases (l : Library) (t : Tree) (name : String) :
    schemaFileFor name = none ∨
      (∃ file p, schemaFileFor name = some file ∧ l.loaded.lookup (l.uriFor t file) = some p) ∨
      ∃ path result, l.Finds t name path result := by
  cases hfile : schemaFileFor name with
  | none => exact .inl rfl
  | some file =>
      cases hloaded : l.loaded.lookup (l.uriFor t file) with
      | some p => exact .inr (.inl ⟨file, p, rfl, hloaded⟩)
      | none =>
          obtain ⟨text, htext⟩ := Uri.exists_toPath_ofPath _
          exact .inr (.inr ⟨_, _, file, text, hfile, hloaded, htext, rfl, rfl⟩)

/-- What is read in the schema file decides: an object is prepared under the name of the file,
everything else is no schema. -/
theorem Finds.forDocument {path : Path} {result : Except ReadError Value}
    (h : l.Finds t name path result) :
    (∃ members, result = .ok (.obj members) ∧
      ((∃ e, prepare path.name (.obj members) = .error e ∧ l.forDocument t name = .error e) ∨
        ∃ p l', prepare path.name (.obj members) = .ok p ∧
          l.forDocument t name = .ok (some p, l'))) ∨
    (∀ members, result ≠ .ok (.obj members)) ∧ l.forDocument t name = .ok (none, l) := by
  obtain ⟨file, text, hfile, hloaded, htext, rfl, rfl⟩ := h
  unfold Library.forDocument Library.resolve fetch
  simp only [hfile, hloaded, htext]
  cases hread : readJson t (Path.ofString text) with
  | error e => exact .inr ⟨nofun, rfl⟩
  | ok v =>
      cases v with
      | obj members =>
          refine .inl ⟨members, rfl, ?_⟩
          dsimp only
          cases prepare (Path.ofString text).name (.obj members) with
          | error e => exact .inl ⟨e, rfl, rfl⟩
          | ok p => exact .inr ⟨p, _, rfl, rfl⟩
      | _ => exact .inr ⟨nofun, rfl⟩

theorem forDocument_of_loaded {file : String} {p : Prepared}
    (hfile : schemaFileFor name = some file)
    (hloaded : l.loaded.lookup (l.uriFor t file) = some p) :
    l.forDocument t name = .ok (some p, l) := by
  unfold Library.forDocument Library.resolve
  simp only [hfile, hloaded]

theorem Finds.iff_eq {path path' : Path} {result result' : Except ReadError Value}
    (h : l.Finds t name path result) :
    l.Finds t name path' result' ↔ path' = path ∧ result' = result := by
  constructor
  · rintro ⟨file', text', hfile', -, htext', rfl, rfl⟩
    obtain ⟨file, text, hfile, -, htext, rfl, rfl⟩ := h
    obtain rfl := Option.some.inj (hfile.symm.trans hfile')
    obtain rfl := Except.ok.inj (htext.symm.trans htext')
    exact ⟨rfl, rfl⟩
  · rintro ⟨rfl, rfl⟩
    exact h

/-- The schema of a document is settled by the state of its schema file. Asking for it fails
exactly when the file holds an object that is unusable as a schema; there is none exactly when the
document has no schema file or the file holds no object; and otherwise the schema is one that was
loaded before, or the object in the file as prepared under its name. -/
theorem forDocument_settled (l : Library) (t : Tree) (name : String) :
    ((∃ e, l.forDocument t name = .error e) ↔
      ∃ path members, l.Finds t name path (.ok (.obj members)) ∧ Unusable path.name members) ∧
    ((∃ l', l.forDocument t name = .ok (none, l')) ↔ schemaFileFor name = none ∨
      ∃ path result, l.Finds t name path result ∧ ∀ members, result ≠ .ok (.obj members)) ∧
    ∀ p l', l.forDocument t name = .ok (some p, l') →
      (∃ uri, l.loaded.lookup uri = some p) ∨
      ∃ path members, l.Finds t name path (.ok (.obj members)) ∧
        prepare path.name (.obj members) = .ok p := by
  rcases schemaFileFor_cases l t name with
    hnone | ⟨file, p, hfile, hloaded⟩ | ⟨path, result, hfinds⟩
  · have hresult : l.forDocument t name = .ok (none, l) := by
      unfold Library.forDocument
      rw [hnone]
    have hfinds (path : Path) (result) : ¬ l.Finds t name path result := by
      rintro ⟨file, text, hfile, -⟩
      cases hnone.symm.trans hfile
    simp [hresult, hnone, hfinds]
  · have hresult := forDocument_of_loaded hfile hloaded
    have hfinds (path : Path) (result) : ¬ l.Finds t name path result := by
      rintro ⟨file', text, hfile', hnew, -⟩
      obtain rfl := Option.some.inj (hfile.symm.trans hfile')
      cases hloaded.symm.trans hnew
    simpa [hresult, hfile, hfinds] using ⟨_, hloaded⟩
  · obtain ⟨file, _, hfile, -⟩ := id hfinds
    rcases hfinds.forDocument with
      ⟨members, rfl, ⟨e, hprepare, hresult⟩ | ⟨p, l', hprepare, hresult⟩⟩ | ⟨hother, hresult⟩
    · have : Unusable path.name members := prepare_fails_iff.mp ⟨e, hprepare⟩
      simp [hresult, hfinds.iff_eq, hfile, this]
    · have : ¬ Unusable path.name members := by
        rw [← prepare_fails_iff, hprepare]
        rintro ⟨e, ⟨⟩⟩
      simp [hresult, hfinds.iff_eq, hfile, this, hprepare]
    · have (members : Members) : ¬ .ok (.obj members) = result := fun h => hother members h.symm
      simp [hresult, hfinds.iff_eq, hfile, hother, this]

/-- A folder with a mission schema whose properties are no object. -/
def listedTree : Tree :=
  ⟨.folder .full [("mission-uniforms-schema.json",
    .file (Text.Utf8.encode "\x7b\"properties\": []\x7d".toList))], ⟨1, []⟩⟩

/-- A schema file that is there and can be read does not make the schema of a document safe. -/
theorem not_forall_forDocument_ok : ¬ ∀ (l : Library) (t : Tree) (name : String),
    ∃ p l', l.forDocument t name = .ok (p, l') := by
  intro h
  obtain ⟨p, l', hok⟩ := h ⟨⟨1, []⟩, ⟨1, []⟩, []⟩ listedTree "missions.uniforms"
  have hfails : (Library.forDocument ⟨⟨1, []⟩, ⟨1, []⟩, []⟩ listedTree
      "missions.uniforms").toOption.isSome = false := by decide +kernel
  rw [hok] at hfails
  cases hfails

end Library
end ModAtlas.Schema
