import ModAtlas.CommandLine.Run
import ModAtlas.Proofs.Service.Settling

/-!
# Documents in one run

What a run prints and how it ends, document by document. A document is checked in a run with
others as it is in a run of its own, up to the first one that ends the run. A run that is not
ended so fails exactly when a document cannot be read or has a diagnostic; a document whose
validation gives no answer passes.
-/

namespace ModAtlas.CommandLine
open ModAtlas.Document ModAtlas.Files ModAtlas.Reference ModAtlas.Schema ModAtlas.Service

/-- A document ends the run: its octets are no text, or no file can have its name. -/
def endsRun (t : Tree) (file : String) : Bool :=
  match readText t (.ofString file) with
  | .ok none => true
  | .error .nulInPath => true
  | _ => false

/-- The URI under which a document is validated. -/
def uriOf (t : Tree) (file : String) : String := Uri.ofPath (t.absolute (.ofString file))

/-! ## One document -/

section Documents
variable {s₀ s : Workshop}

/-- What comes of a document whose text can be read. -/
theorem validate_eq (s : Workshop) (file : String) (text : List Char) :
    validate s file text =
      ((s.act (.ask ⟨uriOf s.tree file, String.ofList text, .validation 0⟩)).settle,
        .checked (((s.diagnosed? (uriOf s.tree file) (String.ofList text)).getD []).map
            (diagnosticLine file))
          !((s.diagnosed? (uriOf s.tree file) (String.ofList text)).getD []).isEmpty) := by
  unfold validate Workshop.diagnosed?
  dsimp only [uriOf]
  generalize (s.act (.ask ⟨Uri.ofPath (s.tree.absolute (.ofString file)), String.ofList text,
    .validation 0⟩)).settle = settled
  rcases settled.answer? s.nextTicket with _ | ⟨_ | found⟩ | _ | _ | _ <;> rfl

/-- What comes of a document does not depend on the documents before it. -/
theorem checkFile_steady (h₀ : s₀.Steady s₀) (h : s₀.Steady s) (file : String) :
    (checkFile s file).2 = (checkFile s₀ file).2 ∧ s₀.Steady (checkFile s file).1 := by
  unfold checkFile
  rw [h.tree]
  cases readText s₀.tree (.ofString file) with
  | error e => cases e <;> exact ⟨rfl, h⟩
  | ok text? => cases text? with
    | none => exact ⟨rfl, h⟩
    | some text =>
        obtain ⟨hsteady, hfound⟩ := h.settle_ask (uriOf s₀.tree file) (String.ofList text)
        obtain ⟨-, hfound₀⟩ := h₀.settle_ask (uriOf s₀.tree file) (String.ofList text)
        simp only [validate_eq, h.tree, hfound, hfound₀]
        exact ⟨trivial, hsteady⟩

theorem checkFile_eq_unreadable_iff {file : String} :
    (checkFile s file).2 = .unreadable ↔ endsRun s.tree file = true := by
  unfold checkFile endsRun
  cases readText s.tree (.ofString file) with
  | error e => cases e <;> simp
  | ok text? => cases text? <;> simp [validate_eq]

/-- A document of a run passes: its text can be read, and nothing is found in it. -/
def Passes (s : Workshop) (file : String) : Prop :=
  ∃ text, readText s.tree (.ofString file) = .ok (some text) ∧
    ∀ found, s.diagnosed? (uriOf s.tree file) (String.ofList text) = some found → found = []

theorem checkFile_passes_iff {file : String} :
    (∃ lines, (checkFile s file).2 = .checked lines false) ↔ Passes s file := by
  unfold checkFile Passes
  cases readText s.tree (.ofString file) with
  | error e => cases e <;> simp
  | ok text? => cases text? with
    | none => simp
    | some text =>
        cases hfound : s.diagnosed? (uriOf s.tree file) (String.ofList text) <;>
          simp [validate_eq, hfound]

/-! ## Documents one after the other -/

/-- Only the documents before the first one that ends the run print anything, and each of them
what it prints alone. -/
theorem lines_checkFiles (h₀ : s₀.Steady s₀) (h : s₀.Steady s) (files : List String) :
    (checkFiles s files).lines =
      (files.takeWhile fun f => !endsRun s₀.tree f).flatMap fun f => (checkFiles s₀ [f]).lines := by
  induction files generalizing s with
  | nil => rfl
  | cons file files ih =>
      obtain ⟨hverdict, hsteady⟩ := checkFile_steady h₀ h file
      have hends : (checkFile s₀ file).2 = .unreadable ↔ endsRun s₀.tree file = true :=
        checkFile_eq_unreadable_iff
      simp only [checkFiles, hverdict]
      cases hcase : (checkFile s₀ file).2 with
      | unreadable => simp [hends.mp hcase]
      | checked lines isWrong =>
          have hgoes : endsRun s₀.tree file = false := by
            rw [← Bool.not_eq_true, ← hends, hcase]
            simp
          simp [hgoes, ih hsteady, checkFiles, hcase]

/-- Something is wrong with documents unless all of them pass. -/
theorem isWrong_checkFiles (h₀ : s₀.Steady s₀) (h : s₀.Steady s) (files : List String) :
    (checkFiles s files).isWrong = false ↔ ∀ file ∈ files, Passes s₀ file := by
  induction files generalizing s with
  | nil => simp [checkFiles]
  | cons file files ih =>
      obtain ⟨hverdict, hsteady⟩ := checkFile_steady h₀ h file
      rw [List.forall_mem_cons, ← ih hsteady, ← checkFile_passes_iff]
      simp only [checkFiles, hverdict]
      cases (checkFile s₀ file).2 <;> simp

/-- Documents that end the run are wrong. -/
theorem isWrong_of_isBroken {files : List String} (h : (checkFiles s files).isBroken = true) :
    (checkFiles s files).isWrong = true := by
  induction files generalizing s with
  | nil => cases h
  | cons file files ih =>
      simp only [checkFiles] at h ⊢
      cases hcase : (checkFile s file).2 with
      | unreadable => rfl
      | checked lines isWrong =>
          rw [hcase] at h
          simp [ih h]

end Documents

/-! ## Runs -/

namespace Run

/-- The run with other documents. -/
def withFiles (r : Run) (files : List String) : Run :=
  { r with arguments := { r.arguments with files } }

/-- The workshop in which the documents of a run are checked. -/
def surveyed (r : Run) (bundled root : Path) (setup : Setup) : Workshop :=
  .surveyedBy r.tree bundled setup root.toString
    ((given? r.arguments.language).getD r.settings.language)

section Serving
variable (r : Run) (bundled root : Path) (setup : Setup) (files : List String)

theorem steady_surveyed :
    (r.surveyed bundled root setup).Steady (r.surveyed bundled root setup) :=
  (Workshop.steady_surveyedBy _ _ _ _ _).1

theorem tree_surveyed : (r.surveyed bundled root setup).tree = r.tree :=
  (Workshop.steady_surveyedBy _ _ _ _ _).2.1

/-- A validation gives no answer when the analysis fails otherwise than by a fault of the text. -/
theorem diagnosed?_eq_none_iff {uri text : String} :
    (r.surveyed bundled root setup).diagnosed? uri text = none ↔
      ∃ e, (analyze r.tree (.opened r.tree bundled setup.schemasFolder) uri text).1 = .error e ∧
        ∀ fault o, e ≠ .text (.fault fault o) := by
  obtain ⟨-, hfound⟩ := (r.steady_surveyed bundled root setup).settle_ask uri text
  rw [hfound, Workshop.found?_eq_none_iff, tree_surveyed, surveyed,
    (Workshop.steady_surveyedBy _ _ _ _ _).2.2]

theorem serve_withFiles : ∃ r' : Run,
    (r.withFiles files).serve bundled root setup =
      if files.isEmpty then r'.ending exitFine (countLines (r.surveyed bundled root setup))
      else if (checkFiles (r.surveyed bundled root setup) files).isBroken then
        (r'.note runSource .error "Unhandled exception in main").ending exitDiagnostics
          (checkFiles (r.surveyed bundled root setup) files).lines
      else
        r'.ending
          (if (checkFiles (r.surveyed bundled root setup) files).isWrong then exitDiagnostics
            else exitFine)
          (checkFiles (r.surveyed bundled root setup) files).lines :=
  ⟨(surveyNotes root.toString (r.surveyed bundled root setup)).foldl
    (fun r text => r.note surveySource .info text) (r.withFiles files), rfl⟩

theorem printed_serve : ((r.withFiles files).serve bundled root setup).printed =
    if files = [] then countLines (r.surveyed bundled root setup)
    else (checkFiles (r.surveyed bundled root setup) files).lines := by
  obtain ⟨r', hserve⟩ := r.serve_withFiles bundled root setup files
  rw [hserve]
  cases files with
  | nil => rfl
  | cons file files =>
      simp only [List.isEmpty_cons, Bool.false_eq_true, if_false, reduceCtorEq]
      split <;> rfl

theorem exit_serve : ((r.withFiles files).serve bundled root setup).exit =
    if (checkFiles (r.surveyed bundled root setup) files).isWrong then 1 else 0 := by
  obtain ⟨r', hserve⟩ := r.serve_withFiles bundled root setup files
  rw [hserve]
  cases files with
  | nil => rfl
  | cons file files =>
      simp only [List.isEmpty_cons, Bool.false_eq_true, if_false]
      split
      · rename_i hbroken
        rw [isWrong_of_isBroken hbroken]
        rfl
      · split <;> rfl

end Serving

/-- A run prints for its documents, up to the first one that ends it, what it prints for each of
them alone; for all of them exactly when those from there on would print nothing. It ends with 0
or 1, with 0 exactly when the text of every document can be read and nothing is found in it by a
validation that gives an answer. A validation gives none when the analysis of the document fails
otherwise than by a fault of the text. -/
theorem serve_batch (r : Run) (bundled root : Path) (setup : Setup) (files : List String) :
    ((r.withFiles files).serve bundled root setup).printed =
      (if files = [] then countLines (r.surveyed bundled root setup) else []) ++
        (files.takeWhile fun f => !endsRun r.tree f).flatMap (fun f =>
          ((r.withFiles [f]).serve bundled root setup).printed) ∧
    (((r.withFiles files).serve bundled root setup).printed =
        (if files = [] then countLines (r.surveyed bundled root setup) else []) ++
          files.flatMap (fun f => ((r.withFiles [f]).serve bundled root setup).printed) ↔
      ∀ f ∈ files.dropWhile (fun f => !endsRun r.tree f),
        ((r.withFiles [f]).serve bundled root setup).printed = []) ∧
    (((r.withFiles files).serve bundled root setup).exit = 0 ∨
      ((r.withFiles files).serve bundled root setup).exit = 1) ∧
    (((r.withFiles files).serve bundled root setup).exit = 0 ↔
      ∀ file ∈ files, ∃ text, readText r.tree (.ofString file) = .ok (some text) ∧
        ∀ found, (r.surveyed bundled root setup).diagnosed? (uriOf r.tree file)
          (String.ofList text) = some found → found = []) ∧
    ∀ uri text, (r.surveyed bundled root setup).diagnosed? uri text = none ↔
      ∃ e, (analyze r.tree (.opened r.tree bundled setup.schemasFolder) uri text).1 = .error e ∧
        ∀ fault o, e ≠ .text (.fault fault o) := by
  have hsteady := r.steady_surveyed bundled root setup
  have hlines := lines_checkFiles hsteady hsteady files
  have hwrong := isWrong_checkFiles hsteady hsteady files
  have halone (f : String) : ((r.withFiles [f]).serve bundled root setup).printed =
      (checkFiles (r.surveyed bundled root setup) [f]).lines := by
    rw [printed_serve, if_neg (List.cons_ne_nil _ _)]
  have hprinted : ((r.withFiles files).serve bundled root setup).printed =
      (if files = [] then countLines (r.surveyed bundled root setup) else []) ++
        (files.takeWhile fun f => !endsRun r.tree f).flatMap (fun f =>
          ((r.withFiles [f]).serve bundled root setup).printed) := by
    rw [tree_surveyed] at hlines
    simp only [printed_serve, halone, ← hlines]
    split
    · rename_i hnil
      simp [hnil, checkFiles]
    · rfl
  refine ⟨hprinted, ?_, ?_, ?_, fun uri text => r.diagnosed?_eq_none_iff bundled root setup⟩
  · rw [hprinted, List.append_cancel_left_eq]
    have hsplit : files.flatMap (fun f => ((r.withFiles [f]).serve bundled root setup).printed) =
        (files.takeWhile fun f => !endsRun r.tree f).flatMap (fun f =>
            ((r.withFiles [f]).serve bundled root setup).printed) ++
          (files.dropWhile fun f => !endsRun r.tree f).flatMap (fun f =>
            ((r.withFiles [f]).serve bundled root setup).printed) := by
      rw [← List.flatMap_append, List.takeWhile_append_dropWhile]
    rw [hsplit, List.self_eq_append_right, List.flatMap_eq_nil_iff]
  · rw [exit_serve]
    split
    · exact .inr rfl
    · exact .inl rfl
  · simp only [Passes, tree_surveyed] at hwrong
    rw [← hwrong, exit_serve]
    split <;> simp_all

/-- A document that is no text, and one that is no JSON. -/
def unevenTree : Tree where
  root := .folder .full [("mod", .folder .full []), ("a.unit", .file [0xff]),
    ("b.unit", .file [0x78])]
  workingFolder := .ofString "/"

/-- A run over these files. -/
def unevenRun : Run where
  arguments := ⟨none, [], none, none, "default"⟩
  settings := ⟨"default", ⟨[], .noError⟩⟩
  tree := unevenTree
  now := .int 0
  journal := ⟨none, none, ⟨0, .all, .editor, [], none, none⟩⟩

theorem lines_uneven : endsRun unevenTree "a.unit" = true ∧
    (checkFiles (unevenRun.surveyed (.ofString "/bundled") (.ofString "/mod") .standard)
      ["b.unit"]).lines = ["b.unit:1:1: error: Invalid JSON: Value expected"] := by
  constructor <;> decide +kernel

/-- A run does not always print for each of its documents what it prints for it alone. -/
theorem not_forall_printed_alone :
    ¬ ∀ (r : Run) (bundled root : Path) (setup : Setup) (file file' : String),
      ((r.withFiles [file, file']).serve bundled root setup).printed =
        ((r.withFiles [file]).serve bundled root setup).printed ++
          ((r.withFiles [file']).serve bundled root setup).printed := by
  intro h
  have hlaw := h unevenRun (.ofString "/bundled") (.ofString "/mod") .standard "a.unit" "b.unit"
  have hsteady := unevenRun.steady_surveyed (.ofString "/bundled") (.ofString "/mod") .standard
  have hnothing (files : List String) :
      (checkFiles (unevenRun.surveyed (.ofString "/bundled") (.ofString "/mod") .standard)
        ("a.unit" :: files)).lines = [] := by
    rw [lines_checkFiles hsteady hsteady, tree_surveyed,
      List.takeWhile_cons_of_neg (by simp [unevenRun, lines_uneven.1])]
    rfl
  simp only [printed_serve, reduceCtorEq, if_false, hnothing, lines_uneven.2] at hlaw
  cases hlaw

end Run
end ModAtlas.CommandLine
