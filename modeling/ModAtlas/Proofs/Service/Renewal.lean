import ModAtlas.Proofs.Service.Gate

/-!
# What a rebuild leaves

A rebuild forgets the workspace and surveys it anew. What it leaves depends on the files, the root
and the language that it settled on, and on nothing else: not on what was known before, nor on the
order in which its parts are gathered. It is the same as in a service that was just opened.

## Implementation notes

Two runs are compared by way of `surveyed`, the atlas that every rebuild of these files leaves.
While a rebuild is under way the atlas is determined by the categories that it misses.
-/

namespace ModAtlas.Service
open ModAtlas.Files ModAtlas.Workspace ModAtlas.Reference

/-! ## Members of categories -/

section Gathering
variable (t : Tree) (f : Finder) (root language : String)

/-- The members of a workspace, but for those of some categories. -/
def gathered (missing : List Category) : MemberStore where
  members c := if c ∈ missing then [] else loadedMembers (load t f root language c)
  located c := if c ∈ missing then [] else loadedFiles (load t f root language c)

theorem gathered_all : gathered t f root language Category.all = .empty := by
  ext c : 1
  · exact if_pos (Category.mem_all c)
  · exact if_pos (Category.mem_all c)

theorem gathered_install {missing : List Category} {c : Category} (hc : c ∈ missing) :
    (gathered t f root language missing).install c (load t f root language c) =
      gathered t f root language (missing.filter (· ≠ c)) := by
  ext c' : 1
  · rw [MemberStore.install_members]
    by_cases heq : c' = c
    · subst heq
      simp [gathered]
    · simp [gathered, heq]
  · rw [MemberStore.install_located]
    by_cases heq : c' = c
    · -- a load that does not settle the files found none, and none were there
      subst heq
      by_cases hsettles : Settles (load t f root language c')
      · simp [gathered, hsettles]
      · simp [gathered, hsettles, hc, loadedFiles_of_not_settles hsettles]
    · simp [gathered, heq]

/-- Nothing can be gathered from a root that cannot be searched. -/
theorem gathered_of_unsearchable {f : Finder} {root : String} (h : Unsearchable f root)
    (missing : List Category) : gathered t f root language missing = .empty := by
  ext c : 1
  · simp [gathered, MemberStore.empty, load_of_unsearchable h, loadedMembers]
  · simp [gathered, MemberStore.empty, load_of_unsearchable h, loadedFiles]

/-- A rebuild that has gathered everything. -/
def Rebuild.whole : Rebuild where
  root
  language
  paths := some (collect t f root trackedSuffixes)
  missing := []
  texts := some (Rebuild.readTexts t f root)
  finished := false

/-- The atlas of a workspace: what a rebuild delivers that has gathered everything. -/
def surveyed : Atlas :=
  (Rebuild.whole t f root language).deliver ⟨.empty, gathered t f root language [], .empty⟩

end Gathering

/-! ## A rebuild by itself -/

namespace Rebuild

/-- What a rebuild has read comes from a workspace, and the atlas holds nothing else. -/
structure Surveys (t : Tree) (f : Finder) (root language : String) (r : Rebuild)
    (atlas : Atlas) : Prop where
  root_eq : r.root = root
  language_eq : r.language = language
  paths : r.paths = none ∨ r.paths = some (collect t f root trackedSuffixes)
  texts : r.texts = none ∨ r.texts = some (readTexts t f root)
  underWay : r.finished = false → atlas = ⟨.empty, gathered t f root language r.missing, .empty⟩
  ended : r.finished = true →
    atlas = surveyed t f root language ∧ (r.missing = [] ∨ Unsearchable f root)

section Surveys
variable {t : Tree} {f : Finder} {root language : String} {r : Rebuild} {atlas : Atlas}

theorem surveys_start (t : Tree) (f : Finder) (root language : String) :
    (start root language).Surveys t f root language .empty where
  root_eq := rfl
  language_eq := rfl
  paths := .inl rfl
  texts := .inl rfl
  underWay _ := by
    change Atlas.empty = ⟨_, gathered t f root language Category.all, _⟩
    rw [gathered_all]
    rfl
  ended h := by cases h

theorem Surveys.unsearchable (h : r.Surveys t f root language atlas) (failed : r.hasFailed = true) :
    Unsearchable f root := by
  rw [hasFailed_iff] at failed
  rcases failed with ⟨e, hpaths⟩ | ⟨e, htexts⟩
  · rcases h.paths with hnone | hsome
    · rw [hnone] at hpaths
      cases hpaths
    · exact unsearchable_of_collect (Option.some.inj (hsome.symm.trans hpaths))
  · rcases h.texts with hnone | hsome
    · rw [hnone] at htexts
      cases htexts
    · exact unsearchable_of_readTexts (Option.some.inj (hsome.symm.trans htexts))

theorem collect_of_unsearchable (h : Unsearchable f root) (t : Tree) :
    collect t f root trackedSuffixes = .error .nulInPath := by
  simp [collect, trackedSuffixes, List.mapM_cons, h t, bind, Except.bind, Except.map]

/-- Of a root that cannot be searched nothing is known. -/
theorem surveyed_of_unsearchable (h : Unsearchable f root) (t : Tree) (language : String) :
    surveyed t f root language = .empty := by
  unfold surveyed
  have hfailed : (whole t f root language).hasFailed = true := by
    rw [hasFailed_iff]
    exact .inl ⟨_, congrArg some (collect_of_unsearchable h t)⟩
  rw [deliver_of_hasFailed _ _ hfailed, gathered_of_unsearchable t language h]
  rfl

/-- Whatever part a rebuild gathers, the atlas holds what it has read. -/
theorem Surveys.gather (h : r.Surveys t f root language atlas) (part : Part) :
    (r.gather t f atlas part).1.Surveys t f root language (r.gather t f atlas part).2 := by
  rcases gather_cases t f r atlas part with
    ⟨ha, hr⟩ | ⟨-, ha, hr⟩ | ⟨-, ha, hr⟩ | ⟨c, hc, ha, hr⟩
  · rwa [ha, hr]
  · rw [ha, hr]
    exact { h with paths := .inr (by rw [h.root_eq]) }
  · rw [ha, hr]
    exact { h with texts := .inr (by rw [h.root_eq]) }
  · rw [ha, hr]
    refine { h with underWay := ?_, ended := ?_ }
    · intro hf
      rw [h.root_eq, h.language_eq, h.underWay hf]
      exact congrArg (Atlas.mk .empty · .empty) (gathered_install t f root language hc)
    · intro hf
      obtain ⟨hatlas, hleft⟩ := h.ended hf
      have hu : Unsearchable f root := by
        refine hleft.resolve_left fun hnil => ?_
        rw [hnil] at hc
        cases hc
      refine ⟨?_, .inr hu⟩
      rw [hatlas, surveyed_of_unsearchable hu, h.root_eq, load_of_unsearchable hu]
      simp [Atlas.empty, install_error_empty]

/-- A rebuild that is complete delivers the atlas of its workspace. -/
theorem Surveys.deliver (h : r.Surveys t f root language atlas) (complete : r.isComplete = true)
    (unfinished : r.finished = false) :
    ({ r with finished := true } : Rebuild).Surveys t f root language (r.deliver atlas) := by
  refine { h with underWay := nofun, ended := fun _ => ?_ }
  rcases Bool.or_eq_true_iff.mp complete with hfailed | hall
  · have hu := h.unsearchable hfailed
    rw [deliver_of_hasFailed _ _ hfailed, h.underWay unfinished, gathered_of_unsearchable _ _ hu,
      surveyed_of_unsearchable hu]
    exact ⟨rfl, .inr hu⟩
  · obtain ⟨⟨hpaths, htexts⟩, hnil⟩ : (r.paths.isSome = true ∧ r.texts.isSome = true) ∧
        r.missing = [] := by simpa using hall
    have hp : r.paths = some (collect t f root trackedSuffixes) :=
      h.paths.resolve_left (Option.isSome_iff_ne_none.mp hpaths)
    have ht : r.texts = some (readTexts t f root) :=
      h.texts.resolve_left (Option.isSome_iff_ne_none.mp htexts)
    refine ⟨?_, .inl hnil⟩
    rw [h.underWay unfinished, hnil]
    simp only [surveyed, whole, Rebuild.deliver, hp, ht]

end Surveys

/-- Has a rebuild gathered a part? -/
def Has (r : Rebuild) : Part → Prop
  | .paths => r.paths.isSome = true
  | .members c => c ∉ r.missing
  | .texts => r.texts.isSome = true

section Has
variable (t : Tree) (f : Finder) (r : Rebuild) (atlas : Atlas) {part : Part}

theorem has_gather (part : Part) : (r.gather t f atlas part).1.Has part := by
  cases part with
  | paths =>
      unfold gather
      cases h : r.paths with
      | none => rfl
      | some paths => simp [Has, h]
  | members c =>
      unfold gather
      by_cases hc : c ∈ r.missing
      · simp [Has, hc]
      · simp [Has, hc]
  | texts =>
      unfold gather
      cases h : r.texts with
      | none => rfl
      | some texts => simp [Has, h]

/-- What was gathered stays so. -/
theorem Has.gather {r : Rebuild} (h : r.Has part) (part' : Part) :
    (r.gather t f atlas part').1.Has part := by
  rcases gather_cases t f r atlas part' with ⟨-, hr⟩ | ⟨-, -, hr⟩ | ⟨-, -, hr⟩ | ⟨c, -, -, hr⟩
  · rwa [hr]
  · rw [hr]
    cases part with
    | paths => rfl
    | members c => exact h
    | texts => exact h
  · rw [hr]
    cases part with
    | paths => exact h
    | members c => exact h
    | texts => rfl
  · rw [hr]
    cases part with
    | paths => exact h
    | members c' => exact fun hc' => h (List.mem_filter.mp hc').1
    | texts => exact h

/-- A rebuild that has gathered every part is complete. -/
theorem isComplete_of_has {r : Rebuild} (h : ∀ part ∈ parts, r.Has part) :
    r.isComplete = true := by
  have hpaths : r.paths.isSome = true := h .paths (by simp [parts])
  have htexts : r.texts.isSome = true := h .texts (by simp [parts])
  have hnil : r.missing = [] := by
    refine List.eq_nil_iff_forall_not_mem.mpr fun c => ?_
    exact h (.members c) (by simp [parts, Category.mem_all])
  simp [isComplete, hpaths, htexts, hnil]

end Has
end Rebuild

/-! ## A rebuild in a workshop -/

namespace Action

/-- Does an action leave files, language and workspace alone, but for what a rebuild under way
does? -/
def isQuiet : Action → Bool
  | .edit _ => false
  | .rebuild .. => false
  | .speak _ => false
  | _ => true

end Action

namespace Workshop

/-- Of all rebuilds only one has something left to write; it surveys a workspace, and when it is
finished its root and its language are those of the session. -/
structure Renews (t : Tree) (f : Finder) (root language : String) (n : Nat) (s : Workshop) :
    Prop where
  tree_eq : s.tree = t
  finder_eq : s.service.finder = f
  others : ∀ {m r}, rebuildAt s.works m = some r → m ≠ n → r.isSpent = true
  own : ∃ r, rebuildAt s.works n = some r ∧ r.Surveys t f root language s.service.atlas ∧
    (r.finished = true →
      s.service.language = language ∧ s.service.root = some (.ofString root))

section Renews
variable {t : Tree} {f : Finder} {root language : String} {n : Nat} {s s' : Workshop} {a : Action}

theorem Renews.start {s : Workshop} (idle : s.IsIdle) (root : String) (language : Option String) :
    (s.act (.rebuild root language)).Renews s.tree s.service.finder root
      (s.rebuildLanguage language) s.nextTicket where
  tree_eq := rfl
  finder_eq := rfl
  others := by
    intro m r hm hne
    rw [act, rebuildAt_append_rebuild] at hm
    exact idle m r (by rwa [if_neg (show m ≠ s.works.length from hne)] at hm)
  own := by
    refine ⟨.start root (s.rebuildLanguage language), ?_, Rebuild.surveys_start _ _ _ _, ?_⟩
    · rw [act, rebuildAt_append_rebuild, nextTicket, if_pos rfl]
    · intro h
      cases h

theorem Renews.of_same (h : s.Renews t f root language n)
    (works : ∀ m, rebuildAt s'.works m = rebuildAt s.works m) (tree : s'.tree = s.tree)
    (service : ∃ library ledger, s'.service = { s.service with library, ledger }) :
    s'.Renews t f root language n := by
  obtain ⟨library, ledger, hservice⟩ := service
  obtain ⟨r, hn, hsurveys, hended⟩ := h.own
  constructor
  · rw [tree, h.tree_eq]
  · rw [hservice, ← h.finder_eq]
  · intro m r hm hne
    exact h.others (works m ▸ hm) hne
  · refine ⟨r, (works n).trans hn, ?_, ?_⟩
    · rwa [hservice]
    · rwa [hservice]

theorem Renews.gather (h : s.Renews t f root language n) {m : Nat} {r : Rebuild}
    (hm : rebuildAt s.works m = some r) (part : Part) :
    Workshop.Renews t f root language n
      { s with
        service := { s.service with
          atlas := (r.gather s.tree s.service.finder s.service.atlas part).2 }
        works := s.works.set m
          (.rebuild (r.gather s.tree s.service.finder s.service.atlas part).1) } := by
  obtain ⟨r₀, hn, hsurveys, hended⟩ := h.own
  refine ⟨h.tree_eq, h.finder_eq, ?_, ?_⟩
  · intro l r' hl hne
    rw [rebuildAt_set_rebuild hm] at hl
    split at hl
    · rename_i hlm
      obtain rfl := Option.some.inj hl
      exact Rebuild.gather_isSpent _ _ _ _ _ (h.others hm (hlm ▸ hne))
    · exact h.others hl hne
  · rw [rebuildAt_set_rebuild hm]
    by_cases hnm : n = m
    · subst m
      cases hm.symm.trans hn
      rw [if_pos rfl]
      refine ⟨_, rfl, ?_, ?_⟩
      · rw [h.tree_eq, h.finder_eq]
        exact hsurveys.gather part
      · intro hf
        rw [Rebuild.gather_finished] at hf
        exact hended hf
    · -- the other rebuild misses nothing
      have hnil := (Rebuild.isSpent_iff.mp (h.others hm (Ne.symm hnm))).2
      rw [if_neg hnm, Rebuild.gather_atlas_of_missing_nil _ _ _ _ _ hnil]
      exact ⟨r₀, hn, hsurveys, hended⟩

theorem Renews.conclude (h : s.Renews t f root language n) {m : Nat} {r : Rebuild}
    (hm : rebuildAt s.works m = some r) (complete : r.isComplete = true)
    (unfinished : r.finished = false) : (s.conclude m r).Renews t f root language n := by
  obtain ⟨r₀, hn, hsurveys, -⟩ := h.own
  have hmn : m = n := by
    by_contra hne
    have hspent := h.others hm hne
    rw [Rebuild.isSpent_eq_false_of_unfinished unfinished] at hspent
    cases hspent
  subst m
  cases hm.symm.trans hn
  refine ⟨h.tree_eq, h.finder_eq, ?_, ?_⟩
  · intro l r' hl hne
    rw [rebuildAt_conclude hn, if_neg hne] at hl
    exact h.others hl hne
  · refine ⟨{ r with finished := true }, ?_, hsurveys.deliver complete unfinished, ?_⟩
    · rw [rebuildAt_conclude hn, if_pos rfl]
    · intro _
      rw [← hsurveys.root_eq, ← hsurveys.language_eq]
      exact ⟨rfl, rfl⟩

/-- A quiet action leaves a rebuild to its survey. -/
theorem Renews.act (h : s.Renews t f root language n) (quiet : a.isQuiet = true) :
    (s.act a).Renews t f root language n := by
  have hstep := s.act_step a
  generalize s.act a = s' at hstep
  cases hstep with
  | edit tree => cases quiet
  | ask request =>
      exact h.of_same (fun m => rebuildAt_append_inquiry _ _ m) rfl ⟨_, _, rfl⟩
  | rebuild root language => cases quiet
  | close uri => exact h.of_same (fun _ => rfl) rfl ⟨_, _, rfl⟩
  | speak language => cases quiet
  | proceed hk =>
      obtain ⟨ledger, library, hp⟩ := s.service.proceed_fst s.tree _
      exact h.of_same (fun m => rebuildAt_set_inquiry hk _ m) rfl ⟨library, ledger, hp⟩
  | giveUp hk => exact h.of_same (fun m => rebuildAt_set_inquiry hk _ m) rfl ⟨_, _, rfl⟩
  | gather hm part => exact h.gather hm part
  | finish hm complete unfinished => exact h.conclude hm complete unfinished
  | idle => exact h

theorem Renews.run {actions : List Action} (h : s.Renews t f root language n)
    (quiet : ∀ a ∈ actions, a.isQuiet = true) : (s.run actions).Renews t f root language n := by
  induction actions generalizing s with
  | nil => exact h
  | cons a actions ih =>
      obtain ⟨hfirst, hrest⟩ := List.forall_mem_cons.mp quiet
      exact ih (h.act hfirst) hrest

end Renews

/-! ## What a rebuild leaves -/

/-- A rebuild leads from one workshop to another: it is started and finished, and in between
neither files nor language are changed and no other rebuild is started. -/
def Rebuilds (s : Workshop) (root : String) (language : Option String) (s' : Workshop) : Prop :=
  ∃ during, (∀ a ∈ during, a.isQuiet = true) ∧ s' = s.run (.rebuild root language :: during) ∧
    ∃ r, rebuildAt s'.works s.nextTicket = some r ∧ r.finished = true

section Rebuilds
variable {s s' : Workshop} {root : String} {language : Option String}

/-- What a rebuild leaves is determined by the files, its root and its language. -/
theorem Rebuilds.leaves (h : s.Rebuilds root language s') (idle : s.IsIdle) :
    s'.service.atlas = surveyed s.tree s.service.finder root (s.rebuildLanguage language) ∧
      s'.service.language = s.rebuildLanguage language ∧
      s'.service.root = some (.ofString root) := by
  obtain ⟨during, quiet, rfl, r, hn, hf⟩ := h
  obtain ⟨r', hn', hsurveys, hended⟩ := ((Renews.start idle root language).run quiet).own
  cases hn.symm.trans hn'
  exact ⟨(hsurveys.ended hf).1, hended hf⟩

theorem rebuildAt_gather {n : Nat} {r : Rebuild} (hn : rebuildAt s.works n = some r)
    (part : Part) : rebuildAt (s.act (.gather n part)).works n =
      some (r.gather s.tree s.service.finder s.service.atlas part).1 := by
  simp only [act, rebuildAt_eq_some_iff.mp hn]
  rw [rebuildAt_set_rebuild hn, if_pos rfl]

/-- After gathering some parts a rebuild has these and those that it had before. -/
theorem has_of_gathers {n : Nat} {r : Rebuild} (hn : rebuildAt s.works n = some r)
    (parts : List Part) :
    ∃ r', rebuildAt (s.run (parts.map (.gather n))).works n = some r' ∧
      r'.finished = r.finished ∧ ∀ part, r.Has part ∨ part ∈ parts → r'.Has part := by
  induction parts generalizing s r with
  | nil =>
      refine ⟨r, hn, rfl, ?_⟩
      rintro part (h | h)
      · exact h
      · cases h
  | cons first rest ih =>
      obtain ⟨r', hn', hfinished, hhas⟩ := ih (rebuildAt_gather hn first)
      refine ⟨r', hn', by rw [hfinished, Rebuild.gather_finished], ?_⟩
      rintro part (h | h)
      · exact hhas part (.inl (h.gather _ _ _ first))
      · rcases List.mem_cons.mp h with rfl | h
        · exact hhas part (.inl (Rebuild.has_gather _ _ _ _ part))
        · exact hhas part (.inr h)

/-- The actions of a rebuild to which nothing else happens. -/
def gatherAll (ticket : Nat) : List Action :=
  Rebuild.parts.map (.gather ticket) ++ [.finish ticket]

theorem isQuiet_of_mem_gatherAll {ticket : Nat} {a : Action} (h : a ∈ gatherAll ticket) :
    a.isQuiet = true := by
  rcases List.mem_append.mp h with h | h
  · obtain ⟨part, -, rfl⟩ := List.mem_map.mp h
    rfl
  · rw [List.mem_singleton.mp h]
    rfl

/-- Every rebuild can be finished. -/
theorem rebuilds_gatherAll (s : Workshop) (root : String) (language : Option String) :
    s.Rebuilds root language (s.run (.rebuild root language :: gatherAll s.nextTicket)) := by
  refine ⟨gatherAll s.nextTicket, fun _ => isQuiet_of_mem_gatherAll, rfl, ?_⟩
  have hstart : rebuildAt (s.act (.rebuild root language)).works s.nextTicket =
      some (.start root (s.rebuildLanguage language)) := by
    rw [act, rebuildAt_append_rebuild, nextTicket, if_pos rfl]
  obtain ⟨r, hn, hunfinished, hhas⟩ := has_of_gathers hstart Rebuild.parts
  have hcomplete := Rebuild.isComplete_of_has fun part hpart => hhas part (.inr hpart)
  refine ⟨{ r with finished := true }, ?_, rfl⟩
  rw [run_cons, gatherAll, run_append, run_cons, run_nil]
  rw [act_finish hn hcomplete hunfinished, rebuildAt_conclude hn, if_pos rfl]

end Rebuilds

/-! ## The same as in a new service -/

/-- The searches of a service never change. -/
theorem finder_act (s : Workshop) (a : Action) :
    (s.act a).service.finder = s.service.finder := by
  have hstep := s.act_step a
  generalize s.act a = s' at hstep
  cases hstep with
  | proceed hk =>
      obtain ⟨ledger, library, hp⟩ := s.service.proceed_fst s.tree _
      rw [hp]
  | _ => rfl

theorem finder_run (s : Workshop) (actions : List Action) :
    (s.run actions).service.finder = s.service.finder := by
  induction actions generalizing s with
  | nil => rfl
  | cons a actions ih => rw [run_cons, ih, finder_act]

/-- A rebuild with a language of its own can be finished whatever happened to the service before,
if earlier rebuilds have nothing left to write. It leaves the same as in a service that was opened
with the same setup over the same files: the identifiers, the members of every category and their
files, the texts, the language of the session and the root. -/
theorem rebuilt_eq_fresh (t : Tree) (bundled : Path) (setup : Setup) {earlier : List Action}
    (idle : ((opened t bundled setup).run earlier).IsIdle) (root : String) {language : String}
    (explicit : language ≠ "") :
    (∃ s', ((opened t bundled setup).run earlier).Rebuilds root (some language) s') ∧
      ∀ s' fresh, ((opened t bundled setup).run earlier).Rebuilds root (some language) s' →
        (opened ((opened t bundled setup).run earlier).tree bundled setup).Rebuilds root
            (some language) fresh →
          s'.service.atlas = fresh.service.atlas ∧
            s'.service.language = fresh.service.language ∧
            s'.service.root = fresh.service.root := by
  have hlanguage (s : Workshop) : s.rebuildLanguage (some language) = language := by
    simp [rebuildLanguage, explicit]
  refine ⟨⟨_, rebuilds_gatherAll _ root (some language)⟩, ?_⟩
  intro s' fresh h hfresh
  have hopened : (opened ((opened t bundled setup).run earlier).tree bundled setup).IsIdle := by
    intro n r hn
    cases hn
  obtain ⟨hatlas, hspoken, hroot⟩ := h.leaves idle
  obtain ⟨hatlas', hspoken', hroot'⟩ := hfresh.leaves hopened
  rw [hlanguage] at hatlas hspoken hatlas' hspoken'
  refine ⟨?_, hspoken.trans hspoken'.symm, hroot.trans hroot'.symm⟩
  calc s'.service.atlas
      = surveyed _ ((opened t bundled setup).run earlier).service.finder root language := hatlas
    _ = surveyed _ (opened t bundled setup).service.finder root language := by
        rw [finder_run]
        rfl
    _ = fresh.service.atlas := hatlas'.symm

/-! ## After another workspace -/

/-- The files of `skinTree` with another unit skin. -/
def otherSkinTree : Tree where
  root := .folder .full [
    ("mod", .folder .full [("unit_skin.entity_manifest", textFile "\x7b\"ids\": [\"y\"]\x7d")])]
  workingFolder := .ofString "/"

/-- A service like `skinService` over other files. -/
def openedOver (t : Tree) : Workshop :=
  .opened t (.ofString "/bundled") { Setup.standard with schemasFolder := some "/schemas" }

/-- A workspace was known, its files have changed, and another language is spoken. -/
def movedOn : List Action := wholeRebuild 0 ++ [.edit otherSkinTree, .speak "fr"]

theorem rebuilt_eq_fresh_moved :
    let s := (openedOver skinTree).run movedOn
    let rebuilt := s.run (.rebuild "/mod" (some "de") :: gatherAll 1)
    let fresh := (openedOver otherSkinTree).run (.rebuild "/mod" (some "de") :: gatherAll 0)
    (s.IsIdle ∧ "de" ≠ "") ∧
      s.service.atlas.members.members .unitSkin = ["x"] ∧
      rebuilt.service.atlas = fresh.service.atlas ∧
      rebuilt.service.language = fresh.service.language ∧
      fresh.service.atlas.members.members .unitSkin = ["y"] := by
  intro s rebuilt fresh
  have idle : s.IsIdle := by decide +kernel
  have explicit : "de" ≠ "" := by decide
  obtain ⟨hatlas, hlanguage, -⟩ := (rebuilt_eq_fresh skinTree _ _ idle "/mod" explicit).2
    rebuilt fresh (rebuilds_gatherAll _ _ _) (rebuilds_gatherAll _ _ _)
  exact ⟨⟨idle, explicit⟩, by decide +kernel, hatlas, hlanguage, by decide +kernel⟩

/-- An empty language is none: the rebuild keeps the language that was spoken before. -/
theorem not_forall_rebuilt_eq_fresh :
    ¬ ∀ earlier language, ((openedOver skinTree).run earlier).IsIdle →
      ∀ s' fresh, ((openedOver skinTree).run earlier).Rebuilds "/mod" (some language) s' →
        (openedOver ((openedOver skinTree).run earlier).tree).Rebuilds "/mod" (some language)
            fresh →
          s'.service.language = fresh.service.language := by
  intro h
  have idle : ((openedOver skinTree).run [.speak "fr"]).IsIdle := by decide +kernel
  have idle' : (openedOver ((openedOver skinTree).run [.speak "fr"]).tree).IsIdle := by
    decide +kernel
  have hrebuilt := rebuilds_gatherAll ((openedOver skinTree).run [.speak "fr"]) "/mod" (some "")
  have hfresh := rebuilds_gatherAll (openedOver ((openedOver skinTree).run [.speak "fr"]).tree)
    "/mod" (some "")
  have heq := h [.speak "fr"] "" idle _ _ hrebuilt hfresh
  rw [(hrebuilt.leaves idle).2.1, (hfresh.leaves idle').2.1] at heq
  revert heq
  decide

end Workshop
end ModAtlas.Service
