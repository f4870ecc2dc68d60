import ModAtlas.Proofs.Service.Step
import ModAtlas.Proofs.Workspace.Population

/-!
# The gate and the atlas

While a rebuild is under way the atlas is empty but for the members gathered so far, and the gate
is closed. Requests look at the gate once, so the gate keeps out those that come later, and no
others: an inquiry reads the atlas of an unfinished rebuild exactly when it was behind the gate
when the rebuild was started. Every other inquiry reads an atlas as a finished rebuild left it.

## Implementation notes

Rebuilds may follow one another in a run, but one is started only when the earlier ones have
nothing left to write. A rebuild that fails opens the gate with categories still missing; this
happens only when its root cannot be searched at all, and then what is gathered later is empty.
-/

namespace ModAtlas.Service
open ModAtlas.Files ModAtlas.Workspace ModAtlas.Reference

/-! ## Roots that cannot be searched -/

/-- No search of the root ever succeeds. -/
def Unsearchable (f : Finder) (root : String) : Prop :=
  ∀ t suffix, f.find t root suffix = .error .nulInPath

theorem unsearchable_of_find {f : Finder} {t : Tree} {root suffix : String} {e : FileError}
    (h : f.find t root suffix = .error e) : Unsearchable f root := by
  intro t' suffix'
  unfold Finder.find at h ⊢
  split at h
  · rename_i hnul
    rw [if_pos hnul]
  · cases h

theorem unsearchable_of_collect {f : Finder} {t : Tree} {root : String} {e : FileError}
    {suffixes : List String} (h : collect t f root suffixes = .error e) :
    Unsearchable f root := by
  unfold collect at h
  by_contra hs
  have hfind (suffix : String) : ∃ paths, f.find t root suffix = .ok paths := by
    cases hf : f.find t root suffix with
    | ok paths => exact ⟨paths, rfl⟩
    | error e => exact absurd (unsearchable_of_find hf) hs
  have hmap : ∃ found, suffixes.mapM (f.find t root) = .ok found := by
    clear h
    induction suffixes with
    | nil => exact ⟨[], rfl⟩
    | cons suffix rest ih =>
        obtain ⟨paths, hp⟩ := hfind suffix
        obtain ⟨found, hr⟩ := ih
        refine ⟨paths :: found, ?_⟩
        simp [List.mapM_cons, hp, hr, bind, Except.bind, pure, Except.pure]
  obtain ⟨found, hm⟩ := hmap
  rw [hm] at h
  cases h

theorem unsearchable_of_readTexts {f : Finder} {t : Tree} {root : String} {e : FileError}
    (h : Rebuild.readTexts t f root = .error e) : Unsearchable f root := by
  unfold Rebuild.readTexts at h
  cases hf : f.find t root localizedSuffix with
  | ok paths =>
      rw [hf] at h
      cases h
  | error e => exact unsearchable_of_find hf

theorem load_of_unsearchable {f : Finder} {root : String} (h : Unsearchable f root) (t : Tree)
    (language : String) (c : Category) :
    load t f root language c = .error (.file .nulInPath) := by
  unfold load
  split
  · simp [loadFiles, h t]
  · simp [loadManifest, h t]
  · simp [loadLocalizedKeys, h t]

/-! ## Gathering -/

theorem install_of_ne (store : MemberStore) {c c' : Category} (h : c' ≠ c)
    (loaded : Except ReadError Loaded) :
    (store.install c loaded).members c' = store.members c' ∧
      (store.install c loaded).located c' = store.located c' := by
  rw [MemberStore.install_members, MemberStore.install_located]
  simp [h]

theorem install_error_empty (c : Category) (e : ReadError) :
    MemberStore.empty.install c (.error e) = .empty := by
  ext c' : 1
  · simp [MemberStore.install_members, MemberStore.empty, loadedMembers]
  · simp [MemberStore.install_located, MemberStore.empty, loadedFiles]

namespace Rebuild

/-- Has a rebuild nothing left to write? -/
def isSpent (r : Rebuild) : Bool := r.finished && r.missing.isEmpty

theorem isSpent_iff {r : Rebuild} : r.isSpent = true ↔ r.finished = true ∧ r.missing = [] := by
  simp [isSpent]

theorem isSpent_eq_false_of_unfinished {r : Rebuild} (h : r.finished = false) :
    r.isSpent = false := by
  simp [isSpent, h]

theorem hasFailed_iff {r : Rebuild} : r.hasFailed = true ↔
    (∃ e, r.paths = some (.error e)) ∨ ∃ e, r.texts = some (.error e) := by
  unfold hasFailed
  rcases r.paths with _ | _ | _ <;> rcases r.texts with _ | _ | _ <;> simp

variable (t : Tree) (f : Finder) (r : Rebuild) (atlas : Atlas) (part : Part)

/-- What a gathering does: it takes in paths or texts, or it fills a missing category. -/
theorem gather_cases :
    (r.gather t f atlas part).2 = atlas ∧
        (r.gather t f atlas part).1 = r ∨
      (r.paths = none ∧ (r.gather t f atlas part).2 = atlas ∧
        (r.gather t f atlas part).1 =
          { r with paths := some (collect t f r.root trackedSuffixes) }) ∨
      (r.texts = none ∧ (r.gather t f atlas part).2 = atlas ∧
        (r.gather t f atlas part).1 = { r with texts := some (readTexts t f r.root) }) ∨
      ∃ c ∈ r.missing,
        (r.gather t f atlas part).2 =
            { atlas with members := atlas.members.install c (load t f r.root r.language c) } ∧
          (r.gather t f atlas part).1 = { r with missing := r.missing.filter (· ≠ c) } := by
  cases part with
  | paths =>
      cases h : r.paths with
      | none => exact .inr (.inl ⟨rfl, by simp [gather, h]⟩)
      | some paths => exact .inl (by simp [gather, h])
  | members c =>
      by_cases h : c ∈ r.missing
      · exact .inr (.inr (.inr ⟨c, h, by simp [gather, h]⟩))
      · exact .inl (by simp [gather, h])
  | texts =>
      cases h : r.texts with
      | none => exact .inr (.inr (.inl ⟨rfl, by simp [gather, h]⟩))
      | some texts => exact .inl (by simp [gather, h])

@[simp] theorem gather_root : (r.gather t f atlas part).1.root = r.root := by
  rcases gather_cases t f r atlas part with ⟨-, h⟩ | ⟨-, -, h⟩ | ⟨-, -, h⟩ | ⟨c, -, -, h⟩ <;> rw [h]

@[simp] theorem gather_language :
    (r.gather t f atlas part).1.language = r.language := by
  rcases gather_cases t f r atlas part with ⟨-, h⟩ | ⟨-, -, h⟩ | ⟨-, -, h⟩ | ⟨c, -, -, h⟩ <;> rw [h]

@[simp] theorem gather_finished : (r.gather t f atlas part).1.finished = r.finished := by
  rcases gather_cases t f r atlas part with ⟨-, h⟩ | ⟨-, -, h⟩ | ⟨-, -, h⟩ | ⟨c, -, -, h⟩ <;> rw [h]

@[simp] theorem gather_index : (r.gather t f atlas part).2.index = atlas.index := by
  rcases gather_cases t f r atlas part with ⟨h, -⟩ | ⟨-, h, -⟩ | ⟨-, h, -⟩ | ⟨c, -, h, -⟩ <;> rw [h]

@[simp] theorem gather_localization :
    (r.gather t f atlas part).2.localization = atlas.localization := by
  rcases gather_cases t f r atlas part with ⟨h, -⟩ | ⟨-, h, -⟩ | ⟨-, h, -⟩ | ⟨c, -, h, -⟩ <;> rw [h]

/-- A rebuild that misses nothing leaves the atlas alone. -/
theorem gather_atlas_of_missing_nil (h : r.missing = []) :
    (r.gather t f atlas part).2 = atlas := by
  rcases gather_cases t f r atlas part with ⟨h', -⟩ | ⟨-, h', -⟩ | ⟨-, h', -⟩ | ⟨c, hc, -⟩
  · exact h'
  · exact h'
  · exact h'
  · rw [h] at hc
    cases hc

/-- What is gathered from a root that cannot be searched leaves an empty atlas empty. -/
theorem gather_atlas_of_unsearchable (h : Unsearchable f r.root) :
    (r.gather t f .empty part).2 = .empty := by
  rcases gather_cases t f r .empty part with ⟨h', -⟩ | ⟨-, h', -⟩ | ⟨-, h', -⟩ | ⟨c, -, h', -⟩
  · exact h'
  · exact h'
  · exact h'
  · rw [h', load_of_unsearchable h]
    simp [Atlas.empty, install_error_empty]

/-- What a rebuild takes in does not depend on the atlas. -/
theorem gather_fst_atlas (atlas' : Atlas) :
    (r.gather t f atlas' part).1 = (r.gather t f atlas part).1 := by
  cases part with
  | paths => cases h : r.paths <;> simp [gather, h]
  | members c => by_cases h : c ∈ r.missing <;> simp [gather, h]
  | texts => cases h : r.texts <;> simp [gather, h]

/-- Categories that stay missing have not been written. -/
theorem gather_missing {c : Category} (h : c ∈ (r.gather t f atlas part).1.missing) :
    c ∈ r.missing ∧
      (r.gather t f atlas part).2.members.members c = atlas.members.members c ∧
      (r.gather t f atlas part).2.members.located c = atlas.members.located c := by
  rcases gather_cases t f r atlas part with
    ⟨ha, hr⟩ | ⟨-, ha, hr⟩ | ⟨-, ha, hr⟩ | ⟨d, -, ha, hr⟩
  · rw [hr] at h
    exact ⟨h, by rw [ha]; exact ⟨rfl, rfl⟩⟩
  · rw [hr] at h
    exact ⟨h, by rw [ha]; exact ⟨rfl, rfl⟩⟩
  · rw [hr] at h
    exact ⟨h, by rw [ha]; exact ⟨rfl, rfl⟩⟩
  · rw [hr] at h
    obtain ⟨hc, hne⟩ := List.mem_filter.mp h
    rw [ha]
    exact ⟨hc, install_of_ne _ (by simpa using hne) _⟩

/-- A rebuild without anything left to write stays so. -/
theorem gather_isSpent (h : r.isSpent = true) : (r.gather t f atlas part).1.isSpent = true := by
  have hr := isSpent_iff.mp h
  have hnil : (r.gather t f atlas part).1.missing = [] := by
    refine List.eq_nil_iff_forall_not_mem.mpr fun c hc => ?_
    simpa [hr.2] using (gather_missing t f r atlas part hc).1
  exact isSpent_iff.mpr ⟨by rw [gather_finished, hr.1], hnil⟩

/-- A rebuild that has failed stays so. -/
theorem gather_hasFailed (h : r.hasFailed = true) :
    (r.gather t f atlas part).1.hasFailed = true := by
  rw [hasFailed_iff] at h ⊢
  rcases gather_cases t f r atlas part with ⟨-, hr⟩ | ⟨hn, -, hr⟩ | ⟨hn, -, hr⟩ | ⟨c, -, -, hr⟩
  · rwa [hr]
  · rw [hr]
    simpa [hn] using Or.inr h
  · rw [hr]
    simpa [hn] using Or.inl h
  · rwa [hr]

/-- A rebuild fails by a gathering only when its root cannot be searched. -/
theorem unsearchable_of_gather_hasFailed (hf : r.hasFailed = true → Unsearchable f r.root)
    (h : (r.gather t f atlas part).1.hasFailed = true) : Unsearchable f r.root := by
  rw [hasFailed_iff] at h hf
  rcases gather_cases t f r atlas part with ⟨-, hr⟩ | ⟨-, -, hr⟩ | ⟨-, -, hr⟩ | ⟨c, -, -, hr⟩
  · exact hf (hr ▸ h)
  · rw [hr] at h
    rcases h with ⟨e, h⟩ | h
    · exact unsearchable_of_collect (Option.some.inj h)
    · exact hf (.inr h)
  · rw [hr] at h
    rcases h with h | ⟨e, h⟩
    · exact hf (.inl h)
    · exact unsearchable_of_readTexts (Option.some.inj h)
  · rw [hr] at h
    exact hf h

/-- A rebuild that has failed delivers nothing. -/
theorem deliver_of_hasFailed (h : r.hasFailed = true) : r.deliver atlas = atlas := by
  unfold deliver
  split
  · rename_i hp ht
    simp [hasFailed_iff, hp, ht] at h
  · rfl

end Rebuild

/-! ## Rebuilds that do not overlap -/

namespace Workshop

/-- Every rebuild has written all that it had to write. -/
def IsIdle (s : Workshop) : Prop := ∀ n r, rebuildAt s.works n = some r → r.isSpent = true

/-- A rebuild has cleared the atlas and not yet opened the gate. -/
def IsRebuilding (s : Workshop) : Prop := ∃ n r, rebuildAt s.works n = some r ∧ r.finished = false

theorem isIdle_iff {s : Workshop} :
    s.IsIdle ↔ ∀ w ∈ s.works, w.rebuild?.all Rebuild.isSpent = true := by
  constructor
  · intro h w hw
    obtain ⟨n, hn⟩ := List.mem_iff_getElem?.mp hw
    cases w with
    | inquiry i => rfl
    | rebuild r => exact h n r (rebuildAt_eq_some_iff.mpr hn)
  · intro h n r hn
    exact h (.rebuild r) (List.mem_of_getElem? (rebuildAt_eq_some_iff.mp hn))

theorem isRebuilding_iff {s : Workshop} :
    s.IsRebuilding ↔ ∃ w ∈ s.works, w.rebuild?.any (!·.finished) = true := by
  constructor
  · rintro ⟨n, r, hn, hf⟩
    exact ⟨.rebuild r, List.mem_of_getElem? (rebuildAt_eq_some_iff.mp hn), by
      simpa [Work.rebuild?] using hf⟩
  · rintro ⟨w, hw, hf⟩
    obtain ⟨n, hn⟩ := List.mem_iff_getElem?.mp hw
    cases w with
    | inquiry i => cases hf
    | rebuild r =>
        exact ⟨n, r, rebuildAt_eq_some_iff.mpr hn, by simpa [Work.rebuild?] using hf⟩

instance (s : Workshop) : Decidable s.IsIdle := decidable_of_iff _ isIdle_iff.symm

instance (s : Workshop) : Decidable s.IsRebuilding := decidable_of_iff _ isRebuilding_iff.symm

/-- What holds of a workshop whose rebuilds did not overlap: at most one of them has something
left to write. Until it is finished the gate is closed and nothing is in the atlas but members of
categories that are not missing; if its root cannot be searched, there are no members either. -/
structure Orderly (s : Workshop) : Prop where
  single : ∀ {m n r r'}, rebuildAt s.works m = some r → rebuildAt s.works n = some r' →
    r.isSpent = false → r'.isSpent = false → m = n
  closed : ∀ {n r}, rebuildAt s.works n = some r → r.finished = false →
    s.service.isReady = false ∧ s.service.atlas.index = .empty ∧
      s.service.atlas.localization = .empty
  unwritten : ∀ {n r c}, rebuildAt s.works n = some r → r.finished = false → c ∈ r.missing →
    s.service.atlas.members.members c = [] ∧ s.service.atlas.members.located c = []
  failed : ∀ {n r}, rebuildAt s.works n = some r → r.hasFailed = true →
    Unsearchable s.service.finder r.root
  abandoned : ∀ {n r}, rebuildAt s.works n = some r → r.finished = true →
    r.missing = [] ∨ r.hasFailed = true
  nothing : ∀ {n r}, rebuildAt s.works n = some r → r.isSpent = false →
    Unsearchable s.service.finder r.root → s.service.atlas = .empty

theorem orderly_opened (t : Tree) (bundled : Path) (setup : Setup) :
    (opened t bundled setup).Orderly := by
  constructor <;> simp [opened, workAt]

/-- An action that touches no rebuild and neither atlas nor gate keeps order. -/
theorem Orderly.of_same {s s' : Workshop} (h : s.Orderly)
    (works : ∀ n, rebuildAt s'.works n = rebuildAt s.works n)
    (atlas : s'.service.atlas = s.service.atlas)
    (ready : s'.service.isReady = s.service.isReady)
    (finder : s'.service.finder = s.service.finder) : s'.Orderly := by
  constructor
  · intro m n r r' hm hn
    exact h.single (works m ▸ hm) (works n ▸ hn)
  · intro n r hn hf
    rw [atlas, ready]
    exact h.closed (works n ▸ hn) hf
  · intro n r c hn hf hc
    rw [atlas]
    exact h.unwritten (works n ▸ hn) hf hc
  · intro n r hn hf
    rw [finder]
    exact h.failed (works n ▸ hn) hf
  · intro n r hn hf
    exact h.abandoned (works n ▸ hn) hf
  · intro n r hn hs hu
    rw [atlas]
    exact h.nothing (works n ▸ hn) hs (finder ▸ hu)

/-- A rebuild that is started when nothing is left of the others keeps order. -/
theorem Orderly.rebuild {s : Workshop} (h : s.Orderly) (idle : s.IsIdle) (root : String)
    (language : Option String) : (s.act (.rebuild root language)).Orderly := by
  have hlook (n : Nat) (r : Rebuild)
      (hn : rebuildAt (s.act (.rebuild root language)).works n = some r) :
      n = s.works.length ∧ r = .start root (s.rebuildLanguage language) ∨
        rebuildAt s.works n = some r := by
    rw [act, rebuildAt_append_rebuild] at hn
    split at hn
    · rename_i hlast
      exact .inl ⟨hlast, (Option.some.inj hn).symm⟩
    · exact .inr hn
  have hold {n : Nat} {r : Rebuild} (hn : rebuildAt s.works n = some r)
      (hs : r.isSpent = false) : False := by
    simp [idle n r hn] at hs
  constructor
  · intro m n r r' hm hn hr hr'
    rcases hlook m r hm with ⟨rfl, -⟩ | hm
    · rcases hlook n r' hn with ⟨rfl, -⟩ | hn
      · rfl
      · exact (hold hn hr').elim
    · exact (hold hm hr).elim
  · intro n r hn hf
    exact ⟨rfl, rfl, rfl⟩
  · intro n r c hn hf hc
    exact ⟨rfl, rfl⟩
  · intro n r hn hf
    rcases hlook n r hn with ⟨-, rfl⟩ | hn
    · simp [Rebuild.hasFailed_iff, Rebuild.start] at hf
    · exact h.failed hn hf
  · intro n r hn hf
    rcases hlook n r hn with ⟨-, rfl⟩ | hn
    · cases hf
    · exact h.abandoned hn hf
  · intro n r hn hs hu
    rfl

/-- Gathering a part keeps order. -/
theorem Orderly.gather {s : Workshop} (h : s.Orderly) {n : Nat} {r : Rebuild}
    (hn : rebuildAt s.works n = some r) (part : Part) : Workshop.Orderly
      { s with
        service := { s.service with
          atlas := (r.gather s.tree s.service.finder s.service.atlas part).2 }
        works := s.works.set n
          (.rebuild (r.gather s.tree s.service.finder s.service.atlas part).1) } := by
  have hlook (m : Nat) (r' : Rebuild)
      (hm : rebuildAt (s.works.set n
        (.rebuild (r.gather s.tree s.service.finder s.service.atlas part).1)) m = some r') :
      m = n ∧ r' = (r.gather s.tree s.service.finder s.service.atlas part).1 ∨
        m ≠ n ∧ rebuildAt s.works m = some r' := by
    rw [rebuildAt_set_rebuild hn] at hm
    split at hm
    · rename_i hmn
      exact .inl ⟨hmn, (Option.some.inj hm).symm⟩
    · rename_i hmn
      exact .inr ⟨hmn, hm⟩
  -- the rebuild that gathers is the only one that may still write
  have hatlas {m : Nat} {r' : Rebuild} (hm : rebuildAt s.works m = some r') (hmn : m ≠ n)
      (hs : r'.isSpent = false) :
      (r.gather s.tree s.service.finder s.service.atlas part).2 = s.service.atlas := by
    apply Rebuild.gather_atlas_of_missing_nil
    cases hr : r.isSpent with
    | false => exact absurd (h.single hm hn hs hr) hmn
    | true => exact (Rebuild.isSpent_iff.mp hr).2
  have hspent (hs : (r.gather s.tree s.service.finder s.service.atlas part).1.isSpent = false) :
      r.isSpent = false := by
    cases hr : r.isSpent with
    | false => rfl
    | true => rw [← hs, Rebuild.gather_isSpent _ _ _ _ _ hr]
  constructor
  · intro l m r₁ r₂ hl hm h₁ h₂
    rcases hlook l r₁ hl with ⟨hln, rfl⟩ | ⟨-, hl'⟩
    · rcases hlook m r₂ hm with ⟨hmn, -⟩ | ⟨-, hm'⟩
      · rw [hln, hmn]
      · exact hln.trans (h.single hn hm' (hspent h₁) h₂)
    · rcases hlook m r₂ hm with ⟨hmn, rfl⟩ | ⟨-, hm'⟩
      · exact (h.single hl' hn h₁ (hspent h₂)).trans hmn.symm
      · exact h.single hl' hm' h₁ h₂
  · intro m r' hm hf
    dsimp only
    rw [Rebuild.gather_index, Rebuild.gather_localization]
    rcases hlook m r' hm with ⟨rfl, rfl⟩ | ⟨-, hm⟩
    · exact h.closed hn (by simpa using hf)
    · exact h.closed hm hf
  · intro m r' c hm hf hc
    dsimp only
    rcases hlook m r' hm with ⟨rfl, rfl⟩ | ⟨hmn, hm⟩
    · obtain ⟨hc, hmem, hloc⟩ := Rebuild.gather_missing _ _ _ _ _ hc
      rw [hmem, hloc]
      exact h.unwritten hn (by simpa using hf) hc
    · rw [hatlas hm hmn (Rebuild.isSpent_eq_false_of_unfinished hf)]
      exact h.unwritten hm hf hc
  · intro m r' hm hf
    rcases hlook m r' hm with ⟨rfl, rfl⟩ | ⟨-, hm⟩
    · rw [Rebuild.gather_root]
      exact Rebuild.unsearchable_of_gather_hasFailed _ _ _ _ _ (h.failed hn) hf
    · exact h.failed hm hf
  · intro m r' hm hf
    rcases hlook m r' hm with ⟨rfl, rfl⟩ | ⟨-, hm⟩
    · rw [Rebuild.gather_finished] at hf
      rcases h.abandoned hn hf with hnil | hfailed
      · refine .inl (List.eq_nil_iff_forall_not_mem.mpr fun c hc => ?_)
        simpa [hnil] using (Rebuild.gather_missing _ _ _ _ _ hc).1
      · exact .inr (Rebuild.gather_hasFailed _ _ _ _ _ hfailed)
    · exact h.abandoned hm hf
  · intro m r' hm hs hu
    dsimp only at hu ⊢
    rcases hlook m r' hm with ⟨rfl, rfl⟩ | ⟨hmn, hm⟩
    · rw [Rebuild.gather_root] at hu
      rw [h.nothing hn (hspent hs) hu]
      exact Rebuild.gather_atlas_of_unsearchable _ _ _ _ hu
    · rw [hatlas hm hmn hs]
      exact h.nothing hm hs hu

/-- Finishing a rebuild keeps order. -/
theorem Orderly.conclude {s : Workshop} (h : s.Orderly) {n : Nat} {r : Rebuild}
    (hn : rebuildAt s.works n = some r) (complete : r.isComplete = true)
    (unfinished : r.finished = false) : (s.conclude n r).Orderly := by
  have hspent : r.isSpent = false := Rebuild.isSpent_eq_false_of_unfinished unfinished
  have hlook (m : Nat) (r' : Rebuild) (hm : rebuildAt (s.conclude n r).works m = some r') :
      m = n ∧ r' = { r with finished := true } ∨ m ≠ n ∧ rebuildAt s.works m = some r' := by
    rw [rebuildAt_conclude hn] at hm
    split at hm
    · rename_i hmn
      exact .inl ⟨hmn, (Option.some.inj hm).symm⟩
    · rename_i hmn
      exact .inr ⟨hmn, hm⟩
  have hother {m : Nat} {r' : Rebuild} (hm : rebuildAt s.works m = some r') (hmn : m ≠ n) :
      r'.isSpent = true := by
    by_contra hs
    exact hmn (h.single hm hn (Bool.eq_false_iff.mpr hs) hspent)
  have hleft : r.missing = [] ∨ r.hasFailed = true := by
    rcases Bool.or_eq_true_iff.mp complete with hf | hall
    · exact .inr hf
    · exact .inl (by simpa using (Bool.and_eq_true_iff.mp hall).2)
  constructor
  · intro l m r₁ r₂ hl hm h₁ h₂
    rcases hlook l r₁ hl with ⟨rfl, -⟩ | ⟨hln, hl⟩
    · rcases hlook m r₂ hm with ⟨rfl, -⟩ | ⟨hmn, hm⟩
      · rfl
      · simp [hother hm hmn] at h₂
    · simp [hother hl hln] at h₁
  · intro m r' hm hf
    rcases hlook m r' hm with ⟨-, rfl⟩ | ⟨hmn, hm⟩
    · cases hf
    · simp [(Rebuild.isSpent_iff.mp (hother hm hmn)).1] at hf
  · intro m r' c hm hf hc
    rcases hlook m r' hm with ⟨-, rfl⟩ | ⟨hmn, hm⟩
    · cases hf
    · simp [(Rebuild.isSpent_iff.mp (hother hm hmn)).1] at hf
  · intro m r' hm hf
    rcases hlook m r' hm with ⟨-, rfl⟩ | ⟨-, hm⟩
    · exact h.failed (r := r) hn hf
    · exact h.failed hm hf
  · intro m r' hm hf
    rcases hlook m r' hm with ⟨-, rfl⟩ | ⟨-, hm⟩
    · exact hleft
    · exact h.abandoned hm hf
  · intro m r' hm hs hu
    rcases hlook m r' hm with ⟨-, rfl⟩ | ⟨hmn, hm⟩
    · rcases hleft with hnil | hfailed
      · simp [Rebuild.isSpent, hnil] at hs
      · change r.deliver s.service.atlas = .empty
        rw [Rebuild.deliver_of_hasFailed _ _ hfailed]
        exact h.nothing hn hspent hu
    · simp [hother hm hmn] at hs

/-- Every action keeps order, if a rebuild is started only when nothing is left of the others. -/
theorem Orderly.act {s : Workshop} (h : s.Orderly) {a : Action}
    (idle : ∀ root language, a = .rebuild root language → s.IsIdle) : (s.act a).Orderly := by
  have hstep := s.act_step a
  generalize s.act a = s' at hstep
  cases hstep with
  | edit tree => exact h.of_same (fun _ => rfl) rfl rfl rfl
  | ask request =>
      exact h.of_same (fun n => rebuildAt_append_inquiry _ _ n) rfl rfl rfl
  | rebuild root language => exact h.rebuild (idle root language rfl) root language
  | close uri => exact h.of_same (fun _ => rfl) rfl rfl rfl
  | speak language => exact h.of_same (fun _ => rfl) rfl rfl rfl
  | proceed hk =>
      obtain ⟨ledger, library, hp⟩ := s.service.proceed_fst s.tree _
      refine h.of_same (fun n => rebuildAt_set_inquiry hk _ n) ?_ ?_ ?_ <;> rw [hp]
  | giveUp hk => exact h.of_same (fun n => rebuildAt_set_inquiry hk _ n) rfl rfl rfl
  | gather hn part => exact h.gather hn part
  | finish hn complete unfinished => exact h.conclude hn complete unfinished
  | idle => exact h

/-- Rebuilds follow one another in a run: each is started when the earlier ones have nothing left
to write. Everything else may come in any order. -/
def OneAtATime (start : Workshop) (actions : List Action) : Prop :=
  ∀ before root language after, actions = before ++ .rebuild root language :: after →
    (start.run before).IsIdle

theorem oneAtATime_cons {start : Workshop} {a : Action} {actions : List Action} :
    OneAtATime start (a :: actions) ↔
      (∀ root language, a = .rebuild root language → start.IsIdle) ∧
        OneAtATime (start.act a) actions := by
  constructor
  · intro h
    refine ⟨fun root language ha => h [] root language actions (by rw [ha]; rfl), ?_⟩
    intro before root language after hsplit
    exact h (a :: before) root language after (by rw [hsplit]; rfl)
  · rintro ⟨hfirst, hrest⟩ before root language after hsplit
    cases before with
    | nil => exact hfirst root language (List.cons.inj hsplit).1
    | cons b before =>
        obtain ⟨rfl, hrestSplit⟩ := List.cons.inj hsplit
        exact hrest before root language after hrestSplit

instance (start : Workshop) (a : Action) :
    Decidable (∀ root language, a = .rebuild root language → start.IsIdle) :=
  match a with
  | .rebuild root language =>
      decidable_of_iff start.IsIdle ⟨fun h _ _ _ => h, fun h => h root language rfl⟩
  | .edit _ | .ask _ | .close _ | .speak _ | .proceed _ | .giveUp _ | .gather _ _ | .finish _ =>
      isTrue nofun

instance decidableOneAtATime :
    (start : Workshop) → (actions : List Action) → Decidable (OneAtATime start actions)
  | _, [] => isTrue (by intro before _ _ _ h; simp at h)
  | start, a :: actions =>
      have := decidableOneAtATime (start.act a) actions
      decidable_of_iff _ oneAtATime_cons.symm

theorem OneAtATime.dropLast {start : Workshop} {actions : List Action} {a : Action}
    (h : OneAtATime start (actions ++ [a])) : OneAtATime start actions := by
  intro before root language after hsplit
  exact h before root language (after ++ [a]) (by simp [hsplit])

theorem OneAtATime.idle {start : Workshop} {actions : List Action} {a : Action}
    (h : OneAtATime start (actions ++ [a])) (root : String) (language : Option String)
    (ha : a = .rebuild root language) : (start.run actions).IsIdle :=
  h actions root language [] (by rw [ha])

section Runs
variable {start : Workshop} {actions : List Action}

theorem Orderly.run (h : start.Orderly) (once : OneAtATime start actions) :
    (start.run actions).Orderly := by
  induction actions using List.reverseRecOn with
  | nil => exact h
  | append_singleton actions a ih =>
      rw [run_append]
      exact (ih once.dropLast).act once.idle

/-! ## What is in the atlas when the gate is open -/

/-- The gate opens only when a rebuild is finished, and while it is open the atlas stays. -/
theorem Orderly.ready_cases {s : Workshop} (h : s.Orderly) {a : Action}
    (ready : (s.act a).service.isReady = true) :
    (∃ n, a = .finish n ∧ s.Fits (.finish n)) ∨
      s.service.isReady = true ∧ (s.act a).service.atlas = s.service.atlas := by
  have hstep := s.act_step a
  generalize s.act a = s' at hstep ready
  cases hstep with
  | edit tree => exact .inr ⟨ready, rfl⟩
  | ask request => exact .inr ⟨ready, rfl⟩
  | rebuild root language => cases ready
  | close uri => exact .inr ⟨ready, rfl⟩
  | speak language => exact .inr ⟨ready, rfl⟩
  | proceed hk =>
      obtain ⟨ledger, library, hp⟩ := s.service.proceed_fst s.tree _
      rw [hp] at ready ⊢
      exact .inr ⟨ready, rfl⟩
  | giveUp hk => exact .inr ⟨ready, rfl⟩
  | @gather n r hn part =>
      refine .inr ⟨ready, ?_⟩
      have hf : r.finished = true := by
        by_contra hf
        have hclosed := (h.closed hn (Bool.eq_false_iff.mpr hf)).1
        rw [show s.service.isReady = true from ready] at hclosed
        cases hclosed
      rcases h.abandoned hn hf with hnil | hfailed
      · exact Rebuild.gather_atlas_of_missing_nil _ _ _ _ _ hnil
      · cases hs : r.isSpent with
        | true =>
            exact Rebuild.gather_atlas_of_missing_nil _ _ _ _ _ (Rebuild.isSpent_iff.mp hs).2
        | false =>
            have hu := h.failed hn hfailed
            have hempty := h.nothing hn hs hu
            dsimp only
            rw [hempty]
            exact Rebuild.gather_atlas_of_unsearchable _ _ _ _ hu
  | finish hn complete unfinished => exact .inl ⟨_, rfl, _, hn, complete, unfinished⟩
  | idle => exact .inr ⟨ready, rfl⟩

/-- An atlas is as some finished rebuild of a run left it. -/
def LeftByRebuild (start : Workshop) (actions : List Action) (atlas : Atlas) : Prop :=
  ∃ before n after, actions = before ++ .finish n :: after ∧
    (start.run before).Fits (.finish n) ∧
      (start.run (before ++ [.finish n])).service.atlas = atlas

theorem LeftByRebuild.append {atlas : Atlas} (h : LeftByRebuild start actions atlas)
    (a : Action) : LeftByRebuild start (actions ++ [a]) atlas := by
  obtain ⟨before, n, after, rfl, hfits, hatlas⟩ := h
  exact ⟨before, n, after ++ [a], by simp, hfits, hatlas⟩

theorem leftByRebuild_of_ready (h : start.Orderly) (closed : start.service.isReady = false)
    (once : OneAtATime start actions) (ready : (start.run actions).service.isReady = true) :
    LeftByRebuild start actions (start.run actions).service.atlas := by
  induction actions using List.reverseRecOn with
  | nil =>
      rw [run_nil, closed] at ready
      cases ready
  | append_singleton actions a ih =>
      have horder := h.run once.dropLast
      rw [run_append] at ready
      rcases horder.ready_cases ready with ⟨n, rfl, hfits⟩ | ⟨hready, hatlas⟩
      · exact ⟨actions, n, [], rfl, hfits, rfl⟩
      · rw [run_append]
        exact hatlas ▸ (ih once.dropLast hready).append a

/-! ## Inquiries behind the closed gate -/

/-- While the gate is closed nobody passes it. -/
theorem isBehindGate_of_act {s : Workshop} {a : Action}
    (closed : (s.act a).service.isReady = false) {k : Nat} {i' : Inquiry}
    (hk : inquiryAt (s.act a).works k = some i') (behind : i'.isBehindGate = true) :
    ∃ i, inquiryAt s.works k = some i ∧ i.isBehindGate = true := by
  rcases inquiryAt_act hk with ⟨request, rfl, -, rfl⟩ | ⟨i, hi, hmoved⟩
  · have hclosed : s.service.isReady = false := closed
    simp [State.receive, hclosed, Inquiry.isBehindGate] at behind
  · refine ⟨i, hi, ?_⟩
    rcases hmoved with rfl | ⟨ready, -⟩ | ⟨-, rfl⟩ | ⟨-, rfl⟩
    · exact behind
    · rw [closed] at ready
      cases ready
    · exact Inquiry.isBehindGate_of_giveUp behind
    · exact Inquiry.isBehindGate_of_proceed behind

/-- An unfinished rebuild was unfinished before, or it has just been started. -/
theorem unfinished_of_act {s : Workshop} {a : Action} {n : Nat} {r' : Rebuild}
    (hn : rebuildAt (s.act a).works n = some r') (unfinished : r'.finished = false) :
    (∃ r, rebuildAt s.works n = some r ∧ r.finished = false) ∨
      ∃ root language, a = .rebuild root language ∧ n = s.nextTicket := by
  rcases rebuildAt_act hn with ⟨root, language, rfl, hlast, -⟩ | ⟨r, hr, hmoved⟩
  · exact .inr ⟨root, language, rfl, hlast⟩
  · refine .inl ⟨r, hr, ?_⟩
    rcases hmoved with rfl | ⟨-, rfl⟩ | ⟨part, -, rfl⟩
    · exact unfinished
    · cases unfinished
    · simpa using unfinished

/-- A gate that is closed behind somebody was closed by a rebuild that is not finished. -/
theorem isRebuilding_of_act {s : Workshop} {a : Action}
    (closed : (s.act a).service.isReady = false)
    (before : s.service.isReady = true ∨ s.IsRebuilding) : (s.act a).IsRebuilding := by
  have hstep := s.act_step a
  generalize s.act a = s' at hstep closed
  have hopen (same : s'.service.isReady = s.service.isReady) : s.IsRebuilding := by
    rcases before with hready | hrebuilding
    · rw [← same, closed] at hready
      cases hready
    · exact hrebuilding
  cases hstep with
  | edit tree => exact hopen rfl
  | ask request =>
      obtain ⟨n, r, hn, hf⟩ := hopen rfl
      exact ⟨n, r, by rwa [rebuildAt_append_inquiry], hf⟩
  | rebuild root language =>
      refine ⟨s.works.length, .start root (s.rebuildLanguage language), ?_, rfl⟩
      rw [rebuildAt_append_rebuild, if_pos rfl]
  | close uri => exact hopen rfl
  | speak language => exact hopen rfl
  | proceed hk =>
      obtain ⟨ledger, library, hp⟩ := s.service.proceed_fst s.tree _
      obtain ⟨n, r, hn, hf⟩ := hopen (by rw [hp])
      exact ⟨n, r, by rwa [rebuildAt_set_inquiry hk], hf⟩
  | giveUp hk =>
      obtain ⟨n, r, hn, hf⟩ := hopen rfl
      exact ⟨n, r, by rwa [rebuildAt_set_inquiry hk], hf⟩
  | @gather m r hm part =>
      obtain ⟨n, r', hn, hf⟩ := hopen rfl
      by_cases hnm : n = m
      · subst n
        cases hm.symm.trans hn
        exact ⟨m, _, by rw [rebuildAt_set_rebuild hm, if_pos rfl], by simpa using hf⟩
      · exact ⟨n, r', by rwa [rebuildAt_set_rebuild hm, if_neg hnm], hf⟩
  | finish hn complete unfinished => cases closed
  | idle => exact hopen rfl

theorem isRebuilding_of_closed (empty : start.works = [])
    (closed : (start.run actions).service.isReady = false) {k : Nat} {i : Inquiry}
    (hk : inquiryAt (start.run actions).works k = some i) (behind : i.isBehindGate = true) :
    (start.run actions).IsRebuilding := by
  induction actions using List.reverseRecOn generalizing i with
  | nil => simp [empty, workAt] at hk
  | append_singleton actions a ih =>
      rw [run_append] at closed hk ⊢
      obtain ⟨i₀, hk₀, behind₀⟩ := isBehindGate_of_act closed hk behind
      apply isRebuilding_of_act closed
      cases hready : (start.run actions).service.isReady with
      | true => exact .inl rfl
      | false => exact .inr (ih hready hk₀ behind₀)

/-- An inquiry that is behind the gate during a rebuild was there when the rebuild was started. -/
theorem behind_when_started (h : start.Orderly) (empty : start.works = [])
    (once : OneAtATime start actions) {n : Nat} {r : Rebuild}
    (hn : rebuildAt (start.run actions).works n = some r) (unfinished : r.finished = false)
    {k : Nat} {i : Inquiry} (hk : inquiryAt (start.run actions).works k = some i)
    (behind : i.isBehindGate = true) :
    ∃ before root language after, actions = before ++ .rebuild root language :: after ∧
      (∃ i, inquiryAt (start.run before).works k = some i ∧ i.isBehindGate = true) ∧
        n = (start.run before).nextTicket := by
  induction actions using List.reverseRecOn generalizing r i with
  | nil => simp [empty, workAt] at hn
  | append_singleton actions a ih =>
      have closed := ((h.run once).closed hn unfinished).1
      rw [run_append] at closed hn hk
      obtain ⟨i₀, hk₀, behind₀⟩ := isBehindGate_of_act closed hk behind
      rcases unfinished_of_act hn unfinished with ⟨r₀, hn₀, hf₀⟩ | ⟨root, language, rfl, hlast⟩
      · obtain ⟨before, root, language, after, rfl, hbefore⟩ :=
          ih once.dropLast hn₀ hf₀ hk₀ behind₀
        exact ⟨before, root, language, after ++ [a], by simp, hbefore⟩
      · exact ⟨actions, root, language, [], rfl, ⟨i₀, hk₀, behind₀⟩, hlast⟩

end Runs

/-! ## Which inquiries read the atlas of an unfinished rebuild -/

/-- The next step of an inquiry reads the atlas: its document has been analysed. -/
def Reads (s : Workshop) (k : Nat) : Prop :=
  ∃ i a, inquiryAt s.works k = some i ∧ i.stage = .analysed (.ok a)

instance (s : Workshop) (k : Nat) : Decidable (s.Reads k) :=
  match hk : inquiryAt s.works k with
  | none => isFalse (by rintro ⟨i, a, h, -⟩; rw [hk] at h; cases h)
  | some i =>
      match hstage : i.stage with
      | .analysed (.ok a) => isTrue ⟨i, a, hk, hstage⟩
      | .analysed (.error _) | .waiting | .admitted | .answered _ =>
          isFalse (by rintro ⟨j, a, h, h'⟩; rw [hk] at h; cases h; rw [hstage] at h'; cases h')

/-- A rebuild overtakes an inquiry: it was started when the inquiry was behind the gate, and it is
not finished. -/
def Overtaken (start : Workshop) (actions : List Action) (k : Nat) : Prop :=
  ∃ before root language after, actions = before ++ .rebuild root language :: after ∧
    (∃ i, inquiryAt (start.run before).works k = some i ∧ i.isBehindGate = true) ∧
      ∃ r, rebuildAt (start.run actions).works (start.run before).nextTicket = some r ∧
        r.finished = false

/-- No other action shows what is in the atlas: whatever was in it, all work goes on alike. -/
theorem act_works_of_not_reads (s : Workshop) {a : Action} (atlas : Atlas)
    (h : ∀ k, a = .proceed k → ¬ s.Reads k) :
    (act { s with service := { s.service with atlas } } a).works = (s.act a).works := by
  cases a with
  | proceed k =>
      have hk := h k rfl
      dsimp only [act]
      cases hw : s.works[k]? with
      | none => rfl
      | some w =>
          cases w with
          | rebuild r => rfl
          | inquiry i =>
              cases hstage : i.stage with
              | waiting => simp [State.proceed, hstage]
              | admitted => simp [State.proceed, hstage]
              | answered answer => simp [State.proceed, hstage]
              | analysed result =>
                  cases result with
                  | ok a => exact absurd ⟨i, a, inquiryAt_eq_some_iff.mpr hw, hstage⟩ hk
                  | error e =>
                      have hserve := s.service.serve_error_snd atlas s.tree i e
                      simp [State.proceed, hstage, hserve]
  | gather n part =>
      dsimp only [act]
      rcases s.works[n]? with _ | _ | r
      · rfl
      · rfl
      · have hgather := r.gather_fst_atlas s.tree s.service.finder s.service.atlas part atlas
        simp [hgather]
  | giveUp k =>
      dsimp only [act]
      rcases s.works[k]? with _ | _ | _ <;> rfl
  | finish n =>
      dsimp only [act]
      rcases s.works[n]? with _ | _ | r
      · rfl
      · rfl
      · dsimp only
        split <;> rfl
  | edit tree => rfl
  | ask request => rfl
  | rebuild root language => cases language <;> rfl
  | close uri => rfl
  | speak language => rfl

/-- An inquiry reads the atlas of an unfinished rebuild exactly when the rebuild has overtaken it.
It then finds no identifiers and no texts, and no members of categories still missing. In all other
cases it reads an atlas as a finished rebuild left it. -/
theorem reads_unfinished_iff_overtaken (t : Tree) (bundled : Path) (setup : Setup)
    {actions : List Action} (once : OneAtATime (opened t bundled setup) actions) {k : Nat}
    (reads : ((opened t bundled setup).run actions).Reads k) :
    (((opened t bundled setup).run actions).IsRebuilding ↔
        Overtaken (opened t bundled setup) actions k) ∧
      (¬ Overtaken (opened t bundled setup) actions k →
        LeftByRebuild (opened t bundled setup) actions
          ((opened t bundled setup).run actions).service.atlas) ∧
      ∀ n r, rebuildAt ((opened t bundled setup).run actions).works n = some r →
        r.finished = false →
          ((opened t bundled setup).run actions).service.atlas.index = .empty ∧
          ((opened t bundled setup).run actions).service.atlas.localization = .empty ∧
          ∀ c ∈ r.missing,
            ((opened t bundled setup).run actions).service.atlas.members.members c = [] := by
  obtain ⟨i, a, hk, hstage⟩ := reads
  have behind : i.isBehindGate = true := by simp [Inquiry.isBehindGate, hstage]
  have horder := (orderly_opened t bundled setup).run once
  have hiff : ((opened t bundled setup).run actions).IsRebuilding ↔
      Overtaken (opened t bundled setup) actions k := by
    constructor
    · rintro ⟨n, r, hn, unfinished⟩
      obtain ⟨before, root, language, after, hsplit, hbehind, rfl⟩ :=
        behind_when_started (orderly_opened t bundled setup) rfl once hn unfinished hk behind
      exact ⟨before, root, language, after, hsplit, hbehind, r, hn, unfinished⟩
    · rintro ⟨before, root, language, after, -, -, r, hn, unfinished⟩
      exact ⟨_, r, hn, unfinished⟩
  refine ⟨hiff, fun hnot => ?_, fun n r hn unfinished => ?_⟩
  · apply leftByRebuild_of_ready (orderly_opened t bundled setup) rfl once
    by_contra closed
    exact hnot (hiff.mp
      (isRebuilding_of_closed rfl (Bool.eq_false_iff.mpr closed) hk behind))
  · obtain ⟨-, hindex, hlocalization⟩ := horder.closed hn unfinished
    exact ⟨hindex, hlocalization, fun c hc => (horder.unwritten hn unfinished hc).1⟩

/-! ## An inquiry that is overtaken -/

/-- A file with a text. -/
def textFile (text : String) : Entry := .file (Text.Utf8.encode text.toList)

/-- A workspace that lists one unit skin, and a schema of units. -/
def skinTree : Tree where
  root := .folder .full [
    ("mod", .folder .full [("unit_skin.entity_manifest", textFile "\x7b\"ids\": [\"x\"]\x7d")]),
    ("schemas", .folder .full [
      ("unit-schema.json", textFile "\x7b\"properties\": \x7b\"skins\": \x7b\x7d\x7d\x7d")])]
  workingFolder := .ofString "/"

/-- A service over these files. -/
def skinService : Workshop :=
  .opened skinTree (.ofString "/bundled") { Setup.standard with schemasFolder := some "/schemas" }

/-- A whole rebuild, as the piece of work with a ticket. -/
def wholeRebuild (ticket : Nat) : List Action :=
  .rebuild "/mod" none :: (Rebuild.parts.map (.gather ticket) ++ [.finish ticket])

/-- A completion is asked for, and its document is analysed. -/
def askCompletion : List Action :=
  [.ask ⟨"file:///a.unit", "\x7b\"skins\": []\x7d", .completion 11⟩, .proceed 1]

/-- A completion is overtaken by a rebuild. -/
def overtaking : List Action :=
  wholeRebuild 0 ++ askCompletion ++ [.rebuild "/mod" none]

/-- The completion reads the atlas of an unfinished rebuild and is answered with nothing; without
the rebuild, or after it, there is something to offer. -/
theorem overtaking_run :
    (OneAtATime skinService overtaking ∧ (skinService.run overtaking).Reads 1) ∧
      (skinService.run overtaking).IsRebuilding ∧
      (skinService.run (overtaking ++ [.proceed 1])).answer? 1 = some (.completion []) ∧
      (skinService.run (wholeRebuild 0 ++ askCompletion ++ [.proceed 1])).answer? 1 ≠
        some (.completion []) ∧
      (skinService.run (wholeRebuild 0 ++ askCompletion ++ wholeRebuild 2 ++
        [.proceed 1])).answer? 1 ≠ some (.completion []) := by
  decide +kernel

theorem reads_unfinished_iff_overtaken_skins :
    OneAtATime skinService overtaking ∧ (skinService.run overtaking).Reads 1 ∧
      Overtaken skinService overtaking 1 :=
  ⟨overtaking_run.1.1, overtaking_run.1.2,
    (reads_unfinished_iff_overtaken _ _ _ overtaking_run.1.1 overtaking_run.1.2).1.mp
      overtaking_run.2.1⟩

/-- Being behind the gate is not enough to read only what a finished rebuild left. -/
theorem not_forall_reads_left :
    ¬ ∀ actions k, OneAtATime skinService actions → (skinService.run actions).Reads k →
      ¬ (skinService.run actions).IsRebuilding ∧
        LeftByRebuild skinService actions (skinService.run actions).service.atlas := by
  intro h
  obtain ⟨⟨once, reads⟩, rebuilding, -⟩ := overtaking_run
  exact (h overtaking 1 once reads).1 rebuilding

end Workshop
end ModAtlas.Service
