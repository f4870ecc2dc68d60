import Mathlib.Logic.Relation
import ModAtlas.Proofs.Files.Finding
import ModAtlas.Proofs.Workspace.Population

/-!
# Loads that overlap

The loads of a population are started together and finish in any order. Whichever finishes next,
only its own category changes, so every order ends in the same store: a load that failed leaves
its category empty, and every other category is as if it had been populated alone.

## Implementation notes

A category may be asked for more than once. Then it is loaded more than once, each time with the
same result, and the order matters no more than among different categories.
-/

namespace ModAtlas.Workspace
open ModAtlas.Files ModAtlas.Reference ModAtlas.Text

/-- A population under way: the store so far, and the categories whose loads are not finished. -/
structure Loading where
  store : MemberStore
  pending : List Category

section Finishing
variable (t : Tree) (finder : Finder) (root language : String)

/-- One of the pending loads finishes, and the store takes over what it gave. -/
inductive Finishes : Loading → Loading → Prop
  | next (s : MemberStore) (before : List Category) (c : Category) (after : List Category) :
      Finishes ⟨s, before ++ c :: after⟩
        ⟨s.install c (load t finder root language c), before ++ after⟩

/-- Loads finish one after the other. -/
abbrev Continues : Loading → Loading → Prop :=
  Relation.ReflTransGen (Finishes t finder root language)

/-- The store at the end: what is pending was populated. -/
def Loading.outcome (p : Loading) : MemberStore :=
  p.store.populate t finder root language p.pending

variable {t finder root language} {p q : Loading}

/-! ## The order of loads -/

/-- Populating depends on which categories are named, not on their order. -/
theorem populate_congr {categories categories' : List Category} (s : MemberStore)
    (same : ∀ c, c ∈ categories ↔ c ∈ categories') :
    s.populate t finder root language categories =
      s.populate t finder root language categories' := by
  ext c : 1
  · simp only [MemberStore.populate_members, same c]
  · simp only [MemberStore.populate_located, same c]

/-- Whichever load finishes next, the store at the end stays the same. -/
theorem Finishes.outcome_eq (h : Finishes t finder root language p q) :
    q.outcome t finder root language = p.outcome t finder root language := by
  cases h with
  | next s before c after =>
      calc (s.install c (load t finder root language c)).populate t finder root language
            (before ++ after)
          = s.populate t finder root language (c :: (before ++ after)) := rfl
        _ = s.populate t finder root language (before ++ c :: after) := by
          apply populate_congr
          intro d
          simp only [List.mem_cons, List.mem_append, or_left_comm]

theorem Continues.outcome_eq (h : Continues t finder root language p q) :
    q.outcome t finder root language = p.outcome t finder root language := by
  induction h with
  | refl => rfl
  | tail _ hstep ih => exact hstep.outcome_eq.trans ih

/-- A finished load is pending no more. -/
theorem Finishes.length_pending (h : Finishes t finder root language p q) :
    q.pending.length + 1 = p.pending.length := by
  cases h with
  | next s before c after => simp only [List.length_append, List.length_cons, Nat.add_assoc]

/-- Any pending load can be the next to finish. -/
theorem exists_finishes {c : Category} (hc : c ∈ p.pending) :
    ∃ q, Finishes t finder root language p q ∧
      q.store = p.store.install c (load t finder root language c) := by
  obtain ⟨s, pending⟩ := p
  obtain ⟨before, after, rfl⟩ := List.append_of_mem hc
  exact ⟨_, .next s before c after, rfl⟩

/-- Whatever has finished so far, the rest can finish too. -/
theorem continues_outcome (p : Loading) :
    Continues t finder root language p ⟨p.outcome t finder root language, []⟩ := by
  obtain ⟨s, pending⟩ := p
  induction pending generalizing s with
  | nil => exact .refl
  | cons c rest ih =>
      apply Relation.ReflTransGen.head (.next s [] c rest)
      exact ih (s.install c (load t finder root language c))

end Finishing

/-! ## Every order -/

namespace MemberStore
variable (t : Tree) (finder : Finder) (root language : String)

/-- The loads of a population finish in any order, each of them, whether it failed or not, and
always end in the same store. There a category whose load failed has no members and no located
files, every other category asked for is as if it had been populated alone, and the categories
not asked for are as before. -/
theorem populate_any_order (s : MemberStore) (categories : List Category) :
    (∀ p, Continues t finder root language ⟨s, requested categories⟩ p →
      (∀ c ∈ p.pending, ∃ q, Finishes t finder root language p q ∧
        q.store = p.store.install c (load t finder root language c)) ∧
      (∀ q, Finishes t finder root language p q → q.pending.length + 1 = p.pending.length) ∧
      Continues t finder root language p
        ⟨s.populate t finder root language (requested categories), []⟩ ∧
      (p.pending = [] → p.store = s.populate t finder root language (requested categories))) ∧
    (∀ c ∈ requested categories,
      (∀ e, load t finder root language c = .error e →
        (s.populate t finder root language (requested categories)).members c = [] ∧
          (s.populate t finder root language (requested categories)).located c = []) ∧
      (s.populate t finder root language (requested categories)).members c =
        (s.populate t finder root language [c]).members c ∧
      (s.populate t finder root language (requested categories)).located c =
        (s.populate t finder root language [c]).located c) ∧
    ∀ c ∉ requested categories,
      (s.populate t finder root language (requested categories)).members c = s.members c ∧
        (s.populate t finder root language (requested categories)).located c = s.located c := by
  refine ⟨fun p hp => ?_, fun c hc => ?_, fun c hc => ?_⟩
  · have hend : p.outcome t finder root language =
        s.populate t finder root language (requested categories) := hp.outcome_eq
    refine ⟨fun c hc => exists_finishes hc, fun q hq => hq.length_pending, ?_, ?_⟩
    · rw [← hend]
      exact continues_outcome p
    · intro hnone
      rw [← hend, Loading.outcome, hnone]
      rfl
  · refine ⟨fun e he => ?_, ?_, ?_⟩
    · simp [populate_members, populate_located, hc, he, loadedMembers, loadedFiles, Settles]
    · simp only [populate_members, hc, List.mem_singleton]
    · simp only [populate_located, hc, List.mem_singleton]
  · simp [populate_members, populate_located, hc]

/-! ## A broken manifest -/

/-- A folder with a manifest that is not JSON and one that is. -/
def manifestTree : Tree where
  root := .folder .full [("mod", .folder .full [
    ("ability.entity_manifest", .file (Utf8.encode "\x7b\"ids\": [\"shield\"]\x7d".toList)),
    ("buff.entity_manifest", .file (Utf8.encode "\x7b".toList))])]
  workingFolder := .ofString "/"

/-- A store with a buff and a weapon. -/
def stocked : MemberStore := (empty.setMembers .buff ["stale"]).setMembers .weapon ["kept"]

theorem list_manifestTree : manifestTree.list (Path.ofString "/mod") =
    .ok ["ability.entity_manifest", "buff.entity_manifest"] := by
  change Except.ok (sorted ["ability.entity_manifest", "buff.entity_manifest"]) = _
  rw [sorted, List.mergeSort_of_pairwise (by decide)]

theorem find_manifestTree (suffix : String) :
    (Finder.ofDepth 5).find manifestTree "/mod" suffix =
      .ok ((["ability.entity_manifest", "buff.entity_manifest"].filter fun name =>
        endsWith name.toList suffix.toList).map
          fun name => ((Path.ofString "/mod").child name).toString) := by
  change Except.ok ((Finder.ofDepth 5).walk manifestTree suffix 6 (Path.ofString "/mod")) = _
  rw [Finder.walk_of_files _ list_manifestTree (by decide +kernel)]

theorem load_buff : load manifestTree (.ofDepth 5) "/mod" "en" .buff = .error .notJson := by
  change loadManifest manifestTree (.ofDepth 5) "/mod" "buff" = _
  rw [loadManifest, find_manifestTree]
  rfl

theorem loadedMembers_ability :
    loadedMembers (load manifestTree (.ofDepth 5) "/mod" "en" .ability) = ["shield"] := by
  change loadedMembers (loadManifest manifestTree (.ofDepth 5) "/mod" "ability") = _
  rw [loadManifest, find_manifestTree]
  decide +kernel

theorem populate_any_order_broken :
    let finished := stocked.populate manifestTree (.ofDepth 5) "/mod" "en" [.buff, .ability]
    Continues manifestTree (.ofDepth 5) "/mod" "en" ⟨stocked, [.buff, .ability]⟩
        ⟨stocked.install .ability (load manifestTree (.ofDepth 5) "/mod" "en" .ability), [.buff]⟩ ∧
      Continues manifestTree (.ofDepth 5) "/mod" "en"
        ⟨stocked.install .ability (load manifestTree (.ofDepth 5) "/mod" "en" .ability), [.buff]⟩
        ⟨finished, []⟩ ∧
      load manifestTree (.ofDepth 5) "/mod" "en" .buff = .error .notJson ∧
      finished.members .buff = [] ∧ finished.members .ability = ["shield"] ∧
      finished.members .weapon = ["kept"] := by
  intro finished
  obtain ⟨horder, hasked, hother⟩ :=
    populate_any_order manifestTree (.ofDepth 5) "/mod" "en" stocked [.buff, .ability]
  have hfirst : Continues manifestTree (.ofDepth 5) "/mod" "en" ⟨stocked, [.buff, .ability]⟩
      ⟨stocked.install .ability (load manifestTree (.ofDepth 5) "/mod" "en" .ability), [.buff]⟩ :=
    .single (.next stocked [.buff] .ability [])
  have halone : (stocked.populate manifestTree (.ofDepth 5) "/mod" "en" [.ability]).members
      .ability = ["shield"] := by
    rw [populate_members, if_pos (List.mem_singleton_self _), loadedMembers_ability]
  refine ⟨hfirst, (horder _ hfirst).2.2.1, load_buff, ?_, ?_, ?_⟩
  · exact ((hasked .buff (by decide)).1 _ load_buff).1
  · exact (hasked .ability (by decide)).2.1.trans halone
  · exact (hother .weapon (by decide)).1.trans (by decide +kernel)

/-- Naming no category asks for all of them, so that one that is not named is populated. -/
theorem not_forall_untouched : ¬ ∀ (s : MemberStore) (categories : List Category) (c : Category),
    c ∉ categories →
      (s.populate manifestTree (.ofDepth 5) "/mod" "en" (requested categories)).members c =
        s.members c := by
  intro h
  have heq := h .empty [] .ability (by decide)
  rw [populate_members, if_pos (by decide), loadedMembers_ability] at heq
  cases heq

end MemberStore
end ModAtlas.Workspace
