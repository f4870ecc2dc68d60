import ModAtlas.Proofs.Service.Gate

/-!
# The language of the session

The language of a session is changed by `speak` and by a rebuild with a language of its own. A
rebuild settles on its language when it is started, and makes it that of the session when it is
finished. What was spoken in between is then overruled: the change is lost unless another one
follows when the rebuild is finished. No other change is lost.
-/

namespace ModAtlas.Service

namespace Action

/-- The language that an action asks the session to have. The empty language asks for nothing when
it is that of a rebuild. -/
def asksFor : Action → Option String
  | .speak language => some language
  | .rebuild _ (some language) => if language.isEmpty then none else some language
  | _ => none

/-- Does an action start a rebuild? -/
def isRebuild : Action → Bool
  | .rebuild .. => true
  | _ => false

theorem asksFor_eq_none {a : Action} (other : a.isRebuild = false)
    (h : ¬ ∃ language, a = .speak language) : a.asksFor = none := by
  cases a with
  | speak language => exact absurd ⟨language, rfl⟩ h
  | rebuild root language => cases other
  | edit | ask | close | proceed | giveUp | gather | finish => rfl

end Action

/-- The language asked for most recently in a run, or that of the session before it. -/
def askedLast (session : String) (actions : List Action) : String :=
  (actions.filterMap Action.asksFor).getLast?.getD session

theorem askedLast_cons (session : String) (a : Action) (actions : List Action) :
    askedLast session (a :: actions) = askedLast (a.asksFor.getD session) actions := by
  unfold askedLast
  cases h : a.asksFor with
  | none => rw [List.filterMap_cons_none h, Option.getD_none]
  | some language => rw [List.filterMap_cons_some h, List.getLast?_cons, Option.getD_some,
      Option.getD_some]

theorem askedLast_append (session : String) (as bs : List Action) :
    askedLast session (as ++ bs) = askedLast (askedLast session as) bs := by
  induction as generalizing session with
  | nil => rfl
  | cons a as ih => rw [List.cons_append, askedLast_cons, ih, askedLast_cons]

/-- Where nothing is asked for, the session keeps its language. -/
theorem askedLast_of_silent {actions : List Action} (h : actions.filterMap Action.asksFor = [])
    (session : String) : askedLast session actions = session := by
  rw [askedLast, h]
  rfl

/-- Where something is asked for, the language of the session before does not matter. -/
theorem askedLast_congr {actions : List Action} (h : actions.filterMap Action.asksFor ≠ [])
    (session session' : String) : askedLast session actions = askedLast session' actions := by
  unfold askedLast
  rw [List.getLast?_eq_some_getLast h, Option.getD_some, Option.getD_some]

namespace Workshop
variable {s : Workshop} {a : Action}

/-! ## What one action does to the language -/

/-- The language that a rebuild settles on is the one that it asks for. -/
theorem rebuildLanguage_eq (s : Workshop) (root : String) (language : Option String) :
    s.rebuildLanguage language =
      (Action.asksFor (.rebuild root language)).getD s.service.language := by
  cases language with
  | none => rfl
  | some l =>
      unfold rebuildLanguage Action.asksFor
      dsimp only
      split <;> rfl

/-- Unless a rebuild is started or finished, the session has the language asked for. -/
theorem language_act (other : a.isRebuild = false)
    (unfit : ∀ n, a = .finish n → ¬ s.Fits (.finish n)) :
    (s.act a).service.language = a.asksFor.getD s.service.language := by
  have hstep := s.act_step a
  generalize s.act a = s' at hstep
  cases hstep with
  | edit tree => rfl
  | ask request => rfl
  | rebuild root language => cases other
  | close uri => rfl
  | speak language => rfl
  | proceed hk =>
      obtain ⟨ledger, library, hp⟩ := s.service.proceed_fst s.tree _
      rw [hp]
      rfl
  | giveUp hk => rfl
  | gather hn part => rfl
  | finish hn complete unfinished => exact absurd ⟨_, hn, complete, unfinished⟩ (unfit _ rfl)
  | idle hnot =>
      cases a with
      | edit | ask | rebuild | close | speak => exact absurd trivial hnot
      | proceed | giveUp | gather | finish => rfl

/-- When a rebuild is finished, its language becomes that of the session. -/
theorem language_finish {n : Nat} {r : Rebuild} (hn : rebuildAt s.works n = some r)
    (complete : r.isComplete = true) (unfinished : r.finished = false) :
    (s.act (.finish n)).service.language = r.language := by
  rw [act_finish hn complete unfinished]
  rfl

/-! ## Before and after a rebuild -/

/-- Without a rebuild under way none is under way after another action either. -/
theorem not_isRebuilding_act (settled : ¬ s.IsRebuilding) (other : a.isRebuild = false) :
    ¬ (s.act a).IsRebuilding := by
  rintro ⟨n, r, hn, hf⟩
  rcases unfinished_of_act hn hf with h | ⟨root, language, rfl, -⟩
  · exact settled ⟨n, h⟩
  · cases other

theorem not_fits_finish (settled : ¬ s.IsRebuilding) (n : Nat) : ¬ s.Fits (.finish n) := by
  rintro ⟨r, hn, -, hf⟩
  exact settled ⟨n, r, hn, hf⟩

/-- Without a rebuild the session has the language asked for most recently. -/
theorem language_run_of_settled {actions : List Action} (settled : ¬ s.IsRebuilding)
    (others : ∀ a ∈ actions, a.isRebuild = false) :
    ¬ (s.run actions).IsRebuilding ∧
      (s.run actions).service.language = askedLast s.service.language actions := by
  induction actions generalizing s with
  | nil => exact ⟨settled, rfl⟩
  | cons a actions ih =>
      obtain ⟨hother, hothers⟩ := List.forall_mem_cons.mp others
      have hlanguage := language_act hother fun n _ => not_fits_finish settled n
      rw [run_cons, askedLast_cons, ← hlanguage]
      exact ih (not_isRebuilding_act settled hother) hothers

/-! ## During a rebuild -/

/-- One rebuild is under way, and it has settled on a language. -/
structure Awaits (s : Workshop) (n : Nat) (language : String) : Prop where
  underWay : ∃ r, rebuildAt s.works n = some r ∧ r.finished = false ∧ r.language = language
  only : ∀ {m r}, rebuildAt s.works m = some r → r.finished = false → m = n

theorem Awaits.start (settled : ¬ s.IsRebuilding) (root : String) (language : Option String) :
    (s.act (.rebuild root language)).Awaits s.nextTicket (s.rebuildLanguage language) := by
  constructor
  · refine ⟨.start root (s.rebuildLanguage language), ?_, rfl, rfl⟩
    rw [act, rebuildAt_append_rebuild, nextTicket, if_pos rfl]
  · intro m r hm hf
    rcases unfinished_of_act hm hf with h | ⟨-, -, -, hlast⟩
    · exact absurd ⟨m, h⟩ settled
    · exact hlast

theorem Awaits.isRebuilding {n : Nat} {language : String} (h : s.Awaits n language) :
    s.IsRebuilding := by
  obtain ⟨r, hn, hf, -⟩ := h.underWay
  exact ⟨n, r, hn, hf⟩

/-- A rebuild that is awaited is finished by an action, or it is still awaited. -/
theorem Awaits.act {n : Nat} {language : String} (h : s.Awaits n language)
    (other : a.isRebuild = false) :
    (a.asksFor = none ∧ ¬ (s.act a).IsRebuilding ∧ (s.act a).service.language = language) ∨
      (s.act a).Awaits n language := by
  obtain ⟨r, hn, hf, rfl⟩ := h.underWay
  have honly {m : Nat} {r' : Rebuild} (hm : rebuildAt (s.act a).works m = some r')
      (hf' : r'.finished = false) : m = n := by
    rcases unfinished_of_act hm hf' with ⟨r₀, hm₀, hf₀⟩ | ⟨root, language, rfl, -⟩
    · exact h.only hm₀ hf₀
    · cases other
  obtain ⟨r', hn', hmoved⟩ := rebuild_moves hn a
  rcases hmoved with rfl | ⟨rfl, ⟨r₀, hn₀, complete, unfinished⟩, rfl⟩ | ⟨part, rfl, rfl⟩
  · exact .inr ⟨⟨r', hn', hf, rfl⟩, honly⟩
  · left
    cases hn₀.symm.trans hn
    refine ⟨rfl, ?_, language_finish hn complete unfinished⟩
    rintro ⟨m, r', hm, hf'⟩
    obtain rfl := honly hm hf'
    cases hm.symm.trans hn'
    cases hf'
  · exact .inr ⟨⟨_, hn', by simpa using hf, by simp⟩, honly⟩

/-- In a run the last change of the language is spoken, at a time when a rebuild is under way. -/
def LastSpokenDuring (s : Workshop) (actions : List Action) : Prop :=
  ∃ during language after, actions = during ++ .speak language :: after ∧
    (s.run during).IsRebuilding ∧ after.filterMap Action.asksFor = []

theorem lastSpokenDuring_cons {actions : List Action} :
    s.LastSpokenDuring (a :: actions) ↔
      (s.IsRebuilding ∧ (∃ language, a = .speak language) ∧
          actions.filterMap Action.asksFor = []) ∨
        (s.act a).LastSpokenDuring actions := by
  constructor
  · rintro ⟨during, language, after, hsplit, hrebuilding, hsilent⟩
    cases during with
    | nil =>
        obtain ⟨rfl, rfl⟩ := List.cons.inj hsplit
        exact .inl ⟨hrebuilding, ⟨language, rfl⟩, hsilent⟩
    | cons b during =>
        obtain ⟨rfl, rfl⟩ := List.cons.inj hsplit
        exact .inr ⟨during, language, after, rfl, hrebuilding, hsilent⟩
  · rintro (⟨hrebuilding, ⟨language, rfl⟩, hsilent⟩ |
      ⟨during, language, after, rfl, hrebuilding, hsilent⟩)
    · exact ⟨[], language, actions, rfl, hrebuilding, hsilent⟩
    · exact ⟨a :: during, language, after, rfl, hrebuilding, hsilent⟩

instance decidableLastSpokenDuring :
    (s : Workshop) → (actions : List Action) → Decidable (s.LastSpokenDuring actions)
  | _, [] => isFalse (by rintro ⟨during, language, after, h, -⟩; simp at h)
  | s, a :: actions =>
      have := decidableLastSpokenDuring (s.act a) actions
      have : Decidable (∃ language, a = .speak language) :=
        match a with
        | .speak language => isTrue ⟨language, rfl⟩
        | .edit _ | .ask _ | .rebuild .. | .close _ | .proceed _ | .giveUp _ | .gather ..
        | .finish _ => isFalse nofun
      decidable_of_iff _ lastSpokenDuring_cons.symm

theorem not_lastSpokenDuring_of_silent {actions : List Action}
    (silent : actions.filterMap Action.asksFor = []) : ¬ s.LastSpokenDuring actions := by
  rintro ⟨during, language, after, rfl, -, -⟩
  rw [List.filterMap_append, List.append_eq_nil_iff] at silent
  cases silent.2

theorem not_lastSpokenDuring_of_settled {actions : List Action} (settled : ¬ s.IsRebuilding)
    (others : ∀ a ∈ actions, a.isRebuild = false) : ¬ s.LastSpokenDuring actions := by
  rintro ⟨during, language, after, rfl, hrebuilding, -⟩
  have hduring : ∀ a ∈ during, a.isRebuild = false := fun a ha =>
    others a (List.mem_append_left _ ha)
  exact (language_run_of_settled settled hduring).1 hrebuilding

/-- When the rebuild is over, the session has the language of the rebuild if the last change was
spoken during it, and otherwise the language asked for most recently. -/
theorem Awaits.language_run {n : Nat} {language : String} {actions : List Action}
    (h : s.Awaits n language) (others : ∀ a ∈ actions, a.isRebuild = false)
    (done : ¬ (s.run actions).IsRebuilding) :
    (s.LastSpokenDuring actions → (s.run actions).service.language = language) ∧
      (¬ s.LastSpokenDuring actions →
        (s.run actions).service.language = askedLast language actions) := by
  induction actions generalizing s with
  | nil => exact absurd h.isRebuilding done
  | cons a actions ih =>
      obtain ⟨hother, hothers⟩ := List.forall_mem_cons.mp others
      rw [run_cons] at done ⊢
      rw [lastSpokenDuring_cons, askedLast_cons]
      rcases h.act hother with ⟨hasks, settled, hlanguage⟩ | h'
      · -- the rebuild is finished, and all changes that follow take effect
        have hnot := not_lastSpokenDuring_of_settled settled hothers
        have hspeak : ¬ ∃ language, a = .speak language := by
          rintro ⟨l, rfl⟩
          cases hasks
        obtain ⟨-, hrun⟩ := language_run_of_settled settled hothers
        rw [hrun, hlanguage, hasks, Option.getD_none]
        simp [hnot, hspeak]
      · obtain ⟨hduring, hafter⟩ := ih h' hothers done
        by_cases hsilent : actions.filterMap Action.asksFor = []
        · have hfinal := hafter (not_lastSpokenDuring_of_silent hsilent)
          rw [askedLast_of_silent hsilent] at hfinal
          rw [askedLast_of_silent hsilent, hfinal]
          constructor
          · intro _
            rfl
          · intro hnot
            have hspeak : ¬ ∃ language, a = .speak language := by
              intro hspeak
              exact hnot (.inl ⟨h.isRebuilding, hspeak, hsilent⟩)
            rw [Action.asksFor_eq_none hother hspeak, Option.getD_none]
        · rw [askedLast_congr hsilent _ language]
          constructor
          · rintro (⟨-, -, h⟩ | hlast)
            · exact absurd h hsilent
            · exact hduring hlast
          · intro hnot
            exact hafter fun hlast => hnot (.inr hlast)

/-! ## Which changes are lost -/

/-- The language asked for most recently is that of the session when a rebuild is over, unless it
was spoken during the rebuild and differs from the language that the rebuild had settled on. In
that case the session has the language of the rebuild. -/
theorem language_eq_askedLast_iff {start : Workshop} (settled : ¬ start.IsRebuilding)
    {before after : List Action} (others : ∀ a ∈ before ++ after, a.isRebuild = false)
    (root : String) (language : Option String)
    (done : ¬ (start.run (before ++ .rebuild root language :: after)).IsRebuilding) :
    ((start.run (before ++ .rebuild root language :: after)).service.language =
        askedLast start.service.language (before ++ .rebuild root language :: after) ↔
      ((start.run (before ++ [.rebuild root language])).LastSpokenDuring after →
        askedLast start.service.language (before ++ .rebuild root language :: after) =
          (start.run before).rebuildLanguage language)) ∧
      ((start.run (before ++ [.rebuild root language])).LastSpokenDuring after →
        (start.run (before ++ .rebuild root language :: after)).service.language =
          (start.run before).rebuildLanguage language) := by
  obtain ⟨hbefore, hafter⟩ := List.forall_mem_append.mp others
  obtain ⟨hsettled, hlanguage⟩ := language_run_of_settled settled hbefore
  have hasked : askedLast start.service.language (before ++ .rebuild root language :: after) =
      askedLast ((start.run before).rebuildLanguage language) after := by
    rw [askedLast_append, askedLast_cons, ← hlanguage, ← rebuildLanguage_eq]
  rw [run_append, run_cons] at done ⊢
  rw [run_append, run_cons, run_nil, hasked]
  obtain ⟨hduring, hother⟩ := (Awaits.start hsettled root language).language_run hafter done
  refine ⟨⟨?_, ?_⟩, hduring⟩
  · intro heq hlast
    rw [← heq]
    exact hduring hlast
  · intro hsame
    by_cases hlast : ((start.run before).act (.rebuild root language)).LastSpokenDuring after
    · rw [hsame hlast]
      exact hduring hlast
    · exact hother hlast

/-- A language is spoken while a rebuild is under way, and the rebuild is finished after that. -/
def speaking : List Action :=
  .speak "fr" :: (Rebuild.parts.map (.gather 0) ++ [.finish 0])

theorem language_eq_askedLast_iff_speaking :
    ¬ skinService.IsRebuilding ∧ (∀ a ∈ [] ++ speaking, a.isRebuild = false) ∧
      ¬ (skinService.run ([] ++ .rebuild "/mod" none :: speaking)).IsRebuilding ∧
      (skinService.run ([.rebuild "/mod" none])).LastSpokenDuring speaking ∧
      askedLast skinService.service.language ([] ++ .rebuild "/mod" none :: speaking) = "fr" ∧
      (skinService.run ([] ++ .rebuild "/mod" none :: speaking)).service.language = "en" := by
  have settled : ¬ skinService.IsRebuilding := by decide +kernel
  have others : ∀ a ∈ [] ++ speaking, a.isRebuild = false := by decide
  have done : ¬ (skinService.run ([] ++ .rebuild "/mod" none :: speaking)).IsRebuilding := by
    decide +kernel
  have hlast : (skinService.run [.rebuild "/mod" none]).LastSpokenDuring speaking := by
    decide +kernel
  refine ⟨settled, others, done, hlast, by decide +kernel, ?_⟩
  exact (language_eq_askedLast_iff settled others "/mod" none done).2 hlast

/-- A change that was spoken during a rebuild may be lost. -/
theorem not_forall_language_eq_askedLast :
    ¬ ∀ after : List Action, (∀ a ∈ after, a.isRebuild = false) →
      ¬ (skinService.run (.rebuild "/mod" none :: after)).IsRebuilding →
        (skinService.run (.rebuild "/mod" none :: after)).service.language =
          askedLast skinService.service.language (.rebuild "/mod" none :: after) := by
  intro h
  have heq := h speaking (by decide) (by decide +kernel)
  revert heq
  decide +kernel

end Workshop
end ModAtlas.Service
