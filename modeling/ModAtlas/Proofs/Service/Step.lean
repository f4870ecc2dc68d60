import Mathlib.Data.List.Induction
import ModAtlas.Service.Workshop

/-!
# What one action does

`Step` lists what an action may do to a workshop: the piece of work that its ticket names takes
its next step, or the action does not fit and nothing happens. Every action is one of these, so
an invariant of runs needs one case for each of them. `inquiryAt` and `rebuildAt` look up the work
of a ticket; the lemmas say what becomes of it when another piece of work moves.
-/

namespace ModAtlas.Service
open ModAtlas.Files ModAtlas.Workspace ModAtlas.Reference

/-! ## Looking up work -/

namespace Work

/-- The inquiry that a piece of work is. -/
def inquiry? : Work → Option Inquiry
  | .inquiry i => some i
  | .rebuild _ => none

/-- The rebuild that a piece of work is. -/
def rebuild? : Work → Option Rebuild
  | .inquiry _ => none
  | .rebuild r => some r

end Work

/-- What a view shows of the work of a ticket. -/
def workAt {α : Type} (view : Work → Option α) (works : List Work) (ticket : Nat) : Option α :=
  works[ticket]?.bind view

/-- The inquiry of a ticket. -/
abbrev inquiryAt (works : List Work) (ticket : Nat) : Option Inquiry :=
  workAt Work.inquiry? works ticket

/-- The rebuild of a ticket. -/
abbrev rebuildAt (works : List Work) (ticket : Nat) : Option Rebuild :=
  workAt Work.rebuild? works ticket

section LookingUp
variable {α : Type} {view : Work → Option α} {works : List Work} {k : Nat}

theorem workAt_append (works : List Work) (w : Work) (j : Nat) :
    workAt view (works ++ [w]) j = if j = works.length then view w else workAt view works j := by
  unfold workAt
  rcases Nat.lt_trichotomy j works.length with hj | rfl | hj
  · rw [List.getElem?_append_left hj, if_neg (Nat.ne_of_lt hj)]
  · simp
  · have hle : (works ++ [w]).length ≤ j := by rw [List.length_append]; exact hj
    rw [List.getElem?_eq_none hle, List.getElem?_eq_none (Nat.le_of_lt hj),
      if_neg (Nat.ne_of_gt hj)]

theorem workAt_set (hk : k < works.length) (w : Work) (j : Nat) :
    workAt view (works.set k w) j = if j = k then view w else workAt view works j := by
  unfold workAt
  by_cases hj : j = k
  · subst j
    simp [hk]
  · rw [List.getElem?_set_ne (Ne.symm hj), if_neg hj]

theorem lt_length_of_workAt {x : α} (h : workAt view works k = some x) : k < works.length := by
  by_contra hk
  rw [workAt, List.getElem?_eq_none (Nat.le_of_not_lt hk)] at h
  cases h

theorem inquiryAt_eq_some_iff {i : Inquiry} :
    inquiryAt works k = some i ↔ works[k]? = some (.inquiry i) := by
  unfold inquiryAt workAt
  rcases works[k]? with _ | ⟨_ | _⟩ <;> simp [Work.inquiry?]

theorem rebuildAt_eq_some_iff {r : Rebuild} :
    rebuildAt works k = some r ↔ works[k]? = some (.rebuild r) := by
  unfold rebuildAt workAt
  rcases works[k]? with _ | ⟨_ | _⟩ <;> simp [Work.rebuild?]

/-- Admitting inquiries leaves rebuilds as they are. -/
theorem rebuildAt_map_letIn (works : List Work) (j : Nat) :
    rebuildAt (works.map Work.letIn) j = rebuildAt works j := by
  unfold rebuildAt workAt
  rw [List.getElem?_map]
  rcases works[j]? with _ | ⟨_ | _⟩ <;> rfl

theorem inquiryAt_map_letIn (works : List Work) (j : Nat) :
    inquiryAt (works.map Work.letIn) j = (inquiryAt works j).map Inquiry.letIn := by
  unfold inquiryAt workAt
  rw [List.getElem?_map]
  rcases works[j]? with _ | ⟨_ | _⟩ <;> rfl

/-- An inquiry that moves leaves rebuilds as they are. -/
theorem rebuildAt_set_inquiry {i : Inquiry} (h : inquiryAt works k = some i) (i' : Inquiry)
    (j : Nat) : rebuildAt (works.set k (.inquiry i')) j = rebuildAt works j := by
  rw [rebuildAt, workAt_set (lt_length_of_workAt h)]
  by_cases hj : j = k
  · subst j
    simp [workAt, inquiryAt_eq_some_iff.mp h, Work.rebuild?]
  · rw [if_neg hj]

theorem rebuildAt_append_inquiry (works : List Work) (i : Inquiry) (j : Nat) :
    rebuildAt (works ++ [.inquiry i]) j = rebuildAt works j := by
  rw [rebuildAt, workAt_append]
  split
  · rename_i hj
    simp [hj, Work.rebuild?, workAt]
  · rfl

theorem rebuildAt_append_rebuild (works : List Work) (r : Rebuild) (j : Nat) :
    rebuildAt (works ++ [.rebuild r]) j =
      if j = works.length then some r else rebuildAt works j :=
  workAt_append works (.rebuild r) j

theorem rebuildAt_set_rebuild {r : Rebuild} (h : rebuildAt works k = some r) (r' : Rebuild)
    (j : Nat) : rebuildAt (works.set k (.rebuild r')) j =
      if j = k then some r' else rebuildAt works j :=
  workAt_set (lt_length_of_workAt h) (.rebuild r') j

/-- A rebuild that moves leaves inquiries as they are. -/
theorem inquiryAt_set_rebuild {r : Rebuild} (h : rebuildAt works k = some r) (r' : Rebuild)
    (j : Nat) : inquiryAt (works.set k (.rebuild r')) j = inquiryAt works j := by
  rw [inquiryAt, workAt_set (lt_length_of_workAt h)]
  by_cases hj : j = k
  · subst j
    simp [workAt, rebuildAt_eq_some_iff.mp h, Work.inquiry?]
  · rw [if_neg hj]

end LookingUp

/-! ## Steps of an inquiry -/

namespace State

theorem publish_fst (s : State) (i : Inquiry) (version : Int) (found : List Diagnostic) :
    ∃ ledger, (s.publish i version found).1 = { s with ledger } := by
  unfold publish
  dsimp only
  split
  · exact ⟨s.ledger, rfl⟩
  · exact ⟨_, rfl⟩

theorem publish_snd (s : State) (i : Inquiry) (version : Int) (found : List Diagnostic) :
    ∃ answer, (s.publish i version found).2 = i.answer answer := by
  unfold publish
  dsimp only
  split <;> exact ⟨_, rfl⟩

/-- Serving an inquiry writes in the ledger only. -/
theorem serve_fst (s : State) (t : Tree) (i : Inquiry) (result : Except AnalysisError Analysis) :
    ∃ ledger, (s.serve t i result).1 = { s with ledger } := by
  unfold serve
  split
  · split
    · exact publish_fst s i _ _
    · exact ⟨s.ledger, rfl⟩
  · split <;> exact ⟨s.ledger, rfl⟩
  all_goals exact ⟨s.ledger, rfl⟩

/-- Serving an inquiry answers it. -/
theorem serve_snd (s : State) (t : Tree) (i : Inquiry) (result : Except AnalysisError Analysis) :
    ∃ answer, (s.serve t i result).2 = i.answer answer := by
  unfold serve
  split
  · split
    · exact publish_snd s i _ _
    · exact ⟨_, rfl⟩
  · split <;> exact ⟨_, rfl⟩
  all_goals exact ⟨_, rfl⟩

/-- The answer to an inquiry whose analysis has failed does not depend on the atlas. -/
theorem serve_error_snd (s : State) (atlas : Atlas) (t : Tree) (i : Inquiry)
    (e : AnalysisError) :
    (({ s with atlas } : State).serve t i (.error e)).2 = (s.serve t i (.error e)).2 := by
  have hfound : ({ s with atlas } : State).findings? i (.error e) = s.findings? i (.error e) := by
    cases e with
    | text failure => cases failure <;> rfl
    | _ => rfl
  unfold serve
  cases i.request.task with
  | validation version =>
      dsimp only
      rw [hfound]
      cases s.findings? i (.error e) with
      | none => rfl
      | some found =>
          dsimp only [publish]
          split <;> rfl
  | _ => rfl

/-- A step of an inquiry writes in the ledger and the library only. -/
theorem proceed_fst (s : State) (t : Tree) (i : Inquiry) :
    ∃ ledger library, (s.proceed t i).1 = { s with ledger, library } := by
  unfold proceed
  split
  · exact ⟨s.ledger, s.library, rfl⟩
  · exact ⟨s.ledger, s.library, rfl⟩
  · exact ⟨s.ledger, _, rfl⟩
  · obtain ⟨ledger, h⟩ := serve_fst s t i _
    exact ⟨ledger, s.library, h⟩

end State

namespace Inquiry

@[simp] theorem stage_reached (i : Inquiry) (stage : Stage) : (i.reached stage).stage = stage := rfl

@[simp] theorem stage_answer (i : Inquiry) (a : Answer) : (i.answer a).stage = .answered a := rfl

@[simp] theorem stage_refuse (i : Inquiry) :
    i.refuse.stage = .answered i.request.task.unserved := rfl

/-- Has an inquiry passed the gate without being answered yet? -/
def isBehindGate (i : Inquiry) : Bool :=
  match i.stage with
  | .admitted => true
  | .analysed _ => true
  | _ => false

/-- A later form of an inquiry: only its stage may differ. -/
def Leads (i i' : Inquiry) : Prop := ∃ stage, i' = i.reached stage

theorem Leads.refl (i : Inquiry) : i.Leads i := ⟨i.stage, rfl⟩

theorem Leads.trans {i j l : Inquiry} (h : i.Leads j) (h' : j.Leads l) : i.Leads l := by
  obtain ⟨stage, rfl⟩ := h
  obtain ⟨stage', rfl⟩ := h'
  exact ⟨stage', rfl⟩

theorem Leads.request_eq {i i' : Inquiry} (h : i.Leads i') : i'.request = i.request := by
  obtain ⟨stage, rfl⟩ := h
  rfl

theorem Leads.closings_eq {i i' : Inquiry} (h : i.Leads i') : i'.closings = i.closings := by
  obtain ⟨stage, rfl⟩ := h
  rfl

theorem leads_letIn (i : Inquiry) : i.Leads i.letIn := by
  unfold letIn
  split
  · exact ⟨_, rfl⟩
  · exact .refl i

theorem leads_giveUp (i : Inquiry) : i.Leads i.giveUp := by
  unfold giveUp
  split
  · exact ⟨_, rfl⟩
  · exact .refl i

theorem leads_proceed (s : State) (t : Tree) (i : Inquiry) : i.Leads (s.proceed t i).2 := by
  unfold State.proceed
  split
  · exact .refl i
  · exact .refl i
  · exact ⟨_, rfl⟩
  · obtain ⟨answer, h⟩ := s.serve_snd t i _
    exact ⟨_, h⟩

/-- Nobody passes the gate by giving up. -/
theorem isBehindGate_of_giveUp {i : Inquiry} (h : i.giveUp.isBehindGate = true) :
    i.isBehindGate = true := by
  unfold giveUp at h
  split at h
  · simp [isBehindGate] at h
  · exact h

/-- Nobody passes the gate by a step of their own. -/
theorem isBehindGate_of_proceed {s : State} {t : Tree} {i : Inquiry}
    (h : (s.proceed t i).2.isBehindGate = true) : i.isBehindGate = true := by
  unfold State.proceed at h
  split at h
  · exact h
  · exact h
  · rename_i hstage
    simp [isBehindGate, hstage]
  · rename_i hstage
    simp [isBehindGate, hstage]

end Inquiry

/-! ## Steps of a workshop -/

namespace Workshop

/-- When a rebuild is concluded, the others stay as they are. -/
theorem rebuildAt_conclude {s : Workshop} {n : Nat} {r : Rebuild}
    (h : rebuildAt s.works n = some r) (m : Nat) : rebuildAt (s.conclude n r).works m =
      if m = n then some { r with finished := true } else rebuildAt s.works m := by
  rw [conclude, rebuildAt_map_letIn, rebuildAt_set_rebuild h]

/-- A rebuild that is complete is concluded. -/
theorem act_finish {s : Workshop} {n : Nat} {r : Rebuild} (h : rebuildAt s.works n = some r)
    (complete : r.isComplete = true) (unfinished : r.finished = false) :
    s.act (.finish n) = s.conclude n r := by
  simp [act, rebuildAt_eq_some_iff.mp h, complete, unfinished]

/-- Does an action fit the work of its ticket? -/
def Fits (s : Workshop) : Action → Prop
  | .proceed k => ∃ i, inquiryAt s.works k = some i
  | .giveUp k => ∃ i, inquiryAt s.works k = some i
  | .gather n _ => ∃ r, rebuildAt s.works n = some r
  | .finish n => ∃ r, rebuildAt s.works n = some r ∧ r.isComplete = true ∧ r.finished = false
  | _ => True

/-- What an action does to a workshop. -/
inductive Step (s : Workshop) : Action → Workshop → Prop
  | edit (tree : Tree) : Step s (.edit tree) { s with tree }
  | ask (request : Request) :
      Step s (.ask request)
        { s with
          service := (s.service.receive request).1
          works := s.works ++ [.inquiry (s.service.receive request).2] }
  | rebuild (root : String) (language : Option String) :
      Step s (.rebuild root language)
        { s with
          service := s.service.forget
          works := s.works ++ [.rebuild (.start root (s.rebuildLanguage language))] }
  | close (uri : String) : Step s (.close uri) { s with service := s.service.close uri }
  | speak (language : String) :
      Step s (.speak language) { s with service := s.service.speak language }
  | proceed {k : Nat} {i : Inquiry} (h : inquiryAt s.works k = some i) :
      Step s (.proceed k)
        { s with
          service := (s.service.proceed s.tree i).1
          works := s.works.set k (.inquiry (s.service.proceed s.tree i).2) }
  | giveUp {k : Nat} {i : Inquiry} (h : inquiryAt s.works k = some i) :
      Step s (.giveUp k) { s with works := s.works.set k (.inquiry i.giveUp) }
  | gather {n : Nat} {r : Rebuild} (h : rebuildAt s.works n = some r) (part : Part) :
      Step s (.gather n part)
        { s with
          service := { s.service with
            atlas := (r.gather s.tree s.service.finder s.service.atlas part).2 }
          works := s.works.set n
            (.rebuild (r.gather s.tree s.service.finder s.service.atlas part).1) }
  | finish {n : Nat} {r : Rebuild} (h : rebuildAt s.works n = some r)
      (complete : r.isComplete = true) (unfinished : r.finished = false) :
      Step s (.finish n) (s.conclude n r)
  | idle {a : Action} (h : ¬ s.Fits a) : Step s a s

/-- Every action does one of these things. -/
theorem act_step (s : Workshop) (a : Action) : s.Step a (s.act a) := by
  cases a with
  | edit tree => exact .edit tree
  | ask request => exact .ask request
  | rebuild root language => exact .rebuild root language
  | close uri => exact .close uri
  | speak language => exact .speak language
  | proceed k =>
      cases h : s.works[k]? with
      | none => simpa [act, h] using Step.idle (a := .proceed k) (by simp [Fits, workAt, h])
      | some w =>
          cases w with
          | inquiry i => simpa [act, h] using Step.proceed (inquiryAt_eq_some_iff.mpr h)
          | rebuild r =>
              simpa [act, h] using Step.idle (a := .proceed k)
                (by simp [Fits, workAt, h, Work.inquiry?])
  | giveUp k =>
      cases h : s.works[k]? with
      | none => simpa [act, h] using Step.idle (a := .giveUp k) (by simp [Fits, workAt, h])
      | some w =>
          cases w with
          | inquiry i => simpa [act, h] using Step.giveUp (inquiryAt_eq_some_iff.mpr h)
          | rebuild r =>
              simpa [act, h] using Step.idle (a := .giveUp k)
                (by simp [Fits, workAt, h, Work.inquiry?])
  | gather n part =>
      cases h : s.works[n]? with
      | none => simpa [act, h] using Step.idle (a := .gather n part) (by simp [Fits, workAt, h])
      | some w =>
          cases w with
          | inquiry i =>
              simpa [act, h] using Step.idle (a := .gather n part)
                (by simp [Fits, workAt, h, Work.rebuild?])
          | rebuild r => simpa [act, h] using Step.gather (rebuildAt_eq_some_iff.mpr h) part
  | finish n =>
      cases h : s.works[n]? with
      | none => simpa [act, h] using Step.idle (a := .finish n) (by simp [Fits, workAt, h])
      | some w =>
          cases w with
          | inquiry i =>
              simpa [act, h] using Step.idle (a := .finish n)
                (by simp [Fits, workAt, h, Work.rebuild?])
          | rebuild r =>
              by_cases hr : (r.isComplete && !r.finished) = true
              · have hc : r.isComplete = true ∧ r.finished = false := by simpa using hr
                simpa [act, h, hr] using
                  Step.finish (rebuildAt_eq_some_iff.mpr h) hc.1 hc.2
              · have hf : ¬ s.Fits (.finish n) := by
                  rintro ⟨r', h', hc⟩
                  have : r' = r := by
                    simpa [rebuildAt_eq_some_iff.mp h'] using h
                  subst r'
                  exact hr (by simp [hc])
                simpa [act, h, hr] using Step.idle hf

/-- Where an inquiry comes from: it has just been asked, or it was there and may have moved. -/
theorem inquiryAt_act {s : Workshop} {a : Action} {k : Nat} {i' : Inquiry}
    (h : inquiryAt (s.act a).works k = some i') :
    (∃ request, a = .ask request ∧ k = s.nextTicket ∧ i' = (s.service.receive request).2) ∨
      ∃ i, inquiryAt s.works k = some i ∧
        (i' = i ∨ (s.act a).service.isReady = true ∧ i' = i.letIn ∨
          a = .giveUp k ∧ i' = i.giveUp ∨
          a = .proceed k ∧ i' = (s.service.proceed s.tree i).2) := by
  have hstep := s.act_step a
  generalize s.act a = s' at hstep h
  cases hstep with
  | edit tree => exact .inr ⟨i', h, .inl rfl⟩
  | ask request =>
      rw [inquiryAt, workAt_append] at h
      split at h
      · rename_i hk
        exact .inl ⟨request, rfl, hk, (Option.some.inj h).symm⟩
      · exact .inr ⟨i', h, .inl rfl⟩
  | rebuild root language =>
      rw [inquiryAt, workAt_append] at h
      split at h
      · cases h
      · exact .inr ⟨i', h, .inl rfl⟩
  | close uri => exact .inr ⟨i', h, .inl rfl⟩
  | speak language => exact .inr ⟨i', h, .inl rfl⟩
  | @proceed j i hj =>
      rw [inquiryAt, workAt_set (lt_length_of_workAt hj)] at h
      split at h
      · rename_i hkj
        subst k
        exact .inr ⟨i, hj, .inr (.inr (.inr ⟨rfl, (Option.some.inj h).symm⟩))⟩
      · exact .inr ⟨i', h, .inl rfl⟩
  | @giveUp j i hj =>
      rw [inquiryAt, workAt_set (lt_length_of_workAt hj)] at h
      split at h
      · rename_i hkj
        subst k
        exact .inr ⟨i, hj, .inr (.inr (.inl ⟨rfl, (Option.some.inj h).symm⟩))⟩
      · exact .inr ⟨i', h, .inl rfl⟩
  | gather hn part => exact .inr ⟨i', by rwa [inquiryAt_set_rebuild hn] at h, .inl rfl⟩
  | finish hn complete unfinished =>
      rw [conclude, inquiryAt_map_letIn, inquiryAt_set_rebuild hn] at h
      obtain ⟨i, hi, hlet⟩ := Option.map_eq_some_iff.mp h
      exact .inr ⟨i, hi, .inr (.inl ⟨rfl, hlet.symm⟩)⟩
  | idle => exact .inr ⟨i', h, .inl rfl⟩

/-- Where a rebuild comes from: it has just been started, or it was there and may have moved. -/
theorem rebuildAt_act {s : Workshop} {a : Action} {n : Nat} {r' : Rebuild}
    (h : rebuildAt (s.act a).works n = some r') :
    (∃ root language, a = .rebuild root language ∧ n = s.nextTicket ∧
        r' = .start root (s.rebuildLanguage language)) ∨
      ∃ r, rebuildAt s.works n = some r ∧
        (r' = r ∨ a = .finish n ∧ r' = { r with finished := true } ∨
          ∃ part, a = .gather n part ∧
            r' = (r.gather s.tree s.service.finder s.service.atlas part).1) := by
  have hstep := s.act_step a
  generalize s.act a = s' at hstep h
  cases hstep with
  | edit tree => exact .inr ⟨r', h, .inl rfl⟩
  | ask request =>
      exact .inr ⟨r', by rwa [rebuildAt_append_inquiry] at h, .inl rfl⟩
  | rebuild root language =>
      rw [rebuildAt_append_rebuild] at h
      split at h
      · rename_i hn
        exact .inl ⟨root, language, rfl, hn, (Option.some.inj h).symm⟩
      · exact .inr ⟨r', h, .inl rfl⟩
  | close uri => exact .inr ⟨r', h, .inl rfl⟩
  | speak language => exact .inr ⟨r', h, .inl rfl⟩
  | proceed hk => exact .inr ⟨r', by rwa [rebuildAt_set_inquiry hk] at h, .inl rfl⟩
  | giveUp hk => exact .inr ⟨r', by rwa [rebuildAt_set_inquiry hk] at h, .inl rfl⟩
  | @gather m r hm part =>
      rw [rebuildAt_set_rebuild hm] at h
      split at h
      · rename_i hnm
        subst n
        exact .inr ⟨r, hm, .inr (.inr ⟨part, rfl, (Option.some.inj h).symm⟩)⟩
      · exact .inr ⟨r', h, .inl rfl⟩
  | @finish m r hm complete unfinished =>
      rw [rebuildAt_conclude hm] at h
      split at h
      · rename_i hnm
        subst n
        exact .inr ⟨r, hm, .inr (.inl ⟨rfl, (Option.some.inj h).symm⟩)⟩
      · exact .inr ⟨r', h, .inl rfl⟩
  | idle => exact .inr ⟨r', h, .inl rfl⟩

/-- No inquiry is lost, and only its stage may change. -/
theorem leads_act {s : Workshop} {k : Nat} {i : Inquiry} (h : inquiryAt s.works k = some i)
    (a : Action) : ∃ i', inquiryAt (s.act a).works k = some i' ∧ i.Leads i' := by
  have hlt := lt_length_of_workAt h
  have hstep := s.act_step a
  generalize s.act a = s' at hstep
  cases hstep with
  | edit tree => exact ⟨i, h, .refl i⟩
  | ask request =>
      exact ⟨i, by rwa [inquiryAt, workAt_append, if_neg (Nat.ne_of_lt hlt)], .refl i⟩
  | rebuild root language =>
      exact ⟨i, by rwa [inquiryAt, workAt_append, if_neg (Nat.ne_of_lt hlt)], .refl i⟩
  | close uri => exact ⟨i, h, .refl i⟩
  | speak language => exact ⟨i, h, .refl i⟩
  | @proceed j i₀ hj =>
      rw [inquiryAt, workAt_set (lt_length_of_workAt hj)]
      split
      · rename_i hkj
        subst k
        cases h.symm.trans hj
        exact ⟨_, rfl, Inquiry.leads_proceed s.service s.tree i⟩
      · exact ⟨i, h, .refl i⟩
  | @giveUp j i₀ hj =>
      rw [inquiryAt, workAt_set (lt_length_of_workAt hj)]
      split
      · rename_i hkj
        subst k
        cases h.symm.trans hj
        exact ⟨_, rfl, Inquiry.leads_giveUp i⟩
      · exact ⟨i, h, .refl i⟩
  | gather hn part => exact ⟨i, by rwa [inquiryAt_set_rebuild hn], .refl i⟩
  | finish hn complete unfinished =>
      refine ⟨i.letIn, ?_, Inquiry.leads_letIn i⟩
      rw [conclude, inquiryAt_map_letIn, inquiryAt_set_rebuild hn, h]
      rfl
  | idle => exact ⟨i, h, .refl i⟩

/-- No rebuild is lost. It is finished if that fits, it gathers, or it stays as it is. -/
theorem rebuild_moves {s : Workshop} {n : Nat} {r : Rebuild} (h : rebuildAt s.works n = some r)
    (a : Action) : ∃ r', rebuildAt (s.act a).works n = some r' ∧
      (r' = r ∨ (a = .finish n ∧ s.Fits (.finish n) ∧ r' = { r with finished := true }) ∨
        ∃ part, a = .gather n part ∧
          r' = (r.gather s.tree s.service.finder s.service.atlas part).1) := by
  have hlt := lt_length_of_workAt h
  have hstep := s.act_step a
  generalize s.act a = s' at hstep
  cases hstep with
  | edit tree => exact ⟨r, h, .inl rfl⟩
  | ask request =>
      exact ⟨r, by rwa [rebuildAt_append_inquiry], .inl rfl⟩
  | rebuild root language =>
      exact ⟨r, by rwa [rebuildAt_append_rebuild, if_neg (Nat.ne_of_lt hlt)], .inl rfl⟩
  | close uri => exact ⟨r, h, .inl rfl⟩
  | speak language => exact ⟨r, h, .inl rfl⟩
  | proceed hk => exact ⟨r, by rwa [rebuildAt_set_inquiry hk], .inl rfl⟩
  | giveUp hk => exact ⟨r, by rwa [rebuildAt_set_inquiry hk], .inl rfl⟩
  | @gather m r₀ hm part =>
      rw [rebuildAt_set_rebuild hm]
      split
      · rename_i hnm
        subst n
        cases h.symm.trans hm
        exact ⟨_, rfl, .inr (.inr ⟨part, rfl, rfl⟩)⟩
      · exact ⟨r, h, .inl rfl⟩
  | @finish m r₀ hm complete unfinished =>
      rw [rebuildAt_conclude hm]
      split
      · rename_i hnm
        subst n
        cases h.symm.trans hm
        exact ⟨_, rfl, .inr (.inl ⟨rfl, ⟨r, hm, complete, unfinished⟩, rfl⟩)⟩
      · exact ⟨r, h, .inl rfl⟩
  | idle => exact ⟨r, h, .inl rfl⟩

@[simp] theorem run_nil (s : Workshop) : s.run [] = s := rfl

@[simp] theorem run_cons (s : Workshop) (a : Action) (as : List Action) :
    s.run (a :: as) = (s.act a).run as := rfl

@[simp] theorem run_append (s : Workshop) (as bs : List Action) :
    s.run (as ++ bs) = (s.run as).run bs := List.foldl_append

theorem leads_run {s : Workshop} {k : Nat} {i : Inquiry} (h : inquiryAt s.works k = some i)
    (actions : List Action) : ∃ i', inquiryAt (s.run actions).works k = some i' ∧ i.Leads i' := by
  induction actions generalizing s i with
  | nil => exact ⟨i, h, .refl i⟩
  | cons a actions ih =>
      obtain ⟨i₁, h₁, hlead⟩ := leads_act h a
      obtain ⟨i₂, h₂, hlead'⟩ := ih h₁
      exact ⟨i₂, h₂, hlead.trans hlead'⟩

/-- Every inquiry of a run was asked in it, when its ticket was the next one. -/
theorem asked_of_inquiryAt {start : Workshop} (empty : start.works = []) {actions : List Action}
    {k : Nat} {i : Inquiry} (h : inquiryAt (start.run actions).works k = some i) :
    ∃ before during, actions = before ++ .ask i.request :: during ∧
      k = (start.run before).nextTicket := by
  induction actions using List.reverseRecOn generalizing i with
  | nil => simp [empty, workAt] at h
  | append_singleton actions a ih =>
      rw [run_append] at h
      rcases inquiryAt_act h with ⟨request, rfl, hk, rfl⟩ | ⟨i₀, h₀, -⟩
      · exact ⟨actions, [], rfl, hk⟩
      · obtain ⟨i₁, h₁, hlead⟩ := leads_act h₀ a
        obtain rfl : i₁ = i := Option.some.inj (h₁.symm.trans h)
        obtain ⟨before, during, rfl, hk⟩ := ih h₀
        exact ⟨before, during ++ [a], by simp [hlead.request_eq], hk⟩

/-- An inquiry that proceeds takes its own next step. -/
theorem inquiryAt_proceed {s : Workshop} {k : Nat} {i : Inquiry}
    (h : inquiryAt s.works k = some i) :
    inquiryAt (s.act (.proceed k)).works k = some (s.service.proceed s.tree i).2 := by
  have hact : (s.act (.proceed k)).works =
      s.works.set k (.inquiry (s.service.proceed s.tree i).2) := by
    simp only [act, inquiryAt_eq_some_iff.mp h]
  rw [hact, inquiryAt, workAt_set (lt_length_of_workAt h), if_pos rfl]
  rfl

/-- A request that is asked gets the next ticket. -/
theorem inquiryAt_ask (s : Workshop) (request : Request) :
    inquiryAt (s.act (.ask request)).works s.nextTicket = some (s.service.receive request).2 := by
  rw [act, inquiryAt, workAt_append, nextTicket, if_pos rfl]
  rfl

theorem answer?_eq_some_iff {s : Workshop} {k : Nat} {answer : Answer} :
    s.answer? k = some answer ↔
      ∃ i, inquiryAt s.works k = some i ∧ i.stage = .answered answer := by
  unfold answer? inquiryAt workAt
  rcases s.works[k]? with _ | ⟨⟨request, language, closings, stage⟩ | r⟩
  · simp
  · cases stage <;> simp [Work.answer?, Work.inquiry?]
  · simp [Work.answer?, Work.inquiry?]

end Workshop
end ModAtlas.Service
