import ModAtlas.Proofs.Service.Renewal
import ModAtlas.Proofs.Service.Versions

/-!
# Validations one at a time

Where nothing else is under way a request is served at once: settling takes its two steps and no
others. What a validation finds is then determined by the files, the atlas and the folders of the
schemas alone. Schemas that were loaded before are the same as those in the files, and documents
that were validated before have no version that is greater.
-/

namespace ModAtlas.Schema
open ModAtlas.Files

/-! ## Schemas that are kept -/

namespace Library
variable {l : Library} {t : Tree}

/-- The schemas of a library are those in the files. -/
def IsFaithful (l : Library) (t : Tree) : Prop :=
  ∀ uri p, l.loaded.lookup uri = some p → fetch t uri = .ok p

theorem isFaithful_reload (l : Library) (t : Tree) : l.reload.IsFaithful t := by
  intro uri p h
  cases h

theorem reload_opened (t : Tree) (bundled : Path) (folder : Option String) :
    (Library.opened t bundled folder).reload = .opened t bundled folder := by
  unfold Library.opened
  split
  · rfl
  · split <;> rfl

/-- A faithful library gives what it would read, and stays faithful. -/
theorem IsFaithful.resolve (h : l.IsFaithful t) (uri : String) :
    (∃ p l', fetch t uri = .ok p ∧ l.resolve t uri = .ok (p, l') ∧ l'.reload = l.reload ∧
        l'.IsFaithful t) ∨
      ∃ e, fetch t uri = .error e ∧ l.resolve t uri = .error e := by
  unfold Library.resolve
  cases hloaded : l.loaded.lookup uri with
  | some p => exact .inl ⟨p, l, h uri p hloaded, rfl, rfl, h⟩
  | none =>
      cases hfetch : fetch t uri with
      | error e => exact .inr ⟨e, rfl, rfl⟩
      | ok p =>
          refine .inl ⟨p, _, rfl, rfl, rfl, ?_⟩
          intro u q hq
          rw [List.lookup_append] at hq
          cases hold : l.loaded.lookup u with
          | some p' =>
              rw [hold, Option.some_or] at hq
              exact h u q (hold.trans hq)
          | none =>
              by_cases hu : u = uri
              · subst hu
                rw [hold] at hq
                simp only [List.lookup_cons_self, Option.none_or, Option.some.injEq] at hq
                rw [hfetch, hq]
              · rw [hold, List.lookup_cons, beq_eq_false_iff_ne.mpr hu] at hq
                cases hq

/-- The schema of a document does not depend on what a faithful library has loaded. -/
theorem IsFaithful.forDocument (h : l.IsFaithful t) (name : String) :
    (∃ schema l' l'', l.forDocument t name = .ok (schema, l') ∧
        l.reload.forDocument t name = .ok (schema, l'') ∧ l'.reload = l.reload ∧
        l'.IsFaithful t) ∨
      ∃ e, l.forDocument t name = .error e ∧ l.reload.forDocument t name = .error e := by
  unfold Library.forDocument
  cases schemaFileFor name with
  | none => exact .inl ⟨none, l, l.reload, rfl, rfl, rfl, h⟩
  | some file =>
      have hfresh := (isFaithful_reload l t).resolve (l.uriFor t file)
      dsimp only
      rw [show l.reload.uriFor t file = l.uriFor t file from rfl]
      rcases h.resolve (l.uriFor t file) with ⟨p, l', hp, hl, hreload, hl'⟩ | ⟨e, he, hl⟩ <;>
        rcases hfresh with ⟨q, l'', hq, hq', -, -⟩ | ⟨e', he', hq'⟩
      · obtain rfl : p = q := Except.ok.inj (hp.symm.trans hq)
        rw [hl, hq']
        exact .inl ⟨some p, l', l'', rfl, rfl, hreload, hl'⟩
      · cases hp.symm.trans he'
      · cases he.symm.trans hq
      · obtain rfl : e = e' := Except.error.inj (he.symm.trans he')
        rw [hl, hq']
        cases e with
        | unpreparable e => exact .inr ⟨e, rfl, rfl⟩
        | _ => exact .inl ⟨none, l, l.reload, rfl, rfl, rfl, h⟩

end Library
end ModAtlas.Schema

namespace ModAtlas.Service
open ModAtlas.Document ModAtlas.Files ModAtlas.Reference ModAtlas.Workspace

/-- An analysis does not depend on what a faithful library has loaded. -/
theorem analyze_reload {t : Tree} {library : Schema.Library} (h : library.IsFaithful t)
    (uri text : String) :
    (analyze t library uri text).1 = (analyze t library.reload uri text).1 ∧
      (analyze t library uri text).2.reload = library.reload ∧
      (analyze t library uri text).2.IsFaithful t := by
  unfold analyze
  cases read text.toList with
  | error e => exact ⟨rfl, rfl, h⟩
  | ok root =>
      dsimp only
      cases Uri.fileName uri with
      | error e => exact ⟨rfl, rfl, h⟩
      | ok name =>
          dsimp only
          rcases h.forDocument name with ⟨schema, l', l'', hl, hfresh, hreload, hl'⟩ |
            ⟨e, hl, hfresh⟩
          · rw [hl, hfresh]
            exact ⟨rfl, hreload, hl'⟩
          · rw [hl, hfresh]
            exact ⟨rfl, rfl, h⟩

/-! ## Ledgers without versions -/

namespace Ledger
variable {l : Ledger}

/-- All versions in a ledger are the one that stands for no version. -/
def IsPlain (l : Ledger) : Prop :=
  ∀ uri version, l.received uri = some version ∨ l.published uri = some version → version = 0

theorem isPlain_empty : empty.IsPlain := by
  rintro uri version (h | h) <;> cases h

theorem IsPlain.receive (h : l.IsPlain) (uri : String) : (l.receive uri 0).IsPlain := by
  rintro u version (hr | hp)
  · rw [receive_received] at hr
    split at hr
    · rename_i hu
      subst hu
      cases hold : l.received u with
      | none =>
          rw [hold] at hr
          exact (Option.some.inj hr).symm
      | some v =>
          obtain rfl := h u v (.inl hold)
          rw [hold] at hr
          exact (Option.some.inj hr).symm
    · exact h u version (.inl hr)
  · rw [receive_published] at hp
    exact h u version (.inr hp)

theorem IsPlain.publish (h : l.IsPlain) (uri : String) : (l.publish uri 0).IsPlain := by
  rintro u version (hr | hp)
  · exact h u version (.inl hr)
  · by_cases hu : u = uri
    · subst hu
      have hzero : (0 : Int) = version := by simpa [Ledger.publish] using hp
      exact hzero.symm
    · exact h u version (.inr (by simpa [Ledger.publish, hu] using hp))

/-- In a ledger without versions nothing is stale that has just come in. -/
theorem IsPlain.isStale (h : l.IsPlain) (uri : String) :
    (l.receive uri 0).isStale uri 0 ((l.receive uri 0).closings uri) = false := by
  have hplain := h.receive uri
  have hsome : ∃ v, (l.receive uri 0).received uri = some v :=
    ⟨_, by rw [receive_received, if_pos rfl]⟩
  obtain ⟨v, hv⟩ := hsome
  obtain rfl := hplain uri v (.inl hv)
  unfold Ledger.isStale
  rw [hv]
  cases hp : (l.receive uri 0).published uri with
  | none => simp
  | some p =>
      obtain rfl := hplain uri p (.inr hp)
      simp

end Ledger

namespace Workshop
variable {s s₀ : Workshop}

/-! ## Settling where nothing is left to do -/

/-- Nothing is left to do. -/
def IsDone (s : Workshop) : Prop := ∀ w ∈ s.works, w.isOpen = false

theorem openTickets_of_isDone (h : s.IsDone) : s.openTickets = [] := by
  unfold openTickets
  rw [List.filter_eq_nil_iff]
  intro k _
  cases hk : s.works[k]? with
  | none => simp
  | some w => simp [h w (List.mem_of_getElem? hk)]

theorem sweep_of_isDone (h : s.IsDone) : s.sweep = s := by
  rw [sweep, openTickets_of_isDone h]
  rfl

theorem settle_of_isDone (h : s.sweep.IsDone) : s.settle = s.sweep := by
  have hagain := sweep_of_isDone h
  simp only [settle, hagain, openTickets_of_isDone h]
  rfl

/-- If only the last piece of work is open, it alone is brought further. -/
theorem sweep_of_last {works : List Work} {w : Work} (hs : s.works = works ++ [w])
    (done : ∀ v ∈ works, v.isOpen = false) (hopen : w.isOpen = true) :
    s.sweep = s.run (actionsFor works.length) := by
  have hearlier : (List.range works.length).filter
      (fun k => (s.works[k]?.map Work.isOpen).getD false) = [] := by
    rw [List.filter_eq_nil_iff]
    intro k hk
    rw [hs, List.getElem?_append_left (List.mem_range.mp hk)]
    cases hget : works[k]? with
    | none => simp
    | some v => simp [done v (List.mem_of_getElem? hget)]
  have htickets : s.openTickets = [works.length] := by
    rw [openTickets, hs, List.length_append, List.length_singleton, List.range_succ,
      List.filter_append, ← hs, hearlier, hs]
    simp [hopen]
  rw [sweep, htickets, List.flatMap_singleton]

/-! ## Requests that are served at once -/

/-- A workshop in which a request is served with nothing else under way. -/
def served (s : Workshop) (request : Request) : Workshop :=
  let received := s.service.receive request
  let analysed := received.1.proceed s.tree received.2
  let answered := analysed.1.proceed s.tree analysed.2
  { s with service := answered.1, works := s.works ++ [.inquiry answered.2] }

theorem act_proceed_of_last {works : List Work} {i : Inquiry}
    (hs : s.works = works ++ [.inquiry i]) :
    s.act (.proceed works.length) =
      { s with
        service := (s.service.proceed s.tree i).1
        works := works ++ [.inquiry (s.service.proceed s.tree i).2] } := by
  simp [act, hs]

/-- A rebuild's actions do nothing to an inquiry. -/
theorem run_gatherAll_of_inquiry {n : Nat} {i : Inquiry} (h : inquiryAt s.works n = some i) :
    s.run (gatherAll n) = s := by
  have hother : ∀ a ∈ gatherAll n, s.act a = s := by
    intro a ha
    rcases List.mem_append.mp ha with ha | ha
    · obtain ⟨part, -, rfl⟩ := List.mem_map.mp ha
      simp [act, inquiryAt_eq_some_iff.mp h]
    · rw [List.mem_singleton.mp ha]
      simp [act, inquiryAt_eq_some_iff.mp h]
  generalize gatherAll n = actions at hother
  induction actions with
  | nil => rfl
  | cons a actions ih =>
      rw [run_cons, hother a List.mem_cons_self]
      exact ih fun b hb => hother b (List.mem_cons_of_mem _ hb)

/-- Behind an open gate a request is served in two steps. -/
theorem settle_ask (ready : s.service.isReady = true) (done : s.IsDone) (request : Request) :
    (s.act (.ask request)).settle = s.served request ∧ (s.served request).IsDone := by
  have hadmitted : (s.service.receive request).2.stage = .admitted := by
    simp [State.receive, ready]
  obtain ⟨answer, hanswer⟩ : ∃ answer, (s.served request).works =
      s.works ++ [.inquiry ((s.service.receive request).2.answer answer)] := by
    simp only [served, State.proceed, hadmitted, Inquiry.stage_reached]
    obtain ⟨answer, h⟩ := State.serve_snd _ s.tree _ _
    exact ⟨answer, by rw [h]; rfl⟩
  have hdone : (s.served request).IsDone := by
    intro w hw
    rw [hanswer, List.mem_append, List.mem_singleton] at hw
    rcases hw with hw | rfl
    · exact done w hw
    · rfl
  refine ⟨?_, hdone⟩
  have hsweep : (s.act (.ask request)).sweep = s.served request := by
    have hopen : (Work.inquiry (s.service.receive request).2).isOpen = true := by
      simp [Work.isOpen, hadmitted]
    rw [sweep_of_last (s := s.act (.ask request)) rfl done hopen]
    have hactions : actionsFor s.works.length =
        .proceed s.works.length :: .proceed s.works.length :: gatherAll s.works.length := rfl
    rw [hactions, run_cons, run_cons, act_proceed_of_last (s := s.act (.ask request)) rfl,
      act_proceed_of_last rfl, run_gatherAll_of_inquiry (i := _) (by
        rw [inquiryAt_eq_some_iff, List.getElem?_append_right (Nat.le_refl _)]
        simp; rfl)]
    rfl
  rw [settle_of_isDone (hsweep ▸ hdone), hsweep]

/-! ## Validations one after the other -/

/-- What a validation finds, by the files, the atlas and the folders of the schemas. -/
def found? (s : Workshop) (uri text : String) : Option (List Diagnostic) :=
  s.service.findings? ⟨⟨uri, text, .validation 0⟩, s.service.language, 0, .waiting⟩
    (analyze s.tree s.service.library.reload uri text).1

/-- What a validation that is asked for next is answered with. -/
def diagnosed? (s : Workshop) (uri text : String) : Option (List Diagnostic) :=
  match (s.act (.ask ⟨uri, text, .validation 0⟩)).settle.answer? s.nextTicket with
  | some (.diagnostics found) => found
  | _ => none

/-- A workshop whose gate is open and in which nothing is left to do agrees with an earlier one in
all that validations depend on. -/
structure Steady (s₀ s : Workshop) : Prop where
  ready : s.service.isReady = true
  done : s.IsDone
  tree : s.tree = s₀.tree
  atlas : s.service.atlas = s₀.service.atlas
  library : s.service.library.reload = s₀.service.library.reload
  faithful : s.service.library.IsFaithful s₀.tree
  plain : s.service.ledger.IsPlain

theorem findings?_eq_found? {service : State} (atlas : service.atlas = s₀.service.atlas)
    {library : Schema.Library} (faithful : library.IsFaithful s₀.tree)
    (reload : library.reload = s₀.service.library.reload) {uri text : String} {i : Inquiry}
    (hi : i.request.text = text) :
    service.findings? i (analyze s₀.tree library uri text).1 = s₀.found? uri text := by
  rw [(analyze_reload faithful uri text).1, reload, found?]
  generalize (analyze s₀.tree s₀.service.library.reload uri text).1 = result
  subst hi
  cases result with
  | ok a => simp only [State.findings?, atlas]
  | error e => cases e with
    | text e => cases e <;> rfl
    | _ => rfl

/-- A validation that is not stale is answered with what is found. -/
theorem proceed_validation (service : State) {i : Inquiry} {result : Except AnalysisError Analysis}
    {found : Option (List Diagnostic)} (t : Tree) (task : i.request.task = .validation 0)
    (stage : i.stage = .analysed result) (hfound : service.findings? i result = found)
    (plain : service.ledger.IsPlain)
    (fresh : service.ledger.isStale i.request.uri 0 i.closings = false) :
    ∃ ledger, ledger.IsPlain ∧
      service.proceed t i = ({ service with ledger }, i.answer (.diagnostics found)) := by
  simp only [State.proceed, stage, State.serve, task, hfound]
  cases found with
  | none => exact ⟨service.ledger, plain, by rw [Inquiry.refuse, task]; rfl⟩
  | some found =>
      refine ⟨service.ledger.publish i.request.uri 0, plain.publish _, ?_⟩
      simp only [State.publish, fresh]
      rfl

/-- A validation is answered with what is found, and leaves all that validations depend on as it
is. -/
theorem Steady.settle_ask (h : s₀.Steady s) (uri text : String) :
    s₀.Steady ((s.act (.ask ⟨uri, text, .validation 0⟩)).settle) ∧
      s.diagnosed? uri text = s₀.found? uri text := by
  obtain ⟨hsettle, hdone⟩ := Workshop.settle_ask h.ready h.done ⟨uri, text, .validation 0⟩
  obtain ⟨-, hreload, hfaithful⟩ := analyze_reload h.faithful uri text
  let ledger := s.service.ledger.receive uri 0
  let i : Inquiry := ⟨⟨uri, text, .validation 0⟩, s.service.language, ledger.closings uri, .admitted⟩
  let analysis := analyze s₀.tree s.service.library uri text
  have hreceive : s.service.receive ⟨uri, text, .validation 0⟩ =
      ({ s.service with ledger }, i) := by
    simp only [State.receive, h.ready, if_true]
    rfl
  have hanalyse : ({ s.service with ledger } : State).proceed s.tree i =
      ({ s.service with ledger, library := analysis.2 }, i.reached (.analysed analysis.1)) := by
    rw [h.tree]
    rfl
  obtain ⟨ledger', hplain, hanswer⟩ := proceed_validation
    { s.service with ledger, library := analysis.2 } (i := i.reached (.analysed analysis.1)) s.tree rfl rfl
    (findings?_eq_found? h.atlas h.faithful h.library rfl) (h.plain.receive uri)
    (h.plain.isStale uri)
  have hserved : s.served ⟨uri, text, .validation 0⟩ =
      { s with
        service := { s.service with ledger := ledger', library := analysis.2 }
        works := s.works ++ [.inquiry (i.answer (.diagnostics (s₀.found? uri text)))] } := by
    simp only [served, hreceive, hanalyse, hanswer]
    rfl
  rw [diagnosed?, hsettle]
  constructor
  · rw [hserved] at hdone ⊢
    exact ⟨h.ready, hdone, h.tree, h.atlas, hreload.trans h.library, hfaithful, hplain⟩
  · simp [hserved, answer?, nextTicket, Work.answer?, Inquiry.answer, Inquiry.reached]

/-! ## The survey of a workspace -/

theorem mem_gatherAll {n : Nat} {a : Action} (h : a ∈ gatherAll n) :
    (∃ part, a = .gather n part) ∨ a = .finish n := by
  rcases List.mem_append.mp h with h | h
  · obtain ⟨part, -, rfl⟩ := List.mem_map.mp h
    exact .inl ⟨part, rfl⟩
  · exact .inr (List.mem_singleton.mp h)

/-- A rebuild reads files, and writes neither in the library nor in the ledger. -/
theorem act_of_mem_gatherAll {n : Nat} {a : Action} (h : a ∈ gatherAll n) (s : Workshop) :
    (s.act a).tree = s.tree ∧ (s.act a).service.library = s.service.library ∧
      (s.act a).service.ledger = s.service.ledger ∧
      (s.act a).works.length = s.works.length := by
  have hstep := s.act_step a
  generalize s.act a = s' at hstep
  cases hstep with
  | gather hn part => exact ⟨rfl, rfl, rfl, List.length_set⟩
  | finish hn complete unfinished =>
      exact ⟨rfl, rfl, rfl, by simp [conclude]⟩
  | idle => exact ⟨rfl, rfl, rfl, rfl⟩
  | _ => rcases mem_gatherAll h with ⟨part, ha⟩ | ha <;> cases ha

theorem run_of_forall_mem_gatherAll {n : Nat} {actions : List Action}
    (h : ∀ a ∈ actions, a ∈ gatherAll n) (s : Workshop) :
    (s.run actions).tree = s.tree ∧ (s.run actions).service.library = s.service.library ∧
      (s.run actions).service.ledger = s.service.ledger ∧
      (s.run actions).works.length = s.works.length := by
  induction actions generalizing s with
  | nil => exact ⟨rfl, rfl, rfl, rfl⟩
  | cons a actions ih =>
      obtain ⟨htree, hlibrary, hledger, hlength⟩ := act_of_mem_gatherAll (h a List.mem_cons_self) s
      obtain ⟨htree', hlibrary', hledger', hlength'⟩ :=
        ih (fun b hb => h b (List.mem_cons_of_mem _ hb)) (s.act a)
      exact ⟨htree'.trans htree, hlibrary'.trans hlibrary, hledger'.trans hledger,
        hlength'.trans hlength⟩

/-- Once a rebuild was started the gate is open or a rebuild is under way. -/
theorem ready_or_rebuilding_run (actions : List Action)
    (h : s.service.isReady = true ∨ s.IsRebuilding) :
    (s.run actions).service.isReady = true ∨ (s.run actions).IsRebuilding := by
  induction actions generalizing s with
  | nil => exact h
  | cons a actions ih =>
      apply ih
      cases hready : (s.act a).service.isReady with
      | true => exact .inl rfl
      | false => exact .inr (isRebuilding_of_act hready h)

/-- A rebuild with nothing else under way is finished: the gate is open, and only the files have
been read. -/
theorem settle_rebuild (empty : s.works = []) (root : String) (language : Option String) :
    let settled := (s.act (.rebuild root language)).settle
    settled.service.isReady = true ∧ settled.IsDone ∧ settled.tree = s.tree ∧
      settled.service.library = s.service.library.reload ∧
      settled.service.ledger = s.service.ledger := by
  obtain ⟨-, -, -, r, hr, hfinished⟩ := rebuilds_gatherAll s root language
  rw [run_cons, nextTicket, empty, List.length_nil] at hr
  have hworks : (s.act (.rebuild root language)).works =
      [] ++ [.rebuild (.start root (s.rebuildLanguage language))] := by
    rw [act, empty]
  have hbegun : (s.act (.rebuild root language)).IsRebuilding := by
    refine ⟨0, _, rebuildAt_eq_some_iff.mpr (congrArg (·[0]?) hworks), rfl⟩
  have hfields : (s.act (.rebuild root language)).tree = s.tree ∧
      (s.act (.rebuild root language)).service.library = s.service.library.reload ∧
      (s.act (.rebuild root language)).service.ledger = s.service.ledger := ⟨rfl, rfl, rfl⟩
  generalize s.act (.rebuild root language) = begun at *
  obtain ⟨htree, hlibrary, hledger, hlength⟩ :=
    run_of_forall_mem_gatherAll (n := 0) (fun _ h => h) begun
  have hsweep : begun.sweep = begun.run (gatherAll 0) := by
    have hidle : begun.act (.proceed 0) = begun := by simp [act, hworks]
    have hactions : actionsFor 0 = .proceed 0 :: .proceed 0 :: gatherAll 0 := rfl
    rw [sweep_of_last hworks (by simp) rfl, List.length_nil, hactions, run_cons, run_cons, hidle,
      hidle]
  -- the rebuild is the only work there is
  have honly : (begun.run (gatherAll 0)).works = [.rebuild r] := by
    rw [hworks] at hlength
    obtain ⟨w, hw⟩ := List.length_eq_one_iff.mp hlength
    rw [rebuildAt_eq_some_iff, hw] at hr
    rw [hw, Option.some.inj hr]
  have hdone : (begun.run (gatherAll 0)).IsDone := by
    intro w hw
    rw [honly, List.mem_singleton] at hw
    simp [hw, Work.isOpen, hfinished]
  have hready : (begun.run (gatherAll 0)).service.isReady = true := by
    rcases ready_or_rebuilding_run (gatherAll 0) (.inr hbegun) with h | ⟨n, r', hn, hf⟩
    · exact h
    · have hopen := hdone _ (List.mem_of_getElem? (rebuildAt_eq_some_iff.mp hn))
      simp [Work.isOpen, hf] at hopen
  have hsettle : begun.settle = begun.run (gatherAll 0) := by
    rw [settle_of_isDone (hsweep ▸ hdone), hsweep]
  simp only [hsettle]
  exact ⟨hready, hdone, htree.trans hfields.1, hlibrary.trans hfields.2.1,
    hledger.trans hfields.2.2⟩

/-- The survey of a workspace in a new service. -/
def surveyedBy (t : Tree) (bundled : Path) (setup : Setup) (root language : String) : Workshop :=
  ((opened t bundled setup).act (.rebuild root (some language))).settle

/-- After a survey documents can be validated one after the other, with no schema loaded yet. -/
theorem steady_surveyedBy (t : Tree) (bundled : Path) (setup : Setup) (root language : String) :
    (surveyedBy t bundled setup root language).Steady
        (surveyedBy t bundled setup root language) ∧
      (surveyedBy t bundled setup root language).tree = t ∧
      (surveyedBy t bundled setup root language).service.library.reload =
        .opened t bundled setup.schemasFolder := by
  have hsettled := settle_rebuild (s := opened t bundled setup) rfl root (some language)
  unfold surveyedBy
  generalize ((opened t bundled setup).act (.rebuild root (some language))).settle = settled
    at hsettled ⊢
  obtain ⟨ready, done, htree, hlibrary, hledger⟩ := hsettled
  refine ⟨⟨ready, done, rfl, rfl, rfl, ?_, ?_⟩, htree, ?_⟩
  · rw [hlibrary]
    exact Schema.Library.isFaithful_reload _ _
  · rw [hledger]
    exact Ledger.isPlain_empty
  · rw [hlibrary]
    exact Schema.Library.reload_opened t bundled setup.schemasFolder

/-- Nothing is found in a document whose analysis fails otherwise than by a fault of the text. -/
theorem found?_eq_none_iff {uri text : String} : s.found? uri text = none ↔
    ∃ e, (analyze s.tree s.service.library.reload uri text).1 = .error e ∧
      ∀ fault o, e ≠ .text (.fault fault o) := by
  unfold found?
  cases (analyze s.tree s.service.library.reload uri text).1 with
  | ok a => simp [State.findings?]
  | error e => cases e with
    | text e => cases e <;> simp [State.findings?]
    | _ => simp [State.findings?]

end Workshop
end ModAtlas.Service
