import ModAtlas.Proofs.Service.Step

/-!
# Which versions are published

A version of a document is current when its validation was asked for and the document has not been
closed since. The ledger of a run keeps the greatest current version of every document, so that a
validation is published exactly when its document was not closed after it was asked for and no
greater version is current. Published versions therefore never decrease between two closings.
-/

namespace ModAtlas.Service
open ModAtlas.Document ModAtlas.Files ModAtlas.Reference

namespace Action

/-- Does an action close a document? -/
def closes (uri : String) : Action → Bool
  | .close u => u == uri
  | _ => false

theorem closes_iff {uri : String} {a : Action} : a.closes uri = true ↔ a = .close uri := by
  cases a <;> simp [closes]

/-- The version of a document whose validation an action asks for. -/
def asks (uri : String) : Action → Option Int
  | .ask ⟨u, _, .validation version⟩ => if u = uri then some version else none
  | _ => none

theorem asks_eq_some_iff {uri : String} {a : Action} {version : Int} :
    a.asks uri = some version ↔ ∃ text, a = .ask ⟨uri, text, .validation version⟩ := by
  constructor
  · intro h
    unfold asks at h
    split at h
    · split at h
      · rename_i hu
        cases h
        exact ⟨_, by rw [hu]⟩
      · cases h
    · cases h
  · rintro ⟨text, rfl⟩
    simp [asks]

end Action

/-! ## Current versions -/

/-- The validation of a version was asked for, and the document has not been closed since. -/
def Current (actions : List Action) (uri : String) (version : Int) : Prop :=
  ∃ before text after, actions = before ++ .ask ⟨uri, text, .validation version⟩ :: after ∧
    Action.close uri ∉ after

/-- A version that was asked for before the last actions of a run is still wanted: its document was
not closed in them, and no greater version is current. -/
def Wanted (actions during : List Action) (uri : String) (version : Int) : Prop :=
  Action.close uri ∉ during ∧ ∀ v, Current actions uri v → v ≤ version

section Currency
variable {actions : List Action} {uri : String} {version : Int}

theorem not_current_nil : ¬ Current [] uri version := by
  rintro ⟨before, text, after, h, -⟩
  simp at h

theorem Current.append (h : Current actions uri version) {more : List Action}
    (hmore : Action.close uri ∉ more) : Current (actions ++ more) uri version := by
  obtain ⟨before, text, after, rfl, hafter⟩ := h
  exact ⟨before, text, after ++ more, by simp, by simp [hafter, hmore]⟩

theorem current_concat (a : Action) :
    Current (actions ++ [a]) uri version ↔
      a.asks uri = some version ∨ a.closes uri = false ∧ Current actions uri version := by
  constructor
  · rintro ⟨before, text, after, hsplit, hafter⟩
    rcases List.eq_nil_or_concat after with rfl | ⟨after, b, rfl⟩
    · obtain ⟨-, ha⟩ := List.append_inj' hsplit rfl
      exact .inl (Action.asks_eq_some_iff.mpr ⟨text, (List.cons.inj ha).1⟩)
    · have hsplit' : actions ++ [a] =
          (before ++ .ask ⟨uri, text, .validation version⟩ :: after) ++ [b] := by
        simpa using hsplit
      obtain ⟨hactions, ha⟩ := List.append_inj' hsplit' rfl
      obtain rfl := (List.cons.inj ha).1
      refine .inr ⟨?_, before, text, after, hactions, fun h => hafter (by simp [h])⟩
      rw [Bool.eq_false_iff]
      intro hclose
      exact hafter (by simp [Action.closes_iff.mp hclose])
  · rintro (hasks | ⟨hclose, hcurrent⟩)
    · obtain ⟨text, rfl⟩ := Action.asks_eq_some_iff.mp hasks
      exact ⟨actions, text, [], rfl, by simp⟩
    · apply hcurrent.append
      intro h
      rw [Action.closes_iff.mpr (List.mem_singleton.mp h).symm] at hclose
      cases hclose

end Currency

/-! ## What the ledger records -/

/-- A ledger records a run: it keeps the greatest current version as the one received, and has
published current versions only. -/
structure Ledger.Records (l : Ledger) (actions : List Action) : Prop where
  received : ∀ uri newest, l.received uri = some newest → Current actions uri newest
  greatest : ∀ uri version, Current actions uri version →
    ∃ newest, l.received uri = some newest ∧ version ≤ newest
  published : ∀ uri version, l.published uri = some version → Current actions uri version

namespace Ledger
variable {l : Ledger} {actions : List Action}

theorem records_empty : empty.Records [] := by
  constructor
  · intro uri newest h
    cases h
  · intro uri version h
    exact (not_current_nil h).elim
  · intro uri version h
    cases h

theorem receive_received (l : Ledger) (uri : String) (version : Int) (u : String) :
    (l.receive uri version).received u =
      if u = uri then some (max ((l.received uri).getD version) version) else l.received u := by
  unfold receive
  split
  · rename_i hle
    simp [Int.max_eq_right hle]
  · rename_i hlt
    by_cases hu : u = uri
    · subst u
      cases hr : l.received uri with
      | none => simp [hr] at hlt
      | some newest =>
          simp only [hr, Option.getD_some, Int.not_le] at hlt
          simp [Int.max_eq_left (Int.le_of_lt hlt)]
    · simp [hu]

@[simp] theorem receive_closings (l : Ledger) (uri : String) (version : Int) :
    (l.receive uri version).closings = l.closings := by
  unfold receive
  split <;> rfl

@[simp] theorem receive_published (l : Ledger) (uri : String) (version : Int) :
    (l.receive uri version).published = l.published := by
  unfold receive
  split <;> rfl

/-- An action that neither asks for a validation nor closes a document need not be recorded. -/
theorem Records.other (h : l.Records actions) {a : Action} (asks : ∀ uri, a.asks uri = none)
    (closes : ∀ uri, a.closes uri = false) : l.Records (actions ++ [a]) := by
  have hcurrent (uri : String) (version : Int) :
      Current (actions ++ [a]) uri version ↔ Current actions uri version := by
    rw [current_concat, asks, closes]
    simp
  constructor
  · intro uri newest hr
    exact (hcurrent uri newest).mpr (h.received uri newest hr)
  · intro uri version hc
    exact h.greatest uri version ((hcurrent uri version).mp hc)
  · intro uri version hp
    exact (hcurrent uri version).mpr (h.published uri version hp)

/-- A version that is not stale was asked for after the last closing. -/
theorem closings_eq_of_isStale {uri : String} {version : Int} {closings : Nat}
    (h : l.isStale uri version closings = false) : closings = l.closings uri := by
  unfold isStale at h
  split at h
  · cases h
  · simp only [Bool.or_eq_false_iff, bne_eq_false_iff_eq] at h
    exact h.1.1

theorem Records.receive (h : l.Records actions) (uri text : String) (version : Int) :
    (l.receive uri version).Records
      (actions ++ [.ask ⟨uri, text, .validation version⟩]) := by
  have hcurrent (u : String) (v : Int) :
      Current (actions ++ [.ask ⟨uri, text, .validation version⟩]) u v ↔
        u = uri ∧ v = version ∨ Current actions u v := by
    rw [current_concat]
    simp [Action.asks, Action.closes, eq_comm]
  constructor
  · intro u newest hr
    rw [receive_received] at hr
    rw [hcurrent]
    split at hr
    · rename_i hu
      subst u
      cases hold : l.received uri with
      | none =>
          left
          simpa [hold, eq_comm] using hr
      | some old =>
          simp only [hold, Option.getD_some, Option.some.injEq] at hr
          rcases Int.le_total old version with hle | hle
          · rw [Int.max_eq_right hle] at hr
            exact .inl ⟨rfl, hr.symm⟩
          · rw [Int.max_eq_left hle] at hr
            exact .inr (hr ▸ h.received uri old hold)
    · exact .inr (h.received u newest hr)
  · intro u v hc
    rw [receive_received]
    rcases (hcurrent u v).mp hc with ⟨rfl, rfl⟩ | hc
    · rw [if_pos rfl]
      exact ⟨_, rfl, Int.le_max_right _ _⟩
    · obtain ⟨newest, hr, hle⟩ := h.greatest u v hc
      split
      · rename_i hu
        subst u
        rw [hr]
        exact ⟨_, rfl, Int.le_trans hle (Int.le_max_left _ _)⟩
      · exact ⟨newest, hr, hle⟩
  · intro u v hp
    rw [receive_published] at hp
    exact (hcurrent u v).mpr (.inr (h.published u v hp))

theorem Records.close (h : l.Records actions) (uri : String) :
    (l.close uri).Records (actions ++ [.close uri]) := by
  have hcurrent (u : String) (v : Int) :
      Current (actions ++ [.close uri]) u v ↔ u ≠ uri ∧ Current actions u v := by
    rw [current_concat]
    simp [Action.asks, Action.closes, eq_comm (a := uri)]
  constructor
  · intro u newest hr
    by_cases hu : u = uri
    · simp [Ledger.close, hu] at hr
    · rw [hcurrent]
      exact ⟨hu, h.received u newest (by simpa [Ledger.close, hu] using hr)⟩
  · intro u v hc
    obtain ⟨hu, hc⟩ := (hcurrent u v).mp hc
    simpa [Ledger.close, hu] using h.greatest u v hc
  · intro u v hp
    by_cases hu : u = uri
    · simp [Ledger.close, hu] at hp
    · rw [hcurrent]
      exact ⟨hu, h.published u v (by simpa [Ledger.close, hu] using hp)⟩

theorem Records.publish (h : l.Records actions) {uri : String} {version : Int}
    (hcurrent : Current actions uri version) : (l.publish uri version).Records actions := by
  constructor
  · exact h.received
  · exact h.greatest
  · intro u v hp
    by_cases hu : u = uri
    · subst u
      have hv : version = v := by simpa [Ledger.publish] using hp
      exact hv ▸ hcurrent
    · exact h.published u v (by simpa [Ledger.publish, hu] using hp)

/-- A version is fresh when its document was not closed since and no greater one is current. -/
theorem Records.isStale_eq_false_iff (h : l.Records actions) {uri : String} {version : Int}
    {closings : Nat} (hcurrent : closings = l.closings uri → Current actions uri version) :
    l.isStale uri version closings = false ↔
      closings = l.closings uri ∧ ∀ v, Current actions uri v → v ≤ version := by
  unfold isStale
  cases hr : l.received uri with
  | none =>
      simp only [Bool.true_eq_false, false_iff, not_and]
      intro hclosings
      obtain ⟨newest, hsome, -⟩ := h.greatest uri version (hcurrent hclosings)
      rw [hr] at hsome
      cases hsome
  | some newest =>
      have hbound (v : Int) (hv : Current actions uri v) : v ≤ newest := by
        obtain ⟨n, hn, hle⟩ := h.greatest uri v hv
        rw [hr] at hn
        cases hn
        exact hle
      have hpublished : newest ≤ version → (l.published uri).getD version ≤ version := by
        intro hle
        cases hp : l.published uri with
        | none => exact Int.le_refl version
        | some p => exact Int.le_trans (hbound p (h.published uri p hp)) hle
      simp only [Bool.or_eq_false_iff, bne_eq_false_iff_eq, decide_eq_false_iff_not, Int.not_lt]
      constructor
      · rintro ⟨⟨hclosings, hle⟩, -⟩
        exact ⟨hclosings, fun v hv => Int.le_trans (hbound v hv) hle⟩
      · rintro ⟨hclosings, hall⟩
        have hle : newest ≤ version := hall newest (h.received uri newest hr)
        exact ⟨⟨hclosings, hle⟩, hpublished hle⟩

end Ledger

/-! ## The last step of a validation -/

namespace State

/-- The next step of an inquiry publishes what was found for a version. -/
structure Issues (s : State) (i : Inquiry) (version : Int) (found : List Diagnostic) : Prop where
  task : i.request.task = .validation version
  analysed : ∃ result, i.stage = .analysed result ∧ s.findings? i result = some found
  fresh : s.ledger.isStale i.request.uri version i.closings = false

theorem proceed_of_findings {s : State} (t : Tree) {i : Inquiry} {version : Int}
    {result : Except AnalysisError Analysis} {found : List Diagnostic}
    (task : i.request.task = .validation version) (stage : i.stage = .analysed result)
    (hfound : s.findings? i result = some found) :
    s.proceed t i = s.publish i version found := by
  unfold proceed
  rw [stage]
  dsimp only
  unfold serve
  rw [task]
  dsimp only
  rw [hfound]

theorem proceed_of_issues {s : State} (t : Tree) {i : Inquiry} {version : Int}
    {found : List Diagnostic} (h : s.Issues i version found) :
    s.proceed t i = ({ s with ledger := s.ledger.publish i.request.uri version },
      i.answer (.diagnostics (some found))) := by
  obtain ⟨result, stage, hfound⟩ := h.analysed
  rw [proceed_of_findings t h.task stage hfound, publish]
  simp [h.fresh]

/-- Serving an inquiry either issues what it found or leaves the ledger as it is. -/
theorem serve_cases (s : State) (t : Tree) (i : Inquiry) (result : Except AnalysisError Analysis) :
    (∃ version found, i.request.task = .validation version ∧
        s.findings? i result = some found ∧
          s.ledger.isStale i.request.uri version i.closings = false) ∨
      (s.serve t i result).1 = s ∧
        ∀ found, (s.serve t i result).2.stage ≠ .answered (.diagnostics (some found)) := by
  cases task : i.request.task with
  | validation version =>
      cases hfound : s.findings? i result with
      | none =>
          right
          simp [serve, task, hfound, Task.unserved]
      | some found =>
          cases hstale : s.ledger.isStale i.request.uri version i.closings with
          | false => exact .inl ⟨version, found, rfl, rfl, hstale⟩
          | true =>
              right
              simp [serve, task, hfound, publish, hstale]
  | hover offset language =>
      right
      cases result with
      | error e => simp [serve, task, Task.unserved]
      | ok a =>
          simp only [serve, task]
          split <;> simp [task, Task.unserved]
  | definition offset language =>
      right
      cases result <;> simp [serve, task, Task.unserved]
  | completion offset =>
      right
      cases result <;> simp [serve, task, Task.unserved]

/-- A step that issues nothing leaves the ledger as it is and publishes nothing new. -/
theorem proceed_cases (s : State) (t : Tree) (i : Inquiry) :
    (∃ version found, s.Issues i version found) ∨
      (s.proceed t i).1.ledger = s.ledger ∧
        ∀ found, (s.proceed t i).2.stage = .answered (.diagnostics (some found)) →
          i.stage = .answered (.diagnostics (some found)) := by
  unfold proceed
  split
  · exact .inr ⟨rfl, fun _ h => h⟩
  · exact .inr ⟨rfl, fun _ h => h⟩
  · exact .inr ⟨rfl, fun _ h => by simp at h⟩
  · rename_i result stage
    rcases s.serve_cases t i result with ⟨version, found, task, hfound, fresh⟩ | ⟨hs, hnew⟩
    · exact .inl ⟨version, found, task, ⟨result, stage, hfound⟩, fresh⟩
    · exact .inr ⟨by rw [hs], fun found h => absurd h (hnew found)⟩

end State

/-! ## Runs -/

namespace Workshop

/-- What the validation of a ticket has found, when only its last check is left. -/
def due? (s : Workshop) (k : Nat) : Option (List Diagnostic) :=
  (inquiryAt s.works k).bind fun i =>
    match i.stage with
    | .analysed result => s.service.findings? i result
    | _ => none

theorem due?_eq_some_iff {s : Workshop} {k : Nat} {found : List Diagnostic} :
    s.due? k = some found ↔ ∃ i result, inquiryAt s.works k = some i ∧
      i.stage = .analysed result ∧ s.service.findings? i result = some found := by
  unfold due?
  cases inquiryAt s.works k with
  | none => simp
  | some i => cases hstage : i.stage <;> simp [hstage]

/-- An action publishes a version of a document, as the answer to the validation of a ticket. -/
def Publishes (s : Workshop) (a : Action) (k : Nat) (uri : String) (version : Int) : Prop :=
  s.answer? k = none ∧ (∃ found, (s.act a).answer? k = some (.diagnostics (some found))) ∧
    ∃ text, (inquiryAt s.works k).map (·.request) = some ⟨uri, text, .validation version⟩

theorem Publishes.issues {s : Workshop} {a : Action} {k : Nat} {uri : String} {version : Int}
    (h : s.Publishes a k uri version) :
    a = .proceed k ∧ ∃ i found, inquiryAt s.works k = some i ∧ i.request.uri = uri ∧
      s.service.Issues i version found := by
  obtain ⟨unanswered, ⟨found, answered⟩, text, hasked⟩ := h
  obtain ⟨i, hi, hrequest⟩ := Option.map_eq_some_iff.mp hasked
  have huri : i.request.uri = uri := by rw [hrequest]
  have task : i.request.task = .validation version := by rw [hrequest]
  have hfresh : i.stage ≠ .answered (.diagnostics (some found)) := by
    intro hstage
    rw [answer?_eq_some_iff.mpr ⟨i, hi, hstage⟩] at unanswered
    cases unanswered
  obtain ⟨i', hi', hstage⟩ := answer?_eq_some_iff.mp answered
  rcases inquiryAt_act hi' with ⟨request, rfl, hk, -⟩ | ⟨i₀, hi₀, hmoved⟩
  · rw [hk] at hi
    exact absurd (lt_length_of_workAt hi) (Nat.lt_irrefl _)
  · obtain rfl : i₀ = i := Option.some.inj (hi₀.symm.trans hi)
    rcases hmoved with rfl | ⟨-, rfl⟩ | ⟨-, rfl⟩ | ⟨ha, rfl⟩
    · exact absurd hstage hfresh
    · unfold Inquiry.letIn at hstage
      split at hstage
      · simp at hstage
      · exact absurd hstage hfresh
    · unfold Inquiry.giveUp at hstage
      split at hstage
      · simp [task, Task.unserved] at hstage
      · exact absurd hstage hfresh
    · refine ⟨ha, i₀, ?_⟩
      rcases s.service.proceed_cases s.tree i₀ with ⟨v, found', issues⟩ | ⟨-, hnew⟩
      · obtain rfl : v = version := by simpa using issues.task.symm.trans task
        exact ⟨found', hi, huri, issues⟩
      · exact absurd (hnew found hstage) hfresh

theorem closings_act (s : Workshop) (a : Action) (uri : String) :
    (s.act a).service.ledger.closings uri =
      s.service.ledger.closings uri + if a.closes uri then 1 else 0 := by
  have hstep := s.act_step a
  generalize s.act a = s' at hstep
  cases hstep with
  | edit tree => rfl
  | ask request =>
      obtain ⟨u, text, task⟩ := request
      cases task <;> simp [State.receive, Action.closes]
  | rebuild root language => rfl
  | close u =>
      by_cases hu : uri = u
      · simp [State.close, Ledger.close, Action.closes, hu]
      · simp [State.close, Ledger.close, Action.closes, hu, Ne.symm hu]
  | speak language => rfl
  | @proceed k i hk =>
      dsimp only
      rcases s.service.proceed_cases s.tree i with ⟨v, found, issues⟩ | ⟨hledger, -⟩
      · rw [State.proceed_of_issues s.tree issues]
        rfl
      · rw [hledger]
        rfl
  | giveUp hk => rfl
  | gather hn part => rfl
  | finish hn complete unfinished => rfl
  | idle hfits => cases a <;> first | rfl | exact absurd trivial hfits

/-- The ledger counts the closings of a document. -/
theorem closings_run (s : Workshop) (actions : List Action) (uri : String) :
    (s.run actions).service.ledger.closings uri =
      s.service.ledger.closings uri + actions.countP (·.closes uri) := by
  induction actions generalizing s with
  | nil => rfl
  | cons a actions ih =>
      rw [run_cons, ih, closings_act, List.countP_cons]
      omega

/-- The inquiry of a request that was asked in a run, some actions later: it still knows how often
its document had been closed when it was asked. -/
theorem inquiryAt_run_ask (s : Workshop) (request : Request) (during : List Action) :
    ∃ i, inquiryAt (s.run (.ask request :: during)).works s.nextTicket = some i ∧
      i.request = request ∧
        (i.closings = (s.run (.ask request :: during)).service.ledger.closings request.uri ↔
          Action.close request.uri ∉ during) := by
  obtain ⟨i, hi, hlead⟩ := leads_run (s.inquiryAt_ask request) during
  refine ⟨i, hi, hlead.request_eq, ?_⟩
  have hclosings : i.closings = (s.act (.ask request)).service.ledger.closings request.uri :=
    hlead.closings_eq
  rw [run_cons, closings_run, ← hclosings]
  have hcount : during.countP (·.closes request.uri) = 0 ↔ Action.close request.uri ∉ during := by
    rw [List.countP_eq_zero]
    constructor
    · exact fun h hmem => h _ hmem (Action.closes_iff.mpr rfl)
    · rintro h a ha hclose
      exact h (Action.closes_iff.mp hclose ▸ ha)
  rw [← hcount]
  omega

/-- A validation is current exactly when its document was not closed since its closings were
counted. -/
theorem current_of_closings_eq {start : Workshop} (empty : start.works = [])
    {actions : List Action} {k : Nat} {i : Inquiry}
    (hi : inquiryAt (start.run actions).works k = some i) {version : Int}
    (task : i.request.task = .validation version)
    (hclosings : i.closings = (start.run actions).service.ledger.closings i.request.uri) :
    Current actions i.request.uri version := by
  obtain ⟨before, during, rfl, rfl⟩ := asked_of_inquiryAt empty hi
  rw [run_append] at hi hclosings
  obtain ⟨i', hi', -, hiff⟩ := inquiryAt_run_ask (start.run before) i.request during
  obtain rfl : i' = i := Option.some.inj (hi'.symm.trans hi)
  refine ⟨before, i'.request.text, during, ?_, hiff.mp hclosings⟩
  rw [← task]

/-- The ledger of a run records it. -/
theorem records_run {start : Workshop} (empty : start.works = [])
    (ledger : start.service.ledger = .empty) (actions : List Action) :
    (start.run actions).service.ledger.Records actions := by
  induction actions using List.reverseRecOn with
  | nil => exact ledger ▸ Ledger.records_empty
  | append_singleton actions a ih =>
      rw [run_append]
      have hstep := (start.run actions).act_step a
      rw [run_cons, run_nil]
      generalize (start.run actions).act a = s' at hstep
      cases hstep with
      | edit tree => exact ih.other (fun _ => rfl) (fun _ => rfl)
      | ask request =>
          obtain ⟨uri, text, task⟩ := request
          cases task with
          | validation version => exact ih.receive uri text version
          | hover offset language => exact ih.other (fun _ => rfl) (fun _ => rfl)
          | definition offset language => exact ih.other (fun _ => rfl) (fun _ => rfl)
          | completion offset => exact ih.other (fun _ => rfl) (fun _ => rfl)
      | rebuild root language => exact ih.other (fun _ => rfl) (fun _ => rfl)
      | close uri => exact ih.close uri
      | speak language => exact ih.other (fun _ => rfl) (fun _ => rfl)
      | @proceed k i hk =>
          refine Ledger.Records.other ?_ (fun _ => rfl) (fun _ => rfl)
          dsimp only
          rcases (start.run actions).service.proceed_cases (start.run actions).tree i with
            ⟨version, found, issues⟩ | ⟨hledger, -⟩
          · rw [State.proceed_of_issues _ issues]
            exact ih.publish (current_of_closings_eq empty hk issues.task
              (Ledger.closings_eq_of_isStale issues.fresh))
          · rw [hledger]
            exact ih
      | giveUp hk => exact ih.other (fun _ => rfl) (fun _ => rfl)
      | gather hn part => exact ih.other (fun _ => rfl) (fun _ => rfl)
      | finish hn complete unfinished => exact ih.other (fun _ => rfl) (fun _ => rfl)
      | idle hfits =>
          apply ih.other
          · cases a <;> first | exact fun _ => rfl | exact absurd trivial hfits
          · cases a <;> first | exact fun _ => rfl | exact absurd trivial hfits

/-- A version that is published is the greatest current one. -/
theorem Publishes.current_greatest {start : Workshop} (empty : start.works = [])
    (ledger : start.service.ledger = .empty) {actions : List Action} {a : Action} {k : Nat}
    {uri : String} {version : Int} (h : (start.run actions).Publishes a k uri version) :
    Current actions uri version ∧ ∀ v, Current actions uri v → v ≤ version := by
  obtain ⟨-, i, found, hi, rfl, issues⟩ := h.issues
  have hcurrent := current_of_closings_eq empty hi issues.task
  exact ⟨hcurrent (Ledger.closings_eq_of_isStale issues.fresh),
    (((records_run empty ledger actions).isStale_eq_false_iff hcurrent).mp issues.fresh).2⟩

/-- What a validation that is due is answered with: its diagnostics if its document was not closed
since it was asked for and no greater version is current, and else none. -/
theorem answer_of_due {start : Workshop} (empty : start.works = [])
    (ledger : start.service.ledger = .empty) {actions before during : List Action}
    {uri text : String} {version : Int}
    (asked : actions = before ++ .ask ⟨uri, text, .validation version⟩ :: during)
    {k : Nat} (hk : k = (start.run before).nextTicket) {found : List Diagnostic}
    (due : (start.run actions).due? k = some found) :
    ∃ answer,
      ((start.run actions).act (.proceed k)).answer? k = some (.diagnostics answer) ∧
      (Wanted actions during uri version → answer = some found) ∧
      (¬ Wanted actions during uri version → answer = none) := by
  subst asked hk
  have hrecords :=
    records_run empty ledger (before ++ .ask ⟨uri, text, .validation version⟩ :: during)
  obtain ⟨i, hi, hrequest, hclosings⟩ :=
    inquiryAt_run_ask (start.run before) ⟨uri, text, .validation version⟩ during
  rw [← run_append] at hi hclosings
  obtain ⟨i', result, hi', stage, hfound⟩ := due?_eq_some_iff.mp due
  obtain rfl : i' = i := Option.some.inj (hi'.symm.trans hi)
  have hcurrent (h : i'.closings = _) : Current _ uri version :=
    ⟨before, text, during, rfl, hclosings.mp h⟩
  have hstale := hrecords.isStale_eq_false_iff hcurrent
  have hanswer := inquiryAt_proceed hi
  rw [State.proceed_of_findings _ (by rw [hrequest]) stage hfound, State.publish, hrequest]
    at hanswer
  rw [hclosings] at hstale
  rw [Wanted, ← hstale]
  split at hanswer
  · rename_i hcase
    refine ⟨none, answer?_eq_some_iff.mpr ⟨_, hanswer, rfl⟩, fun h => ?_, fun _ => rfl⟩
    rw [h] at hcase
    cases hcase
  · rename_i hcase
    exact ⟨some found, answer?_eq_some_iff.mpr ⟨_, hanswer, rfl⟩, fun _ => rfl,
      fun h => absurd (Bool.eq_false_iff.mpr hcase) h⟩

/-- A validation that is due is answered with its diagnostics exactly when its document was not
closed since it was asked for and no greater version is current, and else with none. So the
versions published between two closings of a document never decrease, and nothing that was asked
for before a closing is published after it. -/
theorem published_iff_current_greatest (t : Tree) (bundled : Path) (setup : Setup) :
    (∀ before uri text version during found,
      ((opened t bundled setup).run
          (before ++ .ask ⟨uri, text, .validation version⟩ :: during)).due?
        ((opened t bundled setup).run before).nextTicket = some found →
      ∃ answer,
        (((opened t bundled setup).run
            (before ++ .ask ⟨uri, text, .validation version⟩ :: during)).act
          (.proceed ((opened t bundled setup).run before).nextTicket)).answer?
            ((opened t bundled setup).run before).nextTicket = some (.diagnostics answer) ∧
        (Wanted (before ++ .ask ⟨uri, text, .validation version⟩ :: during) during uri version →
          answer = some found) ∧
        (¬ Wanted (before ++ .ask ⟨uri, text, .validation version⟩ :: during) during uri version →
          answer = none)) ∧
    (∀ before a between a' k k' uri version version',
      ((opened t bundled setup).run before).Publishes a k uri version →
      ((opened t bundled setup).run (before ++ a :: between)).Publishes a' k' uri version' →
      Action.close uri ∉ between → version ≤ version') ∧
    ∀ before uri text version during a version',
      Action.close uri ∈ during →
      ¬ ((opened t bundled setup).run
          (before ++ .ask ⟨uri, text, .validation version⟩ :: during)).Publishes a
        ((opened t bundled setup).run before).nextTicket uri version' := by
  refine ⟨fun before uri text version during found due => answer_of_due rfl rfl rfl rfl due, ?_, ?_⟩
  · intro before a between a' k k' uri version version' published published' hopen
    obtain ⟨rfl, -⟩ := published.issues
    obtain ⟨hcurrent, -⟩ := published.current_greatest rfl rfl
    obtain ⟨-, hgreatest⟩ := published'.current_greatest rfl rfl
    exact hgreatest version (hcurrent.append (by simp [hopen]))
  · intro before uri text version during a version' closed published
    obtain ⟨-, i, found, hi, rfl, issues⟩ := published.issues
    obtain ⟨i', hi', hrequest, hclosings⟩ := inquiryAt_run_ask
      ((opened t bundled setup).run before) ⟨i.request.uri, text, .validation version⟩ during
    rw [← run_append] at hi' hclosings
    obtain rfl : i' = i := Option.some.inj (hi'.symm.trans hi)
    exact hclosings.mp (Ledger.closings_eq_of_isStale issues.fresh) closed

/-! ## A document that is reopened -/

/-- A service without files. -/
def bareService : Workshop :=
  .opened { root := .folder .full [], workingFolder := .ofString "/" } (.ofString "/bundled")
    .standard

/-- The gate is opened: a rebuild that fails opens it as well. -/
def opening : List Action := [.rebuild "\x00" none, .gather 0 .paths, .finish 0]

/-- A version without any text is asked for. -/
def asking (version : Int) : Action := .ask ⟨"file:///a", "", .validation version⟩

/-- What is found in it. -/
def nothingThere : List Diagnostic := [.ofFault [] .valueExpected 0]

/-- Two versions, of which the greater one is published last. -/
def increasing : List Action := opening ++ [asking 4, .proceed 1]

/-- A version is under way when its document is closed and reopened at a lower one. -/
def reopened : List Action := [.proceed 1, .close "file:///a", asking 1, .proceed 2]

theorem due_reopened :
    (bareService.run (opening ++ asking 5 :: reopened)).due? 1 = some nothingThere := by
  decide +kernel

theorem publishes_increasing :
    (bareService.run increasing).Publishes (.proceed 1) 1 "file:///a" 4 ∧
      (bareService.run (increasing ++ .proceed 1 :: [asking 5, .proceed 2])).Publishes
        (.proceed 2) 2 "file:///a" 5 := by
  refine ⟨⟨?_, ⟨nothingThere, ?_⟩, "", ?_⟩, ?_, ⟨nothingThere, ?_⟩, "", ?_⟩ <;> decide +kernel

theorem published_iff_current_greatest_reopened :
    (bareService.run (opening ++ asking 5 :: reopened)).due? 1 = some nothingThere ∧
      ((bareService.run (opening ++ asking 5 :: reopened)).act (.proceed 1)).answer? 1 =
        some (.diagnostics none) ∧
      ¬ (bareService.run (opening ++ asking 5 :: reopened)).Publishes (.proceed 1) 1
        "file:///a" 5 ∧
      (bareService.run increasing).Publishes (.proceed 1) 1 "file:///a" 4 ∧
      (bareService.run (increasing ++ .proceed 1 :: [asking 5, .proceed 2])).Publishes
        (.proceed 2) 2 "file:///a" 5 ∧ (4 : Int) ≤ 5 := by
  obtain ⟨hdue, hincreasing, hclosed⟩ := published_iff_current_greatest
    { root := .folder .full [], workingFolder := .ofString "/" } (.ofString "/bundled") .standard
  obtain ⟨answer, hanswer, -, hnone⟩ :=
    hdue opening "file:///a" "" 5 reopened nothingThere due_reopened
  have hunwanted : ¬ Wanted (opening ++ asking 5 :: reopened) reopened "file:///a" 5 :=
    fun h => h.1 (by simp [reopened])
  refine ⟨due_reopened, hnone hunwanted ▸ hanswer, ?_, publishes_increasing.1,
    publishes_increasing.2, ?_⟩
  · exact hclosed opening "file:///a" "" 5 reopened (.proceed 1) 5 (by simp [reopened])
  · exact hincreasing increasing (.proceed 1) [asking 5, .proceed 2] (.proceed 2) 1 2 "file:///a"
      4 5 publishes_increasing.1 publishes_increasing.2 (by simp [asking])

end Workshop
end ModAtlas.Service
