import ModAtlas.Proofs.Service.Versions

/-!
# One result published over another

Of two validations of a document the one that was asked for first may be the last to end. With a
lower version it is then not published any more. Equal versions are not told apart: of two
validations of one version each is published when it ends, in whichever order they do, until the
document is closed or a greater version is asked for.
-/

namespace ModAtlas.Service
open ModAtlas.Document ModAtlas.Files

/-! ## What is wanted later on -/

section Wanting
variable {actions more before between during : List Action} {uri text : String}
  {version version' : Int}

/-- What is current after more actions was asked for in them, or was current and the document was
not closed in them. -/
theorem current_append : Current (actions ++ more) uri version ↔
    Current more uri version ∨ Current actions uri version ∧ Action.close uri ∉ more := by
  induction more using List.reverseRecOn with
  | nil => simp [not_current_nil]
  | append_singleton more b ih =>
      have hcloses : b.closes uri = false ↔ Action.close uri ≠ b := by
        rw [Bool.eq_false_iff, ne_eq, Action.closes_iff, eq_comm]
      rw [← List.append_assoc, current_concat, current_concat, ih, hcloses]
      simp only [List.mem_append, List.mem_singleton, not_or]
      tauto

/-- In actions that leave a document open, the current versions are those that are asked for. -/
theorem current_iff_of_open (hopen : Action.close uri ∉ more) :
    Current more uri version ↔ ∃ text, Action.ask ⟨uri, text, .validation version⟩ ∈ more := by
  constructor
  · rintro ⟨before, text, after, rfl, -⟩
    exact ⟨text, by simp⟩
  · rintro ⟨text, hmem⟩
    obtain ⟨before, after, rfl⟩ := List.append_of_mem hmem
    exact ⟨before, text, after, rfl, fun h => hopen (by simp [h])⟩

/-- Where nothing is closed and no greater version is asked for, a version is wanted. -/
theorem wanted_of_open (hopen : Action.close uri ∉ actions) (hmore : Action.close uri ∉ more)
    (hasked : ∀ v text, Action.ask ⟨uri, text, .validation v⟩ ∈ actions → v ≤ version) :
    Wanted actions more uri version := by
  refine ⟨hmore, fun v hv => ?_⟩
  obtain ⟨text, hmem⟩ := (current_iff_of_open hopen).mp hv
  exact hasked v text hmem

/-- Once a version is wanted, one that was asked for before and is not greater stays wanted exactly
if it is the same one, as long as the document is not closed and no greater one is asked for. -/
theorem wanted_append_iff (hle : version ≤ version') (hopen : Action.close uri ∉ between)
    (wanted : Wanted (before ++ .ask ⟨uri, text, .validation version'⟩ :: during) during uri
      version') :
    Wanted (before ++ .ask ⟨uri, text, .validation version'⟩ :: during ++ more)
        (between ++ .ask ⟨uri, text, .validation version'⟩ :: during ++ more) uri version ↔
      version = version' ∧ Action.close uri ∉ more ∧
        ∀ v text, Action.ask ⟨uri, text, .validation v⟩ ∈ more → v ≤ version := by
  -- the later version is current itself, so that no smaller one is wanted any more
  have hcurrent : Current (before ++ .ask ⟨uri, text, .validation version'⟩ :: during) uri
      version' := ⟨before, text, during, rfl, wanted.1⟩
  constructor
  · rintro ⟨hclose, hgreatest⟩
    have hmore : Action.close uri ∉ more := fun h => hclose (by simp [h])
    have hsame : version' ≤ version := hgreatest version' (hcurrent.append hmore)
    refine ⟨Int.le_antisymm hle hsame, hmore, fun v text hmem => hgreatest v ?_⟩
    exact current_append.mpr (.inl ((current_iff_of_open hmore).mpr ⟨text, hmem⟩))
  · rintro ⟨rfl, hmore, hasked⟩
    refine ⟨by simp [hopen, wanted.1, hmore], fun v hv => ?_⟩
    rcases current_append.mp hv with hv | ⟨hv, -⟩
    · obtain ⟨text, hmem⟩ := (current_iff_of_open hmore).mp hv
      exact hasked v text hmem
    · exact wanted.2 v hv

end Wanting

namespace Workshop
variable {start : Workshop}

/-! ## When a validation is published -/

/-- A validation is published by the step it is due in, exactly if it is wanted then. -/
theorem publishes_iff (empty : start.works = []) (ledger : start.service.ledger = .empty)
    {actions before during : List Action} {uri text : String} {version : Int}
    (asked : actions = before ++ .ask ⟨uri, text, .validation version⟩ :: during)
    {k : Nat} (hk : k = (start.run before).nextTicket) {a : Action} :
    (start.run actions).Publishes a k uri version ↔
      a = .proceed k ∧ (∃ found, (start.run actions).due? k = some found) ∧
        Wanted actions during uri version := by
  obtain ⟨i, hi, hrequest, hclosings⟩ :=
    inquiryAt_run_ask (start.run before) ⟨uri, text, .validation version⟩ during
  rw [← run_append, ← asked, ← hk] at hi
  rw [← run_append, ← asked] at hclosings
  constructor
  · intro published
    obtain ⟨ha, i', found, hi', rfl, issues⟩ := published.issues
    obtain rfl : i' = i := Option.some.inj (hi'.symm.trans hi)
    obtain ⟨result, stage, hfound⟩ := issues.analysed
    refine ⟨ha, ⟨found, due?_eq_some_iff.mpr ⟨i', result, hi, stage, hfound⟩⟩, ?_, ?_⟩
    · exact hclosings.mp (Ledger.closings_eq_of_isStale issues.fresh)
    · exact (published.current_greatest empty ledger).2
  · rintro ⟨rfl, ⟨found, due⟩, wanted⟩
    obtain ⟨answer, hanswer, hpublished, -⟩ := answer_of_due empty ledger asked hk due
    obtain ⟨i', result, hi', stage, -⟩ := due?_eq_some_iff.mp due
    refine ⟨?_, ⟨found, hpublished wanted ▸ hanswer⟩, text, by rw [hi, ← hrequest]; rfl⟩
    rw [Option.eq_none_iff_forall_ne_some]
    intro earlier hearlier
    obtain ⟨i'', hi'', stage'⟩ := answer?_eq_some_iff.mp hearlier
    obtain rfl : i'' = i' := Option.some.inj (hi''.symm.trans hi')
    rw [stage] at stage'
    cases stage'

/-- When the later one of two validations of a document has been published, the earlier one, of a
version that is not greater, is published after it exactly if it is due, has the same version, and
neither has the document been closed since nor a greater version been asked for. -/
theorem publishes_over_iff (t : Tree) (bundled : Path) (setup : Setup)
    (before between during later : List Action) (a a' : Action) (uri text text' : String)
    (version version' : Int) (k k' : Nat)
    (hk : k = ((opened t bundled setup).run before).nextTicket)
    (hk' : k' = ((opened t bundled setup).run
      (before ++ .ask ⟨uri, text, .validation version⟩ :: between)).nextTicket)
    (hopen : Action.close uri ∉ between) (hle : version ≤ version')
    (published : ((opened t bundled setup).run
        (before ++ .ask ⟨uri, text, .validation version⟩ :: between ++
          .ask ⟨uri, text', .validation version'⟩ :: during)).Publishes a k' uri version') :
    ((opened t bundled setup).run
        (before ++ .ask ⟨uri, text, .validation version⟩ :: between ++
          .ask ⟨uri, text', .validation version'⟩ :: during ++ a :: later)).Publishes
        a' k uri version ↔
      a' = .proceed k ∧
        (∃ found, ((opened t bundled setup).run
          (before ++ .ask ⟨uri, text, .validation version⟩ :: between ++
            .ask ⟨uri, text', .validation version'⟩ :: during ++ a :: later)).due? k =
              some found) ∧
        version = version' ∧ Action.close uri ∉ later ∧
        ∀ v text, Action.ask ⟨uri, text, .validation v⟩ ∈ later → v ≤ version := by
  obtain ⟨rfl, -, wanted⟩ := (publishes_iff rfl rfl rfl hk').mp published
  have hasked : before ++ .ask ⟨uri, text, .validation version⟩ :: between ++
      .ask ⟨uri, text', .validation version'⟩ :: during ++ .proceed k' :: later =
      before ++ .ask ⟨uri, text, .validation version⟩ ::
        (between ++ .ask ⟨uri, text', .validation version'⟩ :: during ++
          .proceed k' :: later) := by
    simp
  rw [publishes_iff rfl rfl hasked hk, wanted_append_iff hle hopen wanted]
  simp

/-! ## Two validations without a version -/

/-- A document is validated without giving a version, which is then 0. -/
def unversioned (text : String) : Action := .ask ⟨"file:///a", text, .validation 0⟩

/-- A document without any text has been replaced by one that is well formed, and both have been
read. -/
def replaced : List Action :=
  opening ++ unversioned "" :: [] ++ unversioned "1" :: [.proceed 1, .proceed 2]

theorem nextTicket_opening : 1 = (bareService.run opening).nextTicket := by decide +kernel

theorem nextTicket_replaced :
    2 = (bareService.run (opening ++ unversioned "" :: [])).nextTicket := by decide +kernel

theorem due_replacing : (bareService.run replaced).due? 2 = some [] := by decide +kernel

theorem due_replaced :
    (bareService.run (replaced ++ .proceed 2 :: [])).due? 1 = some nothingThere := by
  decide +kernel

/-- No other version is asked for, and nothing is closed. -/
theorem wanted_unversioned {actions more : List Action}
    (hactions : ∀ a ∈ actions, a ∈ replaced ++ .proceed 2 :: [])
    (hmore : ∀ a ∈ more, a ∈ replaced ++ .proceed 2 :: []) :
    Wanted actions more "file:///a" 0 := by
  have hclose : Action.close "file:///a" ∉ replaced ++ .proceed 2 :: [] := by
    simp [replaced, opening, unversioned]
  refine wanted_of_open (fun h => hclose (hactions _ h)) (fun h => hclose (hmore _ h))
    fun v text hmem => ?_
  have hcases : text = "" ∧ v = 0 ∨ text = "1" ∧ v = 0 := by
    simpa [replaced, opening, unversioned] using hactions _ hmem
  rcases hcases with ⟨-, rfl⟩ | ⟨-, rfl⟩ <;> exact Int.le_refl 0

theorem publishes_replacing :
    (bareService.run replaced).Publishes (.proceed 2) 2 "file:///a" 0 := by
  refine (publishes_iff rfl rfl rfl nextTicket_replaced).mpr ⟨rfl, ⟨[], due_replacing⟩, ?_⟩
  exact wanted_unversioned (by simp [replaced, unversioned]) (by simp [replaced, unversioned])

theorem publishes_replaced :
    (bareService.run (replaced ++ .proceed 2 :: [])).Publishes (.proceed 1) 1 "file:///a" 0 := by
  refine (publishes_iff rfl rfl rfl nextTicket_opening).mpr
    ⟨rfl, ⟨nothingThere, due_replaced⟩, ?_⟩
  exact wanted_unversioned (by simp [replaced, unversioned]) (by simp [replaced, unversioned])

theorem publishes_over_iff_unversioned :
    (1 = (bareService.run opening).nextTicket ∧
      2 = (bareService.run (opening ++ unversioned "" :: [])).nextTicket ∧
      Action.close "file:///a" ∉ ([] : List Action) ∧ (0 : Int) ≤ 0 ∧
      (bareService.run replaced).Publishes (.proceed 2) 2 "file:///a" 0) ∧
    (bareService.run (replaced ++ .proceed 2 :: [])).Publishes (.proceed 1) 1 "file:///a" 0 := by
  refine ⟨⟨nextTicket_opening, nextTicket_replaced, by simp, Int.le_refl 0,
    publishes_replacing⟩, ?_⟩
  refine (publishes_over_iff { root := .folder .full [], workingFolder := .ofString "/" }
    (.ofString "/bundled") .standard opening [] [.proceed 1, .proceed 2] [] (.proceed 2)
    (.proceed 1) "file:///a" "" "1" 0 0 1 2 nextTicket_opening nextTicket_replaced (by simp)
    (Int.le_refl 0) publishes_replacing).mpr ?_
  exact ⟨rfl, ⟨nothingThere, due_replaced⟩, rfl, by simp, by simp⟩

/-- What is published can be replaced by what was found in an earlier text. -/
theorem not_forall_published_last :
    ¬ ∀ (t : Tree) (bundled : Path) (setup : Setup) (before between during later : List Action)
        (a a' : Action) (uri text text' : String) (version version' : Int),
      Action.close uri ∉ between → version ≤ version' →
      ((opened t bundled setup).run
        (before ++ .ask ⟨uri, text, .validation version⟩ :: between ++
          .ask ⟨uri, text', .validation version'⟩ :: during)).Publishes a
        ((opened t bundled setup).run
          (before ++ .ask ⟨uri, text, .validation version⟩ :: between)).nextTicket uri version' →
      ¬ ((opened t bundled setup).run
          (before ++ .ask ⟨uri, text, .validation version⟩ :: between ++
            .ask ⟨uri, text', .validation version'⟩ :: during ++ a :: later)).Publishes a'
        ((opened t bundled setup).run before).nextTicket uri version := by
  intro h
  have hlast := h { root := .folder .full [], workingFolder := .ofString "/" }
    (.ofString "/bundled") .standard opening [] [.proceed 1, .proceed 2] [] (.proceed 2)
    (.proceed 1) "file:///a" "" "1" 0 0 (by simp) (Int.le_refl 0) publishes_replacing
  exact hlast publishes_replaced

end Workshop
end ModAtlas.Service
