import ModAtlas.Proofs.Document.Due
import ModAtlas.Proofs.Service.Versions

/-!
# Which validations deliver

A document without a schema is validated by reading it. Behind an open gate a validation takes
two steps, with any other work between them: it reads, and it publishes what it has found unless a
newer version or a closing has overtaken it. It has found something unless the text holds an
integer that is too long.
-/

namespace ModAtlas.Service
open ModAtlas.Document ModAtlas.Files ModAtlas.Reference ModAtlas.Workspace

/-! ## Analyses without a schema -/

/-- A document has no schema: its URI can be read, and there is no schema for the name of the
file. -/
def Schemaless (uri : String) : Prop :=
  ∃ name, Uri.fileName uri = .ok name ∧ Schema.schemaFileFor name = none

/-- Without a schema neither the files nor the library matter. -/
theorem analyze_schemaless {uri : String} (free : Schemaless uri) (t : Tree)
    (library : Schema.Library) (text : String) :
    (analyze t library uri text).1 =
      match read text.toList with
      | .error e => .error (.text e)
      | .ok root => .ok ⟨text.toList, root, none, []⟩ := by
  obtain ⟨name, hname, hfree⟩ := free
  unfold analyze
  cases read text.toList with
  | error e => rfl
  | ok root =>
      simp only [hname, Schema.Library.forDocument, hfree]
      rfl

namespace State

/-- Only an integer that is too long keeps a reading from being reported. -/
theorem findings?_schemaless {uri : String} (free : Schemaless uri) (s : State) (i : Inquiry)
    (t : Tree) (library : Schema.Library) (text : String) :
    s.findings? i (analyze t library uri text).1 = none ↔ Overlong text.toList := by
  rw [analyze_schemaless free, ← read_eq_tooLong_iff]
  cases read text.toList with
  | error e => cases e <;> simp [findings?]
  | ok root => simp [findings?]

end State

namespace Workshop
variable {s : Workshop} {k : Nat} {i : Inquiry}

/-! ## Work between the steps of an inquiry -/

/-- An inquiry behind the gate stays as it is until its own next step. -/
theorem inquiryAt_act_other (h : inquiryAt s.works k = some i) (behind : i.isBehindGate = true)
    {a : Action} (other : a ≠ .proceed k) : inquiryAt (s.act a).works k = some i := by
  obtain ⟨i', hi', -⟩ := leads_act h a
  rw [hi']
  rcases inquiryAt_act hi' with ⟨request, -, rfl, -⟩ | ⟨i₀, hi₀, hmoved⟩
  · exact absurd (lt_length_of_workAt h) (Nat.lt_irrefl _)
  obtain rfl : i₀ = i := Option.some.inj (hi₀.symm.trans h)
  rcases hmoved with rfl | ⟨-, rfl⟩ | ⟨-, rfl⟩ | ⟨ha, -⟩
  · rfl
  · cases hstage : i₀.stage <;> simp [Inquiry.isBehindGate, Inquiry.letIn, hstage] at behind ⊢
  · cases hstage : i₀.stage <;> simp [Inquiry.isBehindGate, Inquiry.giveUp, hstage] at behind ⊢
  · exact absurd ha other

theorem inquiryAt_run_other (h : inquiryAt s.works k = some i) (behind : i.isBehindGate = true)
    {actions : List Action} (other : .proceed k ∉ actions) :
    inquiryAt (s.run actions).works k = some i := by
  induction actions generalizing s with
  | nil => exact h
  | cons a actions ih =>
      obtain ⟨ha, hactions⟩ := not_or.mp (mt List.mem_cons.mpr other)
      exact ih (inquiryAt_act_other h behind (Ne.symm ha)) hactions

/-- A request that finds the gate open has been analysed once it has taken a step. -/
theorem analysed_of_ready (request : Request) (ready : s.service.isReady = true)
    {early late : List Action} (hearly : .proceed s.nextTicket ∉ early)
    (hlate : .proceed s.nextTicket ∉ late) :
    ∃ i t library,
      inquiryAt (s.run (.ask request :: (early ++ .proceed s.nextTicket :: late))).works
        s.nextTicket = some i ∧ i.request = request ∧
      i.stage = .analysed (analyze t library request.uri request.text).1 := by
  have hadmitted : (s.service.receive request).2.stage = .admitted := by
    simp [State.receive, ready]
  have hwaited := inquiryAt_run_other (s.inquiryAt_ask request)
    (by simp [Inquiry.isBehindGate, hadmitted]) hearly
  rw [← run_cons] at hwaited
  have hstep := inquiryAt_proceed hwaited
  simp only [State.proceed, hadmitted] at hstep
  have hdone := inquiryAt_run_other hstep (by rfl) hlate
  rw [← run_cons, ← run_append] at hdone
  exact ⟨_, _, _, hdone, rfl, rfl⟩

/-! ## Validations without a schema -/

/-- Reading gives a tree or a fault unless an integer is too long where a value is due. A
validation of a document without a schema that finds the gate open, and is not overtaken by a
newer version or a closing, publishes its diagnostics under the same condition, whatever other
work comes before, between and after its steps. -/
theorem published_iff_not_overlong (t : Tree) (bundled : Path) (setup : Setup) :
    (∀ text, ((∃ n, read text = .ok n) ∨ ∃ fault o, read text = .error (.fault fault o)) ↔
      ¬ Overlong text) ∧
    ∀ before uri text version early late k, Schemaless uri →
      k = ((opened t bundled setup).run before).nextTicket →
      ((opened t bundled setup).run before).service.isReady = true →
      .proceed k ∉ early → .proceed k ∉ late →
      Wanted (before ++ .ask ⟨uri, text, .validation version⟩ :: (early ++ .proceed k :: late))
        (early ++ .proceed k :: late) uri version →
      ∃ answer,
        (((opened t bundled setup).run (before ++ .ask ⟨uri, text, .validation version⟩ ::
          (early ++ .proceed k :: late))).act (.proceed k)).answer? k =
            some (.diagnostics answer) ∧
        (answer = none ↔ Overlong text.toList) := by
  constructor
  · intro text
    rw [← read_eq_tooLong_iff]
    cases read text with
    | error e => cases e <;> simp
    | ok n => simp
  · intro before uri text version early late k free hk ready hearly hlate hwanted
    subst hk
    generalize hstart : opened t bundled setup = start at *
    have hempty : start.works = [] := by rw [← hstart]; rfl
    have hledger : start.service.ledger = .empty := by rw [← hstart]; rfl
    obtain ⟨i, t', library, hi, hrequest, hstage⟩ :=
      analysed_of_ready ⟨uri, text, .validation version⟩ ready hearly hlate
    rw [← run_append] at hi
    generalize hactions : before ++ .ask ⟨uri, text, .validation version⟩ ::
      (early ++ .proceed (start.run before).nextTicket :: late) = actions at *
    have hfindings := (start.run actions).service.findings?_schemaless free i t' library text
    cases hfound : (start.run actions).service.findings? i (analyze t' library uri text).1 with
    | none =>
        -- nothing was found: the validation is refused
        refine ⟨none, answer?_eq_some_iff.mpr ⟨_, inquiryAt_proceed hi, ?_⟩, ?_⟩
        · simp only [State.proceed, hstage, State.serve, hrequest, hfound, Inquiry.stage_refuse,
            Task.unserved]
        · simpa using hfindings.mp hfound
    | some found =>
        have hdue : (start.run actions).due? (start.run before).nextTicket = some found :=
          due?_eq_some_iff.mpr ⟨i, _, hi, hstage, hfound⟩
        obtain ⟨answer, hanswer, hpublished, -⟩ :=
          answer_of_due hempty hledger hactions.symm rfl hdue
        refine ⟨answer, hanswer, ?_⟩
        rw [hpublished hwanted, ← hfindings, hfound]

/-- A text of one digit more than may be read. -/
def manyDigits : List Char := List.replicate (Number.digitLimit + 1) '1'

theorem overlong_manyDigits : Overlong manyDigits := by
  change Overlong ('1' :: List.replicate Number.digitLimit '1')
  apply overlong_digits (by decide)
  · intro d hd
    rw [List.eq_of_mem_replicate hd]
    decide
  · rw [List.length_replicate]

/-- Not every text gives a tree or a fault. -/
theorem not_forall_tree_or_fault :
    ¬ ∀ text, (∃ n, read text = .ok n) ∨ ∃ fault o, read text = .error (.fault fault o) := by
  intro h
  have hbroken : read manyDigits = .error .numeralTooLong :=
    read_eq_tooLong_iff.mpr overlong_manyDigits
  rcases h manyDigits with ⟨n, hn⟩ | ⟨fault, o, hfault⟩
  · rw [hbroken] at hn
    cases hn
  · rw [hbroken] at hfault
    cases hfault

/-- A validation of many digits, with another document closed between its steps. -/
def validating : List Action := [.proceed 1, .close "file:///b"]

theorem wanted_validating :
    Wanted (opening ++ .ask ⟨"file:///a", String.ofList manyDigits, .validation 1⟩ :: validating)
      validating "file:///a" 1 := by
  constructor
  · simp [validating]
  · rintro v ⟨before, text, after, hsplit, -⟩
    have hmem : Action.ask ⟨"file:///a", text, .validation v⟩ ∈
        opening ++ .ask ⟨"file:///a", String.ofList manyDigits, .validation 1⟩ :: validating := by
      rw [hsplit]
      simp
    have hv : v = 1 := by
      simp only [opening, validating, List.mem_append, List.mem_cons, reduceCtorEq, false_or,
        List.not_mem_nil, or_false, Action.ask.injEq, Request.mk.injEq, Task.validation.injEq]
        at hmem
      exact hmem.2.2
    exact Int.le_of_eq hv

theorem schemaless_a : Schemaless "file:///a" := ⟨"a", by decide +kernel, by decide +kernel⟩

theorem published_iff_not_overlong_digits :
    Schemaless "file:///a" ∧ (bareService.run opening).service.isReady = true ∧
      Wanted (opening ++ .ask ⟨"file:///a", String.ofList manyDigits, .validation 1⟩ :: validating)
        validating "file:///a" 1 ∧
      ((bareService.run (opening ++ .ask ⟨"file:///a", String.ofList manyDigits, .validation 1⟩ ::
        validating)).act (.proceed 1)).answer? 1 = some (.diagnostics none) := by
  have ready : (bareService.run opening).service.isReady = true := by decide +kernel
  obtain ⟨answer, hanswer, hnone⟩ := (published_iff_not_overlong
    { root := .folder .full [], workingFolder := .ofString "/" } (.ofString "/bundled")
    .standard).2 opening "file:///a" (String.ofList manyDigits) 1 [] [.close "file:///b"] 1
    schemaless_a rfl ready (by simp) (by simp) wanted_validating
  rw [String.toList_ofList] at hnone
  exact ⟨schemaless_a, ready, wanted_validating, hnone.mpr overlong_manyDigits ▸ hanswer⟩

end Workshop
end ModAtlas.Service
