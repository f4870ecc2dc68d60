import ModAtlas.Proofs.Document.Exact

/-!
# Beginnings of documents

Reading goes on as long as the text is the beginning of some document: what stands before a fault
can be continued to a text that is read. Each reader stops in the beginning of what it reads, and
what was read before it makes the beginning longer.

## Implementation notes

A reader that succeeds has passed over a text of its kind, except that at the end of the text a
line comment may lack its line feed; then it has passed over the beginning of such a text.
-/

namespace ModAtlas.Document
open ModAtlas.Json ModAtlas.Text

/-! ## Texts that can be continued -/

/-- A text can be continued to one of a kind. -/
def BeginningOf (kind : List Char → Prop) (s : List Char) : Prop := ∃ more, kind (s ++ more)

/-- A text of one kind and behind it a text of another one. -/
def Then (first second : List Char → Prop) (u : List Char) : Prop :=
  ∃ a b, first a ∧ second b ∧ u = a ++ b

/-- The text of one character. -/
def One (char : Char) (u : List Char) : Prop := u = [char]

/-- From an offset on the text up to another one can be continued to a text of a kind. -/
def Viable (kind : List Char → Prop) (o : Nat) (t : List Char) (k : Nat) : Prop :=
  ∃ s, s <+: t ∧ k = o + s.length ∧ BeginningOf kind s

/-- A reader stops with a fault only in the beginning of a text of a kind. -/
def StopsIn {α : Type} (reader : Reader α) (kind : List Char → Prop) : Prop :=
  ∀ {o : Nat} {t : List Char} {fault : Fault} {k : Nat},
    reader ⟨o, t⟩ = .error (.fault fault k) → Viable kind o t k

/-- A stretch of the text was passed over: a text of a kind, or at the end of the text the
beginning of one. -/
structure Passed (kind : List Char → Prop) (o : Nat) (t : List Char) (o' : Nat) (r : List Char)
    (s : List Char) : Prop where
  text : t = s ++ r
  offset : o' = o + s.length
  beginning : BeginningOf kind s
  whole : r ≠ [] → kind s

section Viable
variable {kind first second : List Char → Prop} {o o' k : Nat} {t r s : List Char}

theorem BeginningOf.self (h : kind s) : BeginningOf kind s := ⟨[], by rwa [List.append_nil]⟩

theorem Viable.le (h : Viable kind o t k) : o ≤ k ∧ k ≤ o + t.length := by
  obtain ⟨s, hs, rfl, -⟩ := h
  have := hs.length_le
  omega

/-- Where nothing was passed over, anything may follow. -/
theorem Viable.here (inhabited : ∃ u, kind u) : Viable kind o t o :=
  ⟨[], List.nil_prefix, rfl, inhabited⟩

theorem Viable.imp (h : Viable first o t k) (himp : ∀ u, first u → BeginningOf second u) :
    Viable second o t k := by
  obtain ⟨s, hs, hk, more, hfirst⟩ := h
  obtain ⟨more', hsecond⟩ := himp _ hfirst
  exact ⟨s, hs, hk, more ++ more', by rwa [← List.append_assoc]⟩

/-- What comes first may be continued by anything that comes second. -/
theorem Viable.before (h : Viable first o t k) (inhabited : ∃ u, second u) :
    Viable (Then first second) o t k := by
  obtain ⟨v, hv⟩ := inhabited
  exact h.imp fun u hu => ⟨v, u, v, hu, hv, rfl⟩

/-- What was passed over makes a beginning longer. -/
theorem Passed.viable (h : Passed first o t o' r s) (inhabited : ∃ u, second u)
    (hsecond : Viable second o' r k) : Viable (Then first second) o t k := by
  obtain ⟨u, hu, rfl, more, hmore⟩ := hsecond
  refine ⟨s ++ u, ?_, ?_, ?_⟩
  · rw [h.text]
    exact (List.prefix_append_right_inj s).mpr hu
  · rw [h.offset, List.length_append, Nat.add_assoc]
  by_cases hr : r = []
  · -- at the end of the text what was passed over may itself be a mere beginning
    subst hr
    obtain rfl := List.prefix_nil.mp hu
    obtain ⟨more', hfirst⟩ := h.beginning
    obtain ⟨v, hv⟩ := inhabited
    exact ⟨more' ++ v, s ++ more', v, hfirst, hv, by simp⟩
  · exact ⟨more, s, u ++ more, h.whole hr, hmore, by simp⟩

end Viable

/-! ## Faults of a reader in several steps -/

theorem bind_eq_error {ε α β : Type} {x : Except ε α} {f : α → Except ε β} {e : ε} :
    x >>= f = .error e ↔ x = .error e ∨ ∃ a, x = .ok a ∧ f a = .error e := by
  cases x with
  | error e' => simp [bind, Except.bind]
  | ok a => simp [bind, Except.bind]

section Steps
variable {β : Type} {kind : List Char → Prop} {o k : Nat} {t : List Char} {fault e : Fault}

theorem eq_of_stop {i : Nat} (h : stop (α := β) e i = .error (.fault fault k)) : k = i := by
  cases h
  rfl

/-- Skipping stops in a gap. -/
theorem viable_of_skip (h : Cursor.skip ⟨o, t⟩ = .error (.fault fault k)) : Viable Gap o t k := by
  rcases skipped_or_unclosed h with ⟨c, s, hc, -⟩ | ⟨s, hs⟩
  · cases hc
  · obtain rfl := eq_of_stop hs.fault.symm
    obtain ⟨body, rfl, -⟩ := hs.comment
    exact ⟨s, ⟨_, rfl⟩, rfl, .self hs.gap⟩

theorem viable_skip {f : Cursor → Except Failure β}
    (h : Cursor.skip ⟨o, t⟩ >>= f = .error (.fault fault k)) (inhabited : ∃ u, kind u)
    (hf : ∀ {o' r}, f ⟨o', r⟩ = .error (.fault fault k) → Viable kind o' r k) :
    Viable (Then Gap kind) o t k := by
  rcases bind_eq_error.mp h with hskip | ⟨⟨o', r⟩, hskip, hrest⟩
  · exact (viable_of_skip hskip).before inhabited
  · obtain ⟨s, hs⟩ := exists_skipped hskip
    have hpassed : Passed Gap o t o' r s := by
      refine ⟨hs.text, hs.offset, ?_, hs.inner⟩
      cases hs.last with
      | gap inner => exact .self inner
      | line inner oneLine =>
          -- a line feed ends the comment
          refine ⟨['\n'], ?_⟩
          rw [List.append_assoc]
          exact inner.append (.line oneLine .nil)
    exact hpassed.viable inhabited (hf hrest)

theorem eq_of_expect {char : Char} (h : Cursor.expect ⟨o, t⟩ char e = .error (.fault fault k)) :
    k = o := by
  unfold Cursor.expect at h
  split at h
  · split at h
    · cases h
    · exact eq_of_stop h
  · exact eq_of_stop h

/-- A string that is at fault is so from its opening quote on. -/
theorem eq_of_string (h : string ⟨o + 1, t⟩ = .error (.fault fault k)) : k = o := by
  rw [string_eq] at h
  split at h
  · exact eq_of_stop h
  · split at h
    · exact eq_of_stop h
    · cases h

theorem viable_one {char : Char} (inhabited : ∃ u, kind u) (h : Viable kind (o + 1) t k) :
    Viable (Then (One char) kind) o (char :: t) k := by
  have hpassed : Passed (One char) o (char :: t) (o + 1) t [char] :=
    ⟨rfl, rfl, .self rfl, fun _ => rfl⟩
  exact hpassed.viable inhabited h

theorem viable_expect {char : Char} {f : Cursor → Except Failure β}
    (h : Cursor.expect ⟨o, t⟩ char e >>= f = .error (.fault fault k)) (inhabited : ∃ u, kind u)
    (hf : ∀ {o' r}, f ⟨o', r⟩ = .error (.fault fault k) → Viable kind o' r k) :
    Viable (Then (One char) kind) o t k := by
  rcases bind_eq_error.mp h with hexpect | ⟨⟨o', r⟩, hexpect, hrest⟩
  · obtain rfl := eq_of_expect hexpect
    exact Viable.before (.here ⟨_, rfl⟩) inhabited
  · obtain ⟨rfl, rfl⟩ := expect_eq_ok hexpect
    exact viable_one inhabited (hf hrest)

/-- The texts of keys. -/
def KeyText (u : List Char) : Prop := ∃ name, Token u (.string name)

theorem exists_keyText : ∃ u, KeyText u := ⟨_, "", .string .nil⟩

theorem viable_key {f : Node × Cursor → Except Failure β}
    (h : (Cursor.expect ⟨o, t⟩ '"' e >>= fun c => string c >>= f) = .error (.fault fault k))
    (inhabited : ∃ u, kind u)
    (hf : ∀ {n o' r}, f (n, ⟨o', r⟩) = .error (.fault fault k) → Viable kind o' r k) :
    Viable (Then KeyText kind) o t k := by
  rcases bind_eq_error.mp h with hexpect | ⟨⟨o₁, t₁⟩, hexpect, hrest⟩
  · obtain rfl := eq_of_expect hexpect
    exact Viable.before (.here exists_keyText) inhabited
  · obtain ⟨rfl, rfl⟩ := expect_eq_ok hexpect
    rcases bind_eq_error.mp hrest with hstring | ⟨⟨n, ⟨o', r⟩⟩, hstring, hrest⟩
    · obtain rfl := eq_of_string hstring
      exact Viable.before (.here exists_keyText) inhabited
    · obtain ⟨body, s, quoted, rfl, rfl, rfl⟩ := quoted_of_string hstring
      have hkey : KeyText ('"' :: (body ++ ['"'])) := ⟨s, .string quoted⟩
      have hpassed : Passed KeyText o ('"' :: (body ++ '"' :: r)) (o + (body.length + 2)) r
          ('"' :: (body ++ ['"'])) :=
        ⟨by simp, by simp, .self hkey, fun _ => hkey⟩
      exact hpassed.viable inhabited (hf hrest)

end Steps

/-! ## Faults of values and of containers -/

/-- The texts of values, or of properties, within a budget of containers. -/
def FormText (properties : Bool) (budget : Nat) (u : List Char) : Prop :=
  ∃ f : Form, f.Valid Gap Token ∧ f.isProperty = properties ∧ f.depth ≤ budget ∧ u = f.text

/-- The texts between the brackets of a container that is not empty. -/
def PartsText (properties : Bool) (budget : Nat) (u : List Char) : Prop :=
  ∃ parts : Parts, parts.Valid Gap Token properties ∧ parts.depth ≤ budget ∧ u = parts.text

section Values
variable {properties : Bool} {budget o k : Nat} {t : List Char} {fault : Fault}

theorem exists_formText : ∃ u, FormText properties budget u := by
  have hnull : Token ['n', 'u', 'l', 'l'] .null := .word (by decide)
  cases properties with
  | false => exact ⟨_, .scalar _ .null, hnull, rfl, Nat.zero_le _, rfl⟩
  | true =>
      exact ⟨_, .property _ "" [] [] (.scalar _ .null), ⟨.string .nil, .nil, .nil, rfl, hnull⟩,
        rfl, Nat.zero_le _, rfl⟩

theorem exists_gapText : ∃ u, Gap u := ⟨[], .nil⟩

theorem exists_one (char : Char) : ∃ u, One char u := ⟨_, rfl⟩

theorem exists_then {first second : List Char → Prop} (h : ∃ u, first u) (h' : ∃ u, second u) :
    ∃ u, Then first second u := by
  obtain ⟨a, ha⟩ := h
  obtain ⟨b, hb⟩ := h'
  exact ⟨a ++ b, a, b, ha, hb, rfl⟩

theorem item_stopsIn {value : Reader Node} (hvalue : StopsIn value (FormText false budget)) :
    StopsIn (item value) (Then Gap (FormText false budget)) := by
  intro o t fault k h
  exact viable_skip h exists_formText hvalue

theorem property_stopsIn {value : Reader Node} (hvalue : StopsIn value (FormText false budget)) :
    StopsIn (property value) (Then Gap (FormText true budget)) := by
  intro o t fault k h
  have hvalueText : ∃ u, FormText false budget u := exists_formText
  have hright := exists_then exists_gapText hvalueText
  have hcolon := exists_then (exists_one ':') hright
  have hleft := exists_then exists_gapText hcolon
  have hkey := exists_then exists_keyText hleft
  have hviable : Viable (Then Gap (Then KeyText (Then Gap (Then (One ':')
      (Then Gap (FormText false budget)))))) o t k := by
    apply viable_skip h hkey
    intro o t h
    apply viable_key h hleft
    intro key o t h
    apply viable_skip h hcolon
    intro o t h
    apply viable_expect h hright
    intro o t h
    apply viable_skip h hvalueText
    intro o t h
    rcases bind_eq_error.mp h with hv | ⟨⟨v, c⟩, -, hdone⟩
    · exact hvalue hv
    · cases hdone
  apply hviable.imp
  rintro _ ⟨before, _, hbefore, ⟨key, _, ⟨name, hname⟩, ⟨left, _, hleft, ⟨_, _, rfl,
    ⟨right, _, hright, ⟨v, hvalid, hkind, hdepth, rfl⟩, rfl⟩, rfl⟩, rfl⟩, rfl⟩, rfl⟩
  exact .self ⟨before, _, hbefore, ⟨.property key name left right v,
    ⟨hname, hleft, hright, hkind, hvalid⟩, rfl, hdepth, rfl⟩, rfl⟩

/-- The texts of what may follow a part of a container: its end, or a comma and more parts. -/
def MoreText (properties : Bool) (budget : Nat) (u : List Char) : Prop :=
  u = [] ∨ Then (One ',') (PartsText properties budget) u

theorem PartsText.of_more {u : List Char}
    (h : Then (Then Gap (FormText properties budget)) (Then Gap (MoreText properties budget)) u) :
    PartsText properties budget u := by
  obtain ⟨_, _, ⟨before, _, hbefore, ⟨f, hvalid, hkind, hdepth, rfl⟩, rfl⟩,
    ⟨after, v, hafter, hmore, rfl⟩, rfl⟩ := h
  rcases hmore with rfl | ⟨_, _, rfl, ⟨parts, hparts, hle, rfl⟩, rfl⟩
  · exact ⟨.last before f after, ⟨hbefore, hvalid, hafter, hkind⟩, hdepth, by simp [Parts.text]⟩
  · exact ⟨.next before f after parts, ⟨⟨hbefore, hvalid, hafter, hkind⟩, hparts⟩,
      Nat.max_le.mpr ⟨hdepth, hle⟩, by simp [Parts.text]⟩

theorem PartsText.of_part {u : List Char} (h : Then Gap (FormText properties budget) u) :
    PartsText properties budget u :=
  .of_more ⟨u, [], h, ⟨[], [], .nil, .inl rfl, rfl⟩, (List.append_nil u).symm⟩

theorem exists_moreText : ∃ u, MoreText properties budget u := ⟨[], .inl rfl⟩

theorem exists_partsText : ∃ u, PartsText properties budget u := by
  obtain ⟨u, hu⟩ := exists_then exists_gapText exists_formText
  exact ⟨u, .of_part hu⟩

section Loops
variable {part : Reader Node} {close : Char} {missing unfinished : Fault}
  (hstops : StopsIn part (Then Gap (FormText properties budget)))
  (hgives : GivesParts part properties budget)
include hstops hgives

/-- A loop over parts stops inside a part, behind one, or inside later ones. -/
theorem series_stopsIn (fuel : Nat)
    (h : series part close missing unfinished fuel ⟨o, t⟩ = .error (.fault fault k)) :
    Viable (PartsText properties budget) o t k := by
  induction fuel generalizing o t with
  | zero =>
      obtain rfl := eq_of_stop h
      exact .here exists_partsText
  | succ fuel ih =>
      have hafter : ∃ u, Then Gap (MoreText properties budget) u :=
        exists_then exists_gapText exists_moreText
      suffices hviable : Viable (Then (Then Gap (FormText properties budget))
          (Then Gap (MoreText properties budget))) o t k from
        hviable.imp fun u hu => .self (.of_more hu)
      rcases bind_eq_error.mp h with hpart | ⟨⟨n, ⟨o₁, r⟩⟩, hpart, hrest⟩
      · exact (hstops hpart).before hafter
      obtain ⟨before, u, f, hbefore, rfl, hkind, hdepth, hread⟩ := hgives hpart
      have hwhole : Then Gap (FormText properties budget) (before ++ f.text) :=
        ⟨before, f.text, hbefore, ⟨f, hread.valid, hkind, hdepth, rfl⟩, rfl⟩
      have hpassed : Passed (Then Gap (FormText properties budget)) o (before ++ u) o₁ r
          (before ++ f.text) := by
        refine ⟨by rw [hread.text, List.append_assoc], ?_, .self hwhole, fun _ => hwhole⟩
        rw [hread.offset, List.length_append, Nat.add_assoc]
      apply hpassed.viable hafter
      apply viable_skip hrest exists_moreText
      intro o₂ r₂ h₂
      rcases r₂ with _ | ⟨d, r₂⟩
      · obtain rfl := eq_of_stop h₂
        exact .here exists_moreText
      by_cases hcomma : d = ','
      · subst hcomma
        rcases bind_eq_error.mp h₂ with hmore | ⟨⟨more, c⟩, -, hdone⟩
        · exact (viable_one exists_partsText (ih hmore)).imp fun v hv => .self (.inr hv)
        · cases hdone
      · obtain rfl : k = o₂ := by
          simp only [if_neg hcomma] at h₂
          split at h₂
          · cases h₂
          · exact eq_of_stop h₂
        exact .here exists_moreText

/-- A container that is not closed stops inside its parts. -/
theorem container_stopsIn {make : Span → List Node → Node} (hskips : SkipsFirst part)
    (h : container part close missing unfinished make ⟨o, t⟩ = .error (.fault fault k)) :
    Viable (PartsText properties budget) o t k := by
  rcases bind_eq_error.mp h with hskip | ⟨c, hskip, hrest⟩
  · apply ((viable_of_skip hskip).before exists_formText).imp
    intro u hu
    exact .self (.of_part hu)
  · split at hrest
    · cases hrest
    · rcases bind_eq_error.mp hrest with hseries | ⟨⟨found, c'⟩, -, hdone⟩
      · rw [series_skip hskips hskip] at hseries
        exact series_stopsIn hstops hgives _ hseries
      · cases hdone

end Loops

theorem numberOf_ne_fault {n : Numeral} : numberOf n ≠ .error (.fault fault k) := by
  intro h
  unfold numberOf at h
  split at h
  · cases h
  · split at h
    · cases h
    · split at h <;> cases h

theorem plainScalar_stopsIn : StopsIn plainScalar (FormText false budget) := by
  intro o t fault k h
  obtain rfl : k = o := by
    rw [plainScalar_eq] at h
    split at h
    · cases h
    · split at h
      · exact eq_of_stop h
      · split at h
        · rename_i e hnumber
          cases h
          exact absurd hnumber numberOf_ne_fault
        · cases h
  exact .here exists_formText

/-- A value is read up to a fault inside its own text. -/
theorem value_stopsIn (budget : Nat) : StopsIn (value budget) (FormText false budget) := by
  induction budget with
  | zero =>
      intro o t fault k h
      unfold value at h
      split at h
      · obtain rfl := eq_of_stop h
        exact .here exists_formText
      · obtain rfl := eq_of_stop h
        exact .here exists_formText
      · obtain rfl := eq_of_string h
        exact .here exists_formText
      · exact plainScalar_stopsIn h
  | succ budget ih =>
      intro o t fault k h
      unfold value at h
      split at h
      · rename_i rest ht
        simp only at ht h
        subst ht
        rw [array] at h
        have hparts := container_stopsIn (item_stopsIn ih)
          (item_givesParts (value_givesForms budget)) (item_skipsFirst _) h
        apply (viable_one exists_partsText hparts).imp
        rintro _ ⟨_, _, rfl, ⟨parts, hvalid, hdepth, rfl⟩, rfl⟩
        exact ⟨[']'], .array parts, hvalid, rfl, Nat.succ_le_succ hdepth, by simp [Form.text]⟩
      · rename_i rest ht
        simp only at ht h
        subst ht
        rw [object] at h
        have hparts := container_stopsIn (property_stopsIn ih)
          (property_givesParts (value_givesForms budget)) (property_skipsFirst _) h
        apply (viable_one exists_partsText hparts).imp
        rintro _ ⟨_, _, rfl, ⟨parts, hvalid, hdepth, rfl⟩, rfl⟩
        exact ⟨['}'], .object parts, hvalid, rfl, Nat.succ_le_succ hdepth, by simp [Form.text]⟩
      · obtain rfl := eq_of_string h
        exact .here exists_formText
      · exact plainScalar_stopsIn h

end Values

/-! ## Faults of documents -/

/-- Where a document is at fault, the text before is the beginning of a document. -/
theorem viable_of_read {text : List Char} {fault : Fault} {k : Nat}
    (h : read text = .error (.fault fault k)) :
    Viable (fun u => ∃ n, read u = .ok n) 0 text k := by
  have hgap : ∃ u, Gap u := exists_gapText
  rw [read_eq] at h
  have hviable : Viable (Then Gap (Then (FormText false nestingLimit) Gap)) 0 text k := by
    apply viable_skip h (exists_then exists_formText hgap)
    intro o t h
    rcases bind_eq_error.mp h with hvalue | ⟨⟨n, ⟨o₁, r⟩⟩, hvalue, hrest⟩
    · exact (value_stopsIn nestingLimit hvalue).before hgap
    obtain ⟨f, hkind, hdepth, hread⟩ := value_givesForms nestingLimit hvalue
    have hform : FormText false nestingLimit f.text := ⟨f, hread.valid, hkind, hdepth, rfl⟩
    have hpassed : Passed (FormText false nestingLimit) o t o₁ r f.text :=
      ⟨hread.text, hread.offset, .self hform, fun _ => hform⟩
    apply hpassed.viable hgap
    have htail : Viable (Then Gap Gap) o₁ r k := by
      apply viable_skip hrest hgap
      intro o₂ r₂ h₂
      split at h₂
      · cases h₂
      · obtain rfl := eq_of_stop h₂
        exact .here hgap
    apply htail.imp
    rintro _ ⟨a, b, ha, hb, rfl⟩
    exact .self (ha.append hb)
  apply hviable.imp
  rintro _ ⟨lead, _, hlead, ⟨_, tail, ⟨f, hvalid, hkind, hdepth, rfl⟩, htail, rfl⟩, rfl⟩
  exact .self ⟨_, read_eq_ok_iff.mpr
    ⟨lead, f, tail, ⟨rfl, hlead, hvalid, hkind, .gap htail⟩, hdepth, rfl⟩⟩

/-- A fault stands in the text or at its end, and the text before it can be continued to a
document. -/
theorem read_fault_viable {text : List Char} {fault : Fault} {k : Nat}
    (h : read text = .error (.fault fault k)) :
    k ≤ text.length ∧ ∃ more n, read (text.take k ++ more) = .ok n := by
  have hviable := viable_of_read h
  constructor
  · simpa using hviable.le.2
  · obtain ⟨s, ⟨r, rfl⟩, rfl, more, n, hn⟩ := hviable
    exact ⟨more, n, by simpa using hn⟩

/-- A text that ends in a comment, where an item of an array is due. -/
def commentedItem : List Char := "\x7b\"a\": [1, // b".toList

theorem read_fault_viable_comment :
    read commentedItem = .error (.fault .valueExpected 14) ∧ 14 ≤ commentedItem.length ∧
      ∃ more n, read (commentedItem.take 14 ++ more) = .ok n := by
  have h : read commentedItem = .error (.fault .valueExpected 14) := rfl
  exact ⟨h, read_fault_viable h⟩

end ModAtlas.Document
