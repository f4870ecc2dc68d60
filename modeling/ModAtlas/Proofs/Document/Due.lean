import ModAtlas.Proofs.Document.Beginning
import ModAtlas.Proofs.Json.Magnitude

/-!
# Integers that are too long

Reading gives a tree, a fault, or it breaks off at an integer of more digits than may be read. It
breaks off exactly where such an integer stands and a value is due: where the text before it is
read and the next thing to come is a value.

## Implementation notes

`Due` describes the text before a value from the outside in. A container that is still open adds
its bracket, the parts that are complete, and what stands before the value of the next part.
-/

namespace ModAtlas.Document
open ModAtlas.Json ModAtlas.Text

/-- A text begins with an integer of more digits than may be read. -/
def BeginsTooLong (u : List Char) : Prop :=
  ∃ n r, Numeral.scan? isDecimalDigit u = some (n, r) ∧ n.isInteger = true ∧
    Number.digitLimit < n.whole.length

/-- The complete parts at the start of a container, each with the comma behind it. -/
inductive Front (properties : Bool) (budget : Nat) : List Char → Prop
  | nil : Front properties budget []
  | part {front before after : List Char} {f : Form} (earlier : Front properties budget front)
      (gap : Gap before) (valid : f.Valid Gap Token) (kind : f.isProperty = properties)
      (depth : f.depth ≤ budget) (behind : Gap after) :
      Front properties budget (front ++ (before ++ (f.text ++ (after ++ [',']))))

/-- What stands before the value of a part: a gap, and before the value of a property its key and
a colon as well. -/
inductive Lead : Bool → List Char → Prop
  | item {gap : List Char} (inner : Gap gap) : Lead false gap
  | property {before key left right : List Char} (gap : Gap before) (isKey : KeyText key)
      (behind : Gap left) (inner : Gap right) :
      Lead true (before ++ (key ++ (left ++ ':' :: right)))

/-- The bracket that opens a container of properties or of items. -/
def bracket (properties : Bool) : Char := if properties then '{' else '['

/-- A value is due behind a text, and so many more containers may be opened there. -/
inductive Due : Nat → List Char → Prop
  | document {lead : List Char} (gap : Gap lead) : Due nestingLimit lead
  | inside {properties : Bool} {budget : Nat} {s front lead : List Char}
      (outer : Due (budget + 1) s) (parts : Front properties budget front)
      (next : Lead properties lead) :
      Due budget (s ++ bracket properties :: (front ++ lead))

/-- An integer that is too long stands where a value is due. -/
def Overlong (text : List Char) : Prop :=
  ∃ budget s u, text = s ++ u ∧ Due budget s ∧ BeginsTooLong u

/-! ## Integers that are too long are refused -/

theorem BeginsTooLong.begins {u : List Char} (h : BeginsTooLong u) :
    ∃ c v, u = c :: v ∧ Begins c ∧ c ∉ ['[', '{', '"', 't', 'f', 'n'] := by
  obtain ⟨n, r, hscan, -, -⟩ := h
  obtain ⟨written, rfl⟩ := Numeral.scan?_eq_some hscan
  obtain ⟨c, v, hcv, hc⟩ := head_spelling written
  exact ⟨c, v ++ r, by rw [hcv]; rfl, begins_numeral hc⟩

theorem value_tooLong {u : List Char} (h : BeginsTooLong u) (budget o : Nat) :
    value budget ⟨o, u⟩ = .error .numeralTooLong := by
  obtain ⟨c, v, rfl, -, hc⟩ := h.begins
  obtain ⟨n, r, hscan, integer, long⟩ := h
  have hrefused : numberOf n = .error .numeralTooLong :=
    (Numeral.numberOf_eq_error_iff (Numeral.scan?_eq_some hscan).1).mpr ⟨rfl, integer, long⟩
  have hword : word? (c :: v) = none := by
    unfold word?
    split <;> simp_all
  rw [value_other (by simp_all) (by simp_all) (by simp_all)]
  simp [plainScalar_eq, hword, hscan, hrefused]

theorem beginsTooLong_of_plainScalar {o : Nat} {u : List Char}
    (h : plainScalar ⟨o, u⟩ = .error .numeralTooLong) : BeginsTooLong u := by
  rw [plainScalar_eq] at h
  split at h
  · cases h
  · split at h
    · cases h
    · rename_i n r hscan
      split at h
      · rename_i e hnumber
        obtain ⟨-, integer, long⟩ :=
          (Numeral.numberOf_eq_error_iff (Numeral.scan?_eq_some hscan).1).mp hnumber
        exact ⟨n, r, hscan, integer, long⟩
      · cases h

/-! ## Where reading breaks off -/

section Breaking
variable {α : Type} {o budget : Nat} {s t : List Char}

/-- Behind a text another one holds an integer that is too long, where a value is due. -/
def OverlongBehind (s t : List Char) : Prop :=
  ∃ budget s' u, t = s' ++ u ∧ Due budget (s ++ s') ∧ BeginsTooLong u

theorem OverlongBehind.after {g : List Char} (h : OverlongBehind (s ++ g) t) :
    OverlongBehind s (g ++ t) := by
  obtain ⟨b, s', u, rfl, hdue, hu⟩ := h
  exact ⟨b, g ++ s', u, by simp, by simpa using hdue, hu⟩

theorem skip_ne_tooLong {c : Cursor} : c.skip ≠ .error .numeralTooLong := by
  intro h
  rcases skipped_or_unclosed h with ⟨c', s, hc, -⟩ | ⟨s, hs⟩
  · cases hc
  · cases hs.fault

/-- A reader that begins with a gap breaks off behind it. -/
theorem eq_of_skip_tooLong {f : Cursor → Except Failure α}
    (h : Cursor.skip ⟨o, t⟩ >>= f = .error .numeralTooLong)
    (hf : ∀ i, f ⟨i, []⟩ ≠ .error .numeralTooLong) :
    ∃ gap r, Gap gap ∧ t = gap ++ r ∧ f ⟨o + gap.length, r⟩ = .error .numeralTooLong := by
  rcases bind_eq_error.mp h with hskip | ⟨⟨o', r⟩, hskip, hrest⟩
  · exact absurd hskip skip_ne_tooLong
  · have hne : r ≠ [] := by
      rintro rfl
      exact hf o' hrest
    obtain ⟨gap, hgap, rfl, rfl⟩ := exists_gap hskip hne
    exact ⟨gap, r, hgap, rfl, hrest⟩

theorem expect_ne_tooLong {c : Cursor} {char : Char} {fault : Fault} :
    c.expect char fault ≠ .error .numeralTooLong := by
  unfold Cursor.expect
  intro h
  split at h
  · split at h <;> cases h
  · cases h

/-- A character that must stand here stands before the place where reading breaks off. -/
theorem eq_of_expect_tooLong {char : Char} {fault : Fault} {f : Cursor → Except Failure α}
    (h : Cursor.expect ⟨o, t⟩ char fault >>= f = .error .numeralTooLong) :
    ∃ r, t = char :: r ∧ f ⟨o + 1, r⟩ = .error .numeralTooLong := by
  rcases bind_eq_error.mp h with hexpect | ⟨⟨o', r⟩, hexpect, hrest⟩
  · exact absurd hexpect expect_ne_tooLong
  · obtain ⟨rfl, rfl⟩ := expect_eq_ok hexpect
    exact ⟨r, rfl, hrest⟩

theorem string_ne_tooLong {c : Cursor} : string c ≠ .error .numeralTooLong := by
  rw [string_eq]
  intro h
  split at h
  · cases h
  · split at h <;> cases h

/-- A reader breaks off only where a value is due behind the text before it. -/
def BreaksOff (reader : Reader α) (behind : List Char → Prop) : Prop :=
  ∀ {o : Nat} {s t : List Char}, behind s → reader ⟨o, t⟩ = .error .numeralTooLong →
    OverlongBehind s t

/-- The text before a part of an open container: its bracket and the parts that are complete. -/
def PartDue (properties : Bool) (budget : Nat) (s : List Char) : Prop :=
  ∃ outer front, Due (budget + 1) outer ∧ Front properties budget front ∧
    s = outer ++ bracket properties :: front

theorem PartDue.lead {properties : Bool} {lead : List Char} (h : PartDue properties budget s)
    (next : Lead properties lead) : Due budget (s ++ lead) := by
  obtain ⟨outer, front, houter, hfront, rfl⟩ := h
  simpa using Due.inside houter hfront next

theorem PartDue.part {properties : Bool} {before after : List Char} {f : Form}
    (h : PartDue properties budget s) (gap : Gap before) (valid : f.Valid Gap Token)
    (kind : f.isProperty = properties) (depth : f.depth ≤ budget) (behind : Gap after) :
    PartDue properties budget (s ++ (before ++ (f.text ++ (after ++ [','])))) := by
  obtain ⟨outer, front, houter, hfront, rfl⟩ := h
  exact ⟨outer, _, houter, .part hfront gap valid kind depth behind, by simp⟩

theorem item_breaksOff {value : Reader Node} (hvalue : BreaksOff value (Due budget))
    (hempty : ∀ i, value ⟨i, []⟩ ≠ .error .numeralTooLong) :
    BreaksOff (item value) (PartDue false budget) := by
  intro o s t hs h
  obtain ⟨gap, r, hgap, rfl, hr⟩ := eq_of_skip_tooLong h hempty
  exact (hvalue (hs.lead (.item hgap)) hr).after

theorem property_breaksOff {value : Reader Node} (hvalue : BreaksOff value (Due budget))
    (hempty : ∀ i, value ⟨i, []⟩ ≠ .error .numeralTooLong) :
    BreaksOff (property value) (PartDue true budget) := by
  intro o s t hs h
  rw [property] at h
  obtain ⟨before, t₁, hbefore, rfl, h₁⟩ := eq_of_skip_tooLong h (by rintro i ⟨⟩)
  obtain ⟨t₂, rfl, h₂⟩ := eq_of_expect_tooLong h₁
  rcases bind_eq_error.mp h₂ with hstring | ⟨⟨key, ⟨o₃, t₃⟩⟩, hstring, h₃⟩
  · exact absurd hstring string_ne_tooLong
  obtain ⟨body, name, quoted, rfl, rfl, rfl⟩ := quoted_of_string hstring
  obtain ⟨left, t₄, hleft, rfl, h₄⟩ := eq_of_skip_tooLong h₃ (by rintro i ⟨⟩)
  obtain ⟨t₅, rfl, h₅⟩ := eq_of_expect_tooLong h₄
  obtain ⟨right, t₆, hright, rfl, h₆⟩ := eq_of_skip_tooLong h₅ (by
    intro i hi
    rcases bind_eq_error.mp hi with hi | ⟨⟨v, c⟩, -, hdone⟩
    · exact hempty i hi
    · cases hdone)
  have hkey : KeyText ('"' :: (body ++ ['"'])) := ⟨name, .string quoted⟩
  rcases bind_eq_error.mp h₆ with hv | ⟨⟨v, c⟩, -, hdone⟩
  · simpa using (hvalue (hs.lead (.property hbefore hkey hleft hright)) hv).after
  · cases hdone

section Loops
variable {part : Reader Node} {properties : Bool} {close : Char} {missing unfinished : Fault}
  (hbreaks : BreaksOff part (PartDue properties budget))
  (hgives : GivesParts part properties budget)
include hbreaks hgives

/-- A loop over parts breaks off in one of them; the parts before it are complete. -/
theorem series_breaksOff (fuel : Nat) :
    BreaksOff (series part close missing unfinished fuel) (PartDue properties budget) := by
  intro o s t hs h
  induction fuel generalizing o s t with
  | zero => cases h
  | succ fuel ih =>
      rw [series] at h
      rcases bind_eq_error.mp h with hpart | ⟨⟨n, ⟨o₁, r⟩⟩, hpart, hrest⟩
      · exact hbreaks hs hpart
      obtain ⟨before, u, f, hbefore, rfl, hkind, hdepth, hread⟩ := hgives hpart
      obtain rfl := hread.text
      obtain ⟨after, r₁, hafter, rfl, h₁⟩ := eq_of_skip_tooLong hrest (by rintro i ⟨⟩)
      rcases r₁ with _ | ⟨d, r₁⟩
      · cases h₁
      by_cases hcomma : d = ','
      · subst hcomma
        rcases bind_eq_error.mp h₁ with hmore | ⟨⟨more, c⟩, -, hdone⟩
        · simpa using (ih (hs.part hbefore hread.valid hkind hdepth hafter) hmore).after
        · cases hdone
      · simp only [if_neg hcomma] at h₁
        split at h₁ <;> cases h₁

theorem container_breaksOff {make : Span → List Node → Node} (hskips : SkipsFirst part)
    (hs : Due (budget + 1) s)
    (h : container part close missing unfinished make ⟨o, t⟩ = .error .numeralTooLong) :
    OverlongBehind s (bracket properties :: t) := by
  rcases bind_eq_error.mp h with hskip | ⟨c, hskip, hrest⟩
  · exact absurd hskip skip_ne_tooLong
  split at hrest
  · cases hrest
  rcases bind_eq_error.mp hrest with hseries | ⟨⟨found, c'⟩, -, hdone⟩
  · rw [series_skip hskips hskip] at hseries
    have hopened : PartDue properties budget (s ++ [bracket properties]) :=
      ⟨s, [], hs, .nil, rfl⟩
    exact (series_breaksOff hbreaks hgives _ hopened hseries).after
  · cases hdone

end Loops

theorem value_nil_ne_tooLong (budget i : Nat) : value budget ⟨i, []⟩ ≠ .error .numeralTooLong := by
  unfold value
  rintro ⟨⟩

/-- A value that is due breaks off only at an integer that is due in it. -/
theorem value_breaksOff (budget : Nat) : BreaksOff (value budget) (Due budget) := by
  have hplain {o budget : Nat} {s t : List Char} (hs : Due budget s)
      (h : plainScalar ⟨o, t⟩ = .error .numeralTooLong) : OverlongBehind s t :=
    ⟨budget, [], t, rfl, by rwa [List.append_nil], beginsTooLong_of_plainScalar h⟩
  induction budget with
  | zero =>
      intro o s t hs h
      unfold value at h
      split at h
      · cases h
      · cases h
      · exact absurd h string_ne_tooLong
      · exact hplain hs h
  | succ budget ih =>
      intro o s t hs h
      have hempty := value_nil_ne_tooLong budget
      unfold value at h
      split at h
      · rename_i rest ht
        simp only at ht h
        subst ht
        rw [array] at h
        exact container_breaksOff (item_breaksOff ih hempty)
          (item_givesParts (value_givesForms budget)) (item_skipsFirst _) hs h
      · rename_i rest ht
        simp only at ht h
        subst ht
        rw [object] at h
        exact container_breaksOff (property_breaksOff ih hempty)
          (property_givesParts (value_givesForms budget)) (property_skipsFirst _) hs h
      · exact absurd h string_ne_tooLong
      · exact hplain hs h

end Breaking

/-! ## Reading reaches what is due -/

/-- A reader fails in a certain way at a text, wherever the text stands. -/
def Refuses (fails : Failure → Prop) (reader : Reader Node) (u : List Char) : Prop :=
  ∀ o, ∃ e, fails e ∧ reader ⟨o, u⟩ = .error e

/-- A loop over parts fails in a certain way at a text, wherever the text stands. -/
def Obstructs (fails : Failure → Prop) (part : Reader Node) (u : List Char) : Prop :=
  ∀ close missing unfinished, close = ']' ∨ close = '}' → ∀ o, ∃ e, fails e ∧
    ∀ fuel ≥ 1, series part close missing unfinished fuel ⟨o, u⟩ = .error e

/-- The reader of the parts of a container. -/
def partReader (properties : Bool) (value : Reader Node) : Reader Node :=
  if properties then property value else item value

section Reaching
variable {fails : Failure → Prop} {budget : Nat} {u lead front : List Char}

/-- Behind what stands before the value of a part, the value is read. -/
theorem partReader_eq {properties : Bool} (next : Lead properties lead) (hu : NoGap u)
    (value : Reader Node) (o : Nat) : ∃ make : Node → Node,
      partReader properties value ⟨o, lead ++ u⟩ =
        (value ⟨o + lead.length, u⟩).map fun p => (make p.1, p.2) := by
  cases next with
  | item inner =>
      refine ⟨id, ?_⟩
      simp only [partReader, Bool.false_eq_true, if_false]
      rw [item, skip_gap inner hu, ok_bind]
      cases value ⟨o + lead.length, u⟩ <;> rfl
  | @property before key left right gap isKey behind inner =>
      obtain ⟨name, hname⟩ := isKey
      obtain ⟨body, quoted, rfl⟩ := hname.quoted
      have hkeyStop (u : List Char) : NoGap ('"' :: u) := noGap_cons (by decide) (by decide)
      have hcolonStop (u : List Char) : NoGap (':' :: u) := noGap_cons (by decide) (by decide)
      have hoffset : o + (before ++ ('"' :: (body ++ ['"']) ++ (left ++ ':' :: right))).length =
          o + before.length + (body.length + 2) + left.length + 1 + right.length := by
        simp only [List.length_append, List.length_cons, List.length_nil]
        omega
      refine ⟨fun v => .property ⟨o + before.length, v.span.stop - (o + before.length)⟩
        (.scalar ⟨o + before.length, body.length + 2⟩ (.string name))
        (o + before.length + (body.length + 2) + left.length) v, ?_⟩
      rw [hoffset]
      simp only [partReader, if_true, property, List.cons_append, List.append_assoc,
        skip_gap gap (hkeyStop _), ok_bind, Cursor.expect, List.nil_append,
        string_quoted quoted, skip_gap behind (hcolonStop _), skip_gap inner hu]
      cases value ⟨o + before.length + (body.length + 2) + left.length + 1 + right.length, u⟩ <;>
        rfl

theorem partReader_refuses {properties : Bool} {value : Reader Node} (hu : NoGap u)
    (hvalue : Refuses fails value u) (next : Lead properties lead) :
    Refuses fails (partReader properties value) (lead ++ u) := by
  intro o
  obtain ⟨make, hmake⟩ := partReader_eq next hu value o
  obtain ⟨e, he, herror⟩ := hvalue (o + lead.length)
  exact ⟨e, he, by rw [hmake, herror]; rfl⟩

theorem obstructs_of_refuses {part : Reader Node} (h : Refuses fails part u) :
    Obstructs fails part u := by
  intro close missing unfinished _ o
  obtain ⟨e, he, herror⟩ := h o
  refine ⟨e, he, fun fuel hfuel => ?_⟩
  obtain ⟨fuel, rfl⟩ := Nat.exists_eq_add_of_le' hfuel
  rw [series, herror]
  rfl

/-- Behind complete parts a loop goes on with the next one. -/
theorem series_front {part : Reader Node} {properties : Bool} {close : Char}
    {missing unfinished : Fault} (hparts : ReadsParts part properties budget 0)
    (hfront : Front properties budget front) {e : Failure} {fuel o : Nat}
    (h : ∀ fuel' ≥ fuel, series part close missing unfinished fuel' ⟨o + front.length, u⟩ =
      .error e) :
    ∀ fuel' ≥ fuel + front.length,
      series part close missing unfinished fuel' ⟨o, front ++ u⟩ = .error e := by
  induction hfront generalizing fuel u with
  | nil => simpa using h
  | @part front before after f earlier gap valid kind depth behind ih =>
      -- the last of the complete parts takes one turn, and the ones before it come first
      have hone : ∀ fuel' ≥ fuel + 1, series part close missing unfinished fuel'
          ⟨o + front.length, before ++ (f.text ++ (after ++ ',' :: u))⟩ = .error e := by
        intro fuel' hfuel
        obtain ⟨fuel', rfl⟩ := Nat.exists_eq_add_of_le' (Nat.le_of_add_left_le hfuel)
        have hread := hparts before f (o + front.length) (after ++ ',' :: u) gap valid kind
          (delimited_gap behind (delimited_cons (.inl rfl) u))
        rw [orTooDeep_of_depth_le depth] at hread
        have hstop : NoGap (',' :: u) := noGap_cons (by decide) (by decide)
        have hrest := h fuel' (by omega)
        simp only [List.length_append, List.length_cons, List.length_nil, ← Nat.add_assoc]
          at hrest
        simp only [series, hread, ok_bind, skip_gap behind hstop, if_true]
        rw [hrest]
        rfl
      intro fuel' hfuel
      have htext : front ++ (before ++ (f.text ++ (after ++ [',']))) ++ u =
          front ++ (before ++ (f.text ++ (after ++ ',' :: u))) := by simp
      rw [htext]
      apply ih hone
      simp only [List.length_append, List.length_cons, List.length_nil] at hfuel
      omega

/-- A text begins with the first character of a value or of a key. -/
def Begun (u : List Char) : Prop := ∃ c v, u = c :: v ∧ Begins c

theorem Begun.noGap (h : Begun u) : NoGap u := by
  obtain ⟨c, v, rfl, hc⟩ := h
  exact hc.noGap v

theorem Lead.begun {properties : Bool} (next : Lead properties lead) (hu : Begun u) :
    ∃ gap v, Gap gap ∧ Begun v ∧ lead ++ u = gap ++ v := by
  cases next with
  | item inner => exact ⟨lead, u, inner, hu, rfl⟩
  | @property before key left right gap isKey behind inner =>
      obtain ⟨name, hname⟩ := isKey
      obtain ⟨c, v, rfl, hc⟩ := hname.head
      exact ⟨before, c :: (v ++ (left ++ ':' :: (right ++ u))), gap, ⟨c, _, rfl, hc⟩, by simp⟩

theorem Front.begun {properties : Bool} (hfront : Front properties budget front)
    (next : ∃ gap v, Gap gap ∧ Begun v ∧ u = gap ++ v) :
    ∃ gap v, Gap gap ∧ Begun v ∧ front ++ u = gap ++ v := by
  induction hfront generalizing u with
  | nil => exact next
  | @part front before after f earlier gap valid kind depth behind ih =>
      obtain ⟨c, v, hcv, hc⟩ := Form.head valid
      obtain ⟨gap', w, hgap, hw, heq⟩ := ih (u := before ++ (f.text ++ (after ++ ',' :: u)))
        ⟨before, _, gap, ⟨c, v ++ (after ++ ',' :: u), rfl, hc⟩, by rw [hcv]; rfl⟩
      exact ⟨gap', w, hgap, hw, by rw [← heq]; simp⟩

theorem container_refuses {part : Reader Node} {properties : Bool} {close : Char}
    {missing unfinished : Fault} {make : Span → List Node → Node}
    (hclose : close = ']' ∨ close = '}') (hskips : SkipsFirst part)
    (hgives : GivesParts part properties budget) (hparts : ReadsParts part properties budget 0)
    (hfront : Front properties budget front) (next : Lead properties lead) (hu : Begun u)
    (hpart : Obstructs fails part (lead ++ u)) :
    Refuses fails (container part close missing unfinished make) (front ++ (lead ++ u)) := by
  intro o
  obtain ⟨gap, v, hgap, ⟨c, w, rfl, hc⟩, htext⟩ := hfront.begun (next.begun hu)
  obtain ⟨e, he, hturn⟩ := hpart close missing unfinished hclose (o + front.length)
  have hskip : Cursor.skip ⟨o, front ++ (lead ++ u)⟩ = .ok ⟨o + gap.length, c :: w⟩ := by
    rw [htext]
    exact skip_gap hgap (hc.noGap w)
  have hnotClose : (c :: w).head? ≠ some close := by
    intro heq
    obtain rfl : c = close := by simpa using heq
    rcases hclose with rfl | rfl
    · exact hc.notBracket rfl
    · exact hc.notBrace rfl
  have hread : series part close missing unfinished (max front.length (c :: w).length + 1)
      ⟨o, front ++ (lead ++ u)⟩ = .error e :=
    series_front hparts hfront hturn _ (by omega)
  have hloop : series part close missing unfinished ((c :: w).length + 1)
      ⟨o + gap.length, c :: w⟩ = .error e := by
    have hfuel : (c :: w).length < max front.length (c :: w).length + 1 := by omega
    rw [← hread, ← series_skip hskips hskip]
    exact series_fuel hgives (Nat.lt_succ_self _) hfuel
  refine ⟨e, he, ?_⟩
  rw [container, hskip, ok_bind]
  simp only [if_neg hnotClose, hloop]
  rfl

/-- A container fails as the loop over its parts does. -/
theorem bracket_refuses {properties : Bool} (hfront : Front properties budget front)
    (next : Lead properties lead) (hu : Begun u)
    (hpart : Obstructs fails (partReader properties (value budget)) (lead ++ u)) :
    Refuses fails (value (budget + 1)) (bracket properties :: (front ++ (lead ++ u))) := by
  intro o
  have hforms := value_readsForms budget 0
  rw [Nat.zero_add] at hforms
  cases properties with
  | false =>
      simp only [bracket, Bool.false_eq_true, if_false, value, array]
      exact container_refuses (.inl rfl) (item_skipsFirst _)
        (item_givesParts (value_givesForms budget)) (item_readsParts hforms) hfront next hu hpart _
  | true =>
      simp only [bracket, if_true, value, object]
      exact container_refuses (.inr rfl) (property_skipsFirst _)
        (property_givesParts (value_givesForms budget)) (property_readsParts hforms) hfront next hu
        hpart _

theorem begun_bracket (properties : Bool) (t : List Char) : Begun (bracket properties :: t) := by
  cases properties <;> exact ⟨_, _, rfl, by decide, by decide, by decide, by decide⟩

/-- Reading fails at a text that is refused where a value is due. -/
theorem read_of_due {s : List Char} (h : Due budget s) (hu : Begun u)
    (hvalue : Refuses fails (value budget) u) : ∃ e, fails e ∧ read (s ++ u) = .error e := by
  induction h generalizing u with
  | @document lead gap =>
      obtain ⟨e, he, herror⟩ := hvalue (0 + lead.length)
      refine ⟨e, he, ?_⟩
      rw [read_eq, skip_gap gap hu.noGap, ok_bind, herror]
      rfl
  | @inside properties budget s front lead outer hfront next ih =>
      rw [List.append_assoc, List.cons_append, List.append_assoc]
      apply ih (begun_bracket properties _)
      exact bracket_refuses hfront next hu
        (obstructs_of_refuses (partReader_refuses hu.noGap hvalue next))

end Reaching

/-- Reading breaks off exactly where an integer that is too long stands and a value is due. -/
theorem read_eq_tooLong_iff {text : List Char} :
    read text = .error .numeralTooLong ↔ Overlong text := by
  constructor
  · intro h
    rw [read_eq] at h
    obtain ⟨lead, r, hlead, rfl, hrest⟩ := eq_of_skip_tooLong h (by rintro i ⟨⟩)
    rcases bind_eq_error.mp hrest with hvalue | ⟨⟨n, c⟩, -, htail⟩
    · exact (value_breaksOff nestingLimit (.document hlead) hvalue).after (s := [])
    · rcases bind_eq_error.mp htail with hskip | ⟨c', -, hdone⟩
      · exact absurd hskip skip_ne_tooLong
      · split at hdone <;> cases hdone
  · rintro ⟨budget, s, u, rfl, hdue, hu⟩
    obtain ⟨c, v, rfl, hc, -⟩ := hu.begins
    have hrefuses : Refuses (· = .numeralTooLong) (value budget) (c :: v) :=
      fun o => ⟨_, rfl, value_tooLong hu budget o⟩
    obtain ⟨e, rfl, hread⟩ := read_of_due hdue ⟨c, v, rfl, hc⟩ hrefuses
    exact hread

/-- A document that is nothing but a number of too many digits. -/
theorem overlong_digits {c : Char} {ds : List Char} (first : '1' ≤ c ∧ c ≤ '9')
    (digits : ∀ d ∈ ds, isDecimalDigit d = true) (long : Number.digitLimit ≤ ds.length) :
    Overlong (c :: ds) := by
  have written : Numeral.WellWritten isDecimalDigit ⟨false, c :: ds, [], none⟩ :=
    ⟨.inr ⟨c, ds, rfl, first, digits⟩, by simp, by simp⟩
  have hscan := Numeral.scan?_spelling isDigitClass_isDecimalDigit written (r := []) (by nofun)
  have hspelling : Numeral.spelling ⟨false, c :: ds, [], none⟩ ++ [] = c :: ds := by
    simp [Numeral.spelling]
  rw [hspelling] at hscan
  exact ⟨nestingLimit, [], c :: ds, rfl, .document .nil, _, _, hscan, rfl,
    Nat.lt_succ_of_le long⟩

end ModAtlas.Document
