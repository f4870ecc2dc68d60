import ModAtlas.Proofs.Document.Complete
import ModAtlas.Proofs.Document.Reading

/-!
# Documents are forms

A text is a document exactly when it is a form with gaps between its tokens, no deeper than the
limit, and its tree is the node of that form.
-/

namespace ModAtlas.Document
open ModAtlas.Json ModAtlas.Text

/-! ## What is read is a form -/

/-- From an offset on a text begins with a form, and what was read is its node and the rest. -/
structure IsRead (o : Nat) (t : List Char) (f : Form) (n : Node) (o' : Nat) (r : List Char) :
    Prop where
  valid : f.Valid Gap Token
  text : t = f.text ++ r
  offset : o' = o + f.text.length
  node : n = f.node o

/-- What a reader reads are forms of values within a budget of containers. -/
def GivesForms (value : Reader Node) (budget : Nat) : Prop :=
  ∀ {o o' : Nat} {t r : List Char} {n : Node}, value ⟨o, t⟩ = .ok (n, ⟨o', r⟩) →
    ∃ f : Form, f.isProperty = false ∧ f.depth ≤ budget ∧ IsRead o t f n o' r

/-- What a reader reads are parts of a container, each behind a gap. -/
def GivesParts (part : Reader Node) (properties : Bool) (budget : Nat) : Prop :=
  ∀ {o o' : Nat} {t r : List Char} {n : Node}, part ⟨o, t⟩ = .ok (n, ⟨o', r⟩) →
    ∃ (before u : List Char) (f : Form), Gap before ∧ t = before ++ u ∧ f.isProperty = properties ∧
      f.depth ≤ budget ∧ IsRead (o + before.length) u f n o' r

theorem Form.text_ne_nil {f : Form} (h : f.Valid Gap Token) : f.text ≠ [] := by
  obtain ⟨d, u, hdu, -⟩ := Form.head h
  rw [hdu]
  exact List.cons_ne_nil _ _

theorem IsRead.ne_nil {o o' : Nat} {t r : List Char} {f : Form} {n : Node}
    (h : IsRead o t f n o' r) : t ≠ [] := by
  rw [h.text]
  exact List.append_ne_nil_of_left_ne_nil (Form.text_ne_nil h.valid) r

section Sound
variable {o o' budget : Nat} {t r : List Char} {n : Node}

/-- What was skipped before something else is a gap. -/
theorem exists_gap (h : Cursor.skip ⟨o, t⟩ = .ok ⟨o', r⟩) (hne : r ≠ []) :
    ∃ s, Gap s ∧ t = s ++ r ∧ o' = o + s.length := by
  obtain ⟨s, hs⟩ := exists_skipped h
  exact ⟨s, hs.inner hne, hs.text, hs.offset⟩

theorem expect_eq_ok {char : Char} {fault : Fault}
    (h : Cursor.expect ⟨o, t⟩ char fault = .ok ⟨o', r⟩) : t = char :: r ∧ o' = o + 1 := by
  cases t with
  | nil => cases h
  | cons d t =>
      unfold Cursor.expect at h
      dsimp only at h
      split at h
      · rename_i hd
        cases h
        exact ⟨by rw [hd], rfl⟩
      · cases h

theorem quoted_of_string (h : string ⟨o + 1, t⟩ = .ok (n, ⟨o', r⟩)) :
    ∃ body s, Quoted body s.toList ∧ t = body ++ '"' :: r ∧ o' = o + (body.length + 2) ∧
      n = .scalar ⟨o, body.length + 2⟩ (.string s) := by
  rw [string_eq] at h
  split at h
  · cases h
  · rename_i raw rest hclosing
    obtain rfl := closing?_eq_some hclosing
    split at h
    · cases h
    · rename_i s hdecode
      cases h
      exact ⟨raw, s, quoted_iff.mpr ⟨hclosing, hdecode⟩, rfl, rfl, rfl⟩

theorem listed_of_word? {v : Scalar} {length : Nat} (h : word? t = some (v, length, r)) :
    ∃ text, (text, v) ∈ words ∧ t = text ++ r ∧ length = text.length := by
  unfold word? at h
  split at h
  · cases h
    exact ⟨['t', 'r', 'u', 'e'], by decide, rfl, rfl⟩
  · cases h
    exact ⟨['f', 'a', 'l', 's', 'e'], by decide, rfl, rfl⟩
  · cases h
    exact ⟨['n', 'u', 'l', 'l'], by decide, rfl, rfl⟩
  · cases h

theorem plainScalar_givesForms : GivesForms plainScalar budget := by
  intro o o' t r n h
  rw [plainScalar_eq] at h
  split at h
  · rename_i v length rest hword
    obtain ⟨text, listed, ht, rfl⟩ := listed_of_word? hword
    cases h
    exact ⟨.scalar text v, rfl, Nat.zero_le _, .word listed, ht, rfl, rfl⟩
  · split at h
    · cases h
    · rename_i m rest hscan
      obtain ⟨written, ht⟩ := Numeral.scan?_eq_some hscan
      split at h
      · cases h
      · rename_i v hv
        cases h
        exact ⟨.scalar m.spelling (.number v), rfl, Nat.zero_le _, .number written hv, ht, rfl, rfl⟩

theorem item_givesParts {value : Reader Node} (hvalue : GivesForms value budget) :
    GivesParts (item value) false budget := by
  intro o o' t r n h
  obtain ⟨⟨o₁, u⟩, hskip, h⟩ := bind_eq_ok.mp h
  obtain ⟨f, hkind, hdepth, hread⟩ := hvalue h
  obtain ⟨before, hgap, rfl, rfl⟩ := exists_gap hskip hread.ne_nil
  exact ⟨before, u, f, hgap, rfl, hkind, hdepth, hread⟩

theorem property_givesParts {value : Reader Node} (hvalue : GivesForms value budget) :
    GivesParts (property value) true budget := by
  intro o o' t r n h
  simp only [property, bind_eq_ok] at h
  obtain ⟨⟨start, u₁⟩, hskip₁, ⟨o₂, u₂⟩, hquote, ⟨key, ⟨o₃, u₃⟩⟩, hkey, ⟨colon, u₄⟩, hskip₂,
    ⟨o₅, u₅⟩, hcolon, ⟨o₆, u₆⟩, hskip₃, ⟨v, c⟩, hv, h⟩ := h
  cases h
  obtain ⟨f, hkind, hdepth, hread⟩ := hvalue hv
  obtain ⟨rfl, rfl⟩ := expect_eq_ok hquote
  obtain ⟨rfl, rfl⟩ := expect_eq_ok hcolon
  obtain ⟨before, hbefore, rfl, rfl⟩ := exists_gap hskip₁ (List.cons_ne_nil _ _)
  obtain ⟨body, name, quoted, rfl, rfl, rfl⟩ := quoted_of_string hkey
  obtain ⟨left, hleft, rfl, rfl⟩ := exists_gap hskip₂ (List.cons_ne_nil _ _)
  obtain ⟨right, hright, rfl, rfl⟩ := exists_gap hskip₃ hread.ne_nil
  refine ⟨before, _, .property ('"' :: (body ++ ['"'])) name left right f, hbefore, rfl, rfl,
    hdepth, ⟨.string quoted, hleft, hright, hkind, hread.valid⟩, ?_, ?_, ?_⟩
  · simp [Form.text, hread.text]
  · rw [hread.offset]
    simp only [Form.text, List.length_cons, List.length_append, List.length_nil]
    omega
  · have hkeyLength : ('"' :: (body ++ ['"'])).length = body.length + 2 := by simp
    simp only [Form.node, hread.node, Form.span_node, Span.stop, hkeyLength]
    congr 2
    omega

/-- How much fuel a loop over parts has does not matter if it is more than the text has
characters. -/
theorem series_fuel {part : Reader Node} {properties : Bool} {close : Char}
    {missing unfinished : Fault} (hpart : GivesParts part properties budget) {fuel fuel' : Nat}
    {c : Cursor} (hfuel : c.rest.length < fuel) (hfuel' : c.rest.length < fuel') :
    series part close missing unfinished fuel c = series part close missing unfinished fuel' c := by
  induction fuel generalizing fuel' c with
  | zero => exact absurd hfuel (Nat.not_lt_zero _)
  | succ fuel ih =>
      obtain ⟨fuel', rfl⟩ := Nat.exists_eq_add_of_le' (Nat.one_le_of_lt hfuel')
      rw [series, series]
      cases hfirst : part c with
      | error e => rfl
      | ok p =>
          obtain ⟨n, c₁⟩ := p
          simp only [ok_bind]
          cases hskip : c₁.skip with
          | error e => rfl
          | ok c₂ =>
              -- a part takes at least one character, and skipping gives none back
              have hshort : c₂.rest.length < c.rest.length := by
                obtain ⟨before, u, f, -, htext, -, -, hread⟩ := hpart hfirst
                obtain ⟨s, hs⟩ := exists_skipped hskip
                have hlength := List.length_pos_iff.mpr (Form.text_ne_nil hread.valid)
                rw [htext, hread.text, hs.text]
                simp only [List.length_append]
                omega
              simp only [ok_bind]
              split
              · rfl
              · rename_i d rest hrest
                rw [hrest, List.length_cons] at hshort
                have hrest : rest.length < fuel := by omega
                have hrest' : rest.length < fuel' := by omega
                rw [ih (c := ⟨c₂.offset + 1, rest⟩) hrest hrest']

/-- Parts that were read one after the other. -/
theorem parts_of_series {part : Reader Node} {properties : Bool} {close : Char}
    {missing unfinished : Fault} (hpart : GivesParts part properties budget) {fuel : Nat}
    {found : List Node}
    (h : series part close missing unfinished fuel ⟨o, t⟩ = .ok (found, ⟨o', r⟩)) :
    ∃ parts : Parts, parts.Valid Gap Token properties ∧ parts.depth ≤ budget ∧
      t = parts.text ++ close :: r ∧ o' = o + parts.text.length + 1 ∧ found = parts.nodes o := by
  induction fuel generalizing o t found with
  | zero => cases h
  | succ fuel ih =>
      simp only [series, bind_eq_ok] at h
      obtain ⟨⟨first, ⟨o₁, u₁⟩⟩, hfirst, ⟨o₂, u₂⟩, hskip, h⟩ := h
      -- one part is read; what follows it is a comma and more parts, or the end
      obtain ⟨before, u, f, hbefore, rfl, hkind, hdepth, hread⟩ := hpart hfirst
      obtain rfl := hread.text
      obtain rfl := hread.offset
      obtain rfl := hread.node
      split at h
      · cases h
      · rename_i d rest hrest
        simp only at hrest
        subst hrest
        obtain ⟨after, hafter, rfl, rfl⟩ := exists_gap hskip (List.cons_ne_nil _ _)
        split at h
        · rename_i hcomma
          subst hcomma
          obtain ⟨⟨more, c⟩, hmore, h⟩ := bind_eq_ok.mp h
          cases h
          obtain ⟨parts, hvalid, hparts, rfl, rfl, rfl⟩ := ih hmore
          refine ⟨.next before f after parts, ⟨⟨hbefore, hread.valid, hafter, hkind⟩, hvalid⟩,
            Nat.max_le.mpr ⟨hdepth, hparts⟩, ?_, ?_, rfl⟩
          · simp [Parts.text]
          · simp only [Parts.text, List.length_append, List.length_cons]
            omega
        · split at h
          · rename_i hclose
            subst hclose
            cases h
            refine ⟨.last before f after, ⟨hbefore, hread.valid, hafter, hkind⟩, hdepth, ?_, ?_,
              rfl⟩
            · simp [Parts.text]
            · simp only [Parts.text, List.length_append]
              omega
          · cases h

/-- A container that was read holds a gap or parts. -/
theorem parts_of_container {part : Reader Node} {properties : Bool} {close : Char}
    {missing unfinished : Fault} {make : Span → List Node → Node}
    (hpart : GivesParts part properties budget) (hskips : SkipsFirst part)
    (h : container part close missing unfinished make ⟨o + 1, t⟩ = .ok (n, ⟨o', r⟩)) :
    (∃ gap, Gap gap ∧ t = gap ++ close :: r ∧ o' = o + (gap.length + 2) ∧
      n = make ⟨o, gap.length + 2⟩ []) ∨
    ∃ parts : Parts, parts.Valid Gap Token properties ∧ parts.depth ≤ budget ∧
      t = parts.text ++ close :: r ∧ o' = o + (parts.text.length + 2) ∧
      n = make ⟨o, parts.text.length + 2⟩ (parts.nodes (o + 1)) := by
  simp only [container, bind_eq_ok] at h
  obtain ⟨⟨o₁, u⟩, hskip, h⟩ := h
  split at h
  · rename_i hhead
    obtain ⟨rest, rfl⟩ := List.head?_eq_some_iff.mp hhead
    obtain ⟨gap, hgap, rfl, rfl⟩ := exists_gap hskip (List.cons_ne_nil _ _)
    have hoffset : o + 1 + gap.length + 1 = o + (gap.length + 2) := by omega
    simp only [hoffset, Nat.add_sub_cancel, Nat.add_sub_cancel_left] at h
    cases h
    exact .inl ⟨gap, hgap, rfl, rfl, rfl⟩
  · obtain ⟨⟨found, ⟨o₂, u₂⟩⟩, hfound, h⟩ := bind_eq_ok.mp h
    rw [series_skip hskips hskip] at hfound
    cases h
    obtain ⟨parts, hvalid, hdepth, rfl, hstop, rfl⟩ := parts_of_series hpart hfound
    have hoffset : o' = o + (parts.text.length + 2) := by omega
    refine .inr ⟨parts, hvalid, hdepth, rfl, hoffset, ?_⟩
    simp only [hoffset, Nat.add_sub_cancel, Nat.add_sub_cancel_left]

theorem string_givesForms (h : string ⟨o + 1, t⟩ = .ok (n, ⟨o', r⟩)) :
    ∃ f : Form, f.isProperty = false ∧ f.depth ≤ budget ∧ IsRead o ('"' :: t) f n o' r := by
  obtain ⟨body, s, quoted, rfl, rfl, rfl⟩ := quoted_of_string h
  refine ⟨.scalar ('"' :: (body ++ ['"'])) (.string s), rfl, Nat.zero_le _, .string quoted,
    ?_, ?_, ?_⟩
  · simp [Form.text]
  · simp [Form.text]
  · simp [Form.node]

/-- What is read as a value is the form of one. -/
theorem value_givesForms (budget : Nat) : GivesForms (value budget) budget := by
  induction budget with
  | zero =>
      intro o o' t r n h
      unfold value at h
      split at h
      · cases h
      · cases h
      · rename_i rest ht
        simp only at ht
        subst ht
        exact string_givesForms h
      · exact plainScalar_givesForms h
  | succ budget ih =>
      intro o o' t r n h
      unfold value at h
      split at h
      · rename_i rest ht
        simp only at ht h
        subst ht
        rw [array] at h
        rcases parts_of_container (item_givesParts ih) (item_skipsFirst _) h with
          ⟨gap, hgap, rfl, rfl, rfl⟩ | ⟨parts, hvalid, hdepth, rfl, rfl, rfl⟩
        · exact ⟨.emptyArray gap, rfl, Nat.le_add_left _ _, hgap, by simp [Form.text],
            by simp [Form.text], rfl⟩
        · exact ⟨.array parts, rfl, Nat.succ_le_succ hdepth, hvalid, by simp [Form.text],
            by simp [Form.text], rfl⟩
      · rename_i rest ht
        simp only at ht h
        subst ht
        rw [object] at h
        rcases parts_of_container (property_givesParts ih) (property_skipsFirst _) h with
          ⟨gap, hgap, rfl, rfl, rfl⟩ | ⟨parts, hvalid, hdepth, rfl, rfl, rfl⟩
        · exact ⟨.emptyObject gap, rfl, Nat.le_add_left _ _, hgap, by simp [Form.text],
            by simp [Form.text], rfl⟩
        · exact ⟨.object parts, rfl, Nat.succ_le_succ hdepth, hvalid, by simp [Form.text],
            by simp [Form.text], rfl⟩
      · rename_i rest ht
        simp only at ht
        subst ht
        exact string_givesForms h
      · exact plainScalar_givesForms h

end Sound

/-! ## Whole documents -/

/-- A text is the form of a value with gaps around it. -/
structure Written (text lead : List Char) (f : Form) (tail : List Char) : Prop where
  text : text = lead ++ (f.text ++ tail)
  lead : Gap lead
  form : f.Valid Gap Token
  kind : f.isProperty = false
  tail : LastGap tail

theorem delimited_lastGap {g : List Char} (h : LastGap g) : Delimited g := by
  cases h with
  | gap inner =>
      rw [← List.append_nil g]
      exact delimited_gap inner nofun
  | line inner oneLine =>
      apply delimited_gap inner
      intro d hd
      obtain rfl := Option.some.inj hd
      decide

/-- A written form is read, unless it opens a bracket beyond the limit. -/
theorem read_written {text lead tail : List Char} {f : Form} (h : Written text lead f tail) :
    read text = orTooDeep nestingLimit (f.openings lead.length 0) (f.node lead.length) := by
  obtain ⟨c, u, hcu, hc⟩ := Form.head h.form
  have hlead : Cursor.skip ⟨0, lead ++ (f.text ++ tail)⟩ = .ok ⟨lead.length, f.text ++ tail⟩ := by
    rw [← Nat.zero_add lead.length]
    exact skip_gap h.lead (by rw [hcu]; exact hc.noGap _)
  have hvalue := value_readsForms nestingLimit 0 f lead.length tail h.form h.kind
    (delimited_lastGap h.tail)
  rw [Nat.zero_add] at hvalue
  rw [read_eq, h.text, hlead, ok_bind, hvalue, orTooDeep_bind]
  simp only [skip_lastGap h.tail, ok_bind, List.isEmpty_nil, if_true]
  exact orTooDeep_bind_ok _

/-- Whatever is read is a written form. -/
theorem exists_written {text : List Char} {n : Node} (h : read text = .ok n) :
    ∃ lead f tail, Written text lead f tail ∧ f.depth ≤ nestingLimit ∧ n = f.node lead.length := by
  simp only [read_eq, bind_eq_ok] at h
  obtain ⟨⟨o₁, t₁⟩, hlead, ⟨n', ⟨o₂, t₂⟩⟩, hvalue, ⟨o₃, t₃⟩, htail, h⟩ := h
  obtain ⟨f, hkind, hdepth, hread⟩ := value_givesForms nestingLimit hvalue
  obtain ⟨lead, hgap, rfl, rfl⟩ := exists_gap hlead hread.ne_nil
  obtain ⟨tail, hskipped⟩ := exists_skipped htail
  split at h
  · rename_i hend
    obtain rfl : t₃ = [] := List.isEmpty_iff.mp hend
    cases h
    have hrest : t₂ = tail := by simpa using hskipped.text
    refine ⟨lead, f, tail, ⟨?_, hgap, hread.valid, hkind, hskipped.last⟩, hdepth, ?_⟩
    · rw [hread.text, hrest]
    · rw [hread.node, Nat.zero_add]
  · cases h

theorem orTooDeep_of_depth_le {α : Type} {f : Form} {o limit : Nat} (h : f.depth ≤ limit) (x : α) :
    orTooDeep limit (f.openings o 0) x = .ok x := by
  have hle := (Form.openings_le_iff (o := o) (Nat.zero_le limit) f).mpr (by omega)
  have hnone : (f.openings o 0).find? (fun p => limit < p.depth) = none :=
    List.find?_eq_none.mpr fun p hp => by simpa using hle p hp
  simp [orTooDeep, hnone]

/-- A text is a document exactly when it is written and not too deep, and its tree is the node of
its form. -/
theorem read_eq_ok_iff {text : List Char} {n : Node} :
    read text = .ok n ↔ ∃ lead f tail, Written text lead f tail ∧ f.depth ≤ nestingLimit ∧
      n = f.node lead.length := by
  constructor
  · exact exists_written
  · rintro ⟨lead, f, tail, hwritten, hdepth, rfl⟩
    rw [read_written hwritten, orTooDeep_of_depth_le hdepth]

end ModAtlas.Document
