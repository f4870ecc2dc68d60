import ModAtlas.Proofs.Document.Bare
import ModAtlas.Proofs.Document.Form

/-!
# Forms are read

Every form with gaps between its tokens is read, and gives its node. Where it is too deep, reading
stops at the first bracket beyond the limit. What comes after a token matters in two places only:
a gap ends where something else begins, and a numeral where no digit goes on.
-/

namespace ModAtlas.Document
open ModAtlas.Json ModAtlas.Text

/-! ## First characters -/

theorem isDigitClass_isDecimalDigit : Numeral.IsDigitClass isDecimalDigit :=
  ⟨by decide, by decide, by decide, by decide, by decide⟩

theorem cases_of_isLayout {c : Char} (h : isLayout c = true) :
    c = ' ' ∨ c = '\t' ∨ c = '\r' ∨ c = '\n' ∨ c = '\ufeff' := by
  simpa [isLayout, or_assoc] using h

/-- A value or a property may begin with this character. -/
structure Begins (c : Char) : Prop where
  notBlank : isLayout c = false
  notSlash : c ≠ '/'
  notBracket : c ≠ ']'
  notBrace : c ≠ '}'

theorem Begins.noGap {c : Char} (h : Begins c) (u : List Char) : NoGap (c :: u) :=
  noGap_cons h.notBlank h.notSlash

theorem head_spelling {n : Numeral} {digit : Char → Bool} (h : n.WellWritten digit) :
    ∃ c u, n.spelling = c :: u ∧ (c = '-' ∨ c = '0' ∨ ('1' ≤ c ∧ c ≤ '9')) := by
  rw [Numeral.spelling_eq]
  cases n.negative with
  | true => exact ⟨'-', _, rfl, .inl rfl⟩
  | false =>
      rcases h.whole with hw | ⟨c, ds, hw, hc, -⟩ <;> rw [hw]
      · exact ⟨'0', _, rfl, .inr (.inl rfl)⟩
      · exact ⟨c, _, rfl, .inr (.inr hc)⟩

/-- A character that begins a numeral is none of the others that begin something. -/
theorem begins_numeral {c : Char} (hc : c = '-' ∨ c = '0' ∨ ('1' ≤ c ∧ c ≤ '9')) :
    Begins c ∧ c ∉ ['[', '{', '"', 't', 'f', 'n'] := by
  have hne (d : Char) (hd : ¬ (d = '-' ∨ d = '0' ∨ ('1' ≤ d ∧ d ≤ '9'))) : c ≠ d := by
    rintro rfl
    exact hd hc
  refine ⟨⟨?_, hne _ (by decide), hne _ (by decide), hne _ (by decide)⟩, ?_⟩
  · by_contra h
    rcases cases_of_isLayout (Bool.not_eq_false _ ▸ h) with h | h | h | h | h
    all_goals exact hne _ (by decide) h
  · intro hmem
    simp only [List.mem_cons, List.not_mem_nil, or_false] at hmem
    rcases hmem with h | h | h | h | h | h
    all_goals exact hne _ (by decide) h

theorem Token.quoted {t : List Char} {s : String} (h : Token t (.string s)) :
    ∃ body, Quoted body s.toList ∧ t = '"' :: (body ++ ['"']) := by
  cases h with
  | word listed => simp [words] at listed
  | string quoted => exact ⟨_, quoted, rfl⟩

theorem Token.head {t : List Char} {v : Scalar} (h : Token t v) :
    ∃ c u, t = c :: u ∧ Begins c := by
  cases h with
  | word listed =>
      rcases cases_of_mem_words listed with ⟨rfl, -⟩ | ⟨rfl, -⟩ | ⟨rfl, -⟩
      all_goals exact ⟨_, _, rfl, by decide, by decide, by decide, by decide⟩
  | string quoted => exact ⟨_, _, rfl, by decide, by decide, by decide, by decide⟩
  | number written value =>
      obtain ⟨c, u, hcu, hc⟩ := head_spelling written
      exact ⟨c, u, hcu, (begins_numeral hc).1⟩

theorem Form.head {f : Form} (h : f.Valid Gap Token) : ∃ c u, f.text = c :: u ∧ Begins c := by
  cases f with
  | scalar token value => exact Token.head h
  | property key name left right value =>
      obtain ⟨c, u, hcu, hc⟩ := Token.head h.1
      exact ⟨c, _, by rw [Form.text, hcu]; rfl, hc⟩
  | _ => exact ⟨_, _, rfl, by decide, by decide, by decide, by decide⟩

/-- A numeral does not go on into this text. -/
abbrev Delimited (r : List Char) : Prop := Numeral.Ends isDecimalDigit r

theorem delimited_cons {c : Char} (hc : c = ',' ∨ c = ']' ∨ c = '}') (u : List Char) :
    Delimited (c :: u) := by
  intro d hd
  obtain rfl : c = d := by simpa using hd
  rcases hc with rfl | rfl | rfl <;> decide

theorem delimited_gap {g r : List Char} (hg : Gap g) (hr : Delimited r) : Delimited (g ++ r) := by
  cases hg with
  | nil => exact hr
  | blank isBlank rest =>
      intro d hd
      obtain rfl := Option.some.inj hd
      rcases cases_of_isLayout isBlank with rfl | rfl | rfl | rfl | rfl <;> decide
  | line oneLine rest =>
      intro d hd
      obtain rfl := Option.some.inj hd
      decide
  | block noEnd rest =>
      intro d hd
      obtain rfl := Option.some.inj hd
      decide

/-! ## Reading tokens -/

section Tokens
variable {o : Nat} {r : List Char}

theorem string_quoted {body : List Char} {s : String} (h : Quoted body s.toList) :
    string ⟨o + 1, body ++ '"' :: r⟩ =
      .ok (.scalar ⟨o, body.length + 2⟩ (.string s), ⟨o + (body.length + 2), r⟩) := by
  obtain ⟨hclosing, hdecode⟩ := (quoted_iff (r := r)).mp h
  simp [string_eq, hclosing, hdecode]

theorem value_other {b : Nat} {c : Char} {u : List Char} (bracket : c ≠ '[') (brace : c ≠ '{')
    (quote : c ≠ '"') : value b ⟨o, c :: u⟩ = plainScalar ⟨o, c :: u⟩ := by
  unfold value
  split <;> simp_all

theorem value_token {b : Nat} {t : List Char} {v : Scalar} (h : Token t v) (hr : Delimited r) :
    value b ⟨o, t ++ r⟩ = .ok (.scalar ⟨o, t.length⟩ v, ⟨o + t.length, r⟩) := by
  cases h with
  | word listed =>
      rcases cases_of_mem_words listed with ⟨rfl, rfl⟩ | ⟨rfl, rfl⟩ | ⟨rfl, rfl⟩
      all_goals
        rw [List.cons_append, value_other (by decide) (by decide) (by decide)]
        rfl
  | @string body s quoted =>
      have hread := string_quoted (o := o) (r := r) quoted
      simpa [value, List.append_assoc] using hread
  | @number n v written hv =>
      obtain ⟨c, u, hcu, hc⟩ := head_spelling written
      have hnot := (begins_numeral hc).2
      have hscan := Numeral.scan?_spelling isDigitClass_isDecimalDigit written hr
      have hword : word? (n.spelling ++ r) = none := by
        rw [hcu, List.cons_append]
        unfold word?
        split <;> simp_all
      have hplain : plainScalar ⟨o, n.spelling ++ r⟩ =
          .ok (.scalar ⟨o, n.spelling.length⟩ (.number v), ⟨o + n.spelling.length, r⟩) := by
        simp [plainScalar_eq, hword, hscan, hv]
      rw [← hplain, hcu, List.cons_append]
      exact value_other (by simp_all) (by simp_all) (by simp_all)

end Tokens

/-! ## The limit of the depth -/

/-- A result, unless one of the brackets before it opens beyond a limit. -/
def orTooDeep {α : Type} (limit : Nat) (openings : List Opening) (result : α) :
    Except Failure α :=
  match openings.find? fun p => limit < p.depth with
  | some p => stop .nestingTooDeep p.offset
  | none => .ok result

section Depth
variable {α β : Type} {limit : Nat} {first later : List Opening} {p : Opening}

theorem orTooDeep_append (x : α) (y : β) :
    orTooDeep limit (first ++ later) y =
      orTooDeep limit first x >>= fun _ => orTooDeep limit later y := by
  unfold orTooDeep
  rw [List.find?_append]
  cases first.find? fun p => limit < p.depth <;> rfl

theorem orTooDeep_bind (x : α) (f : α → Except Failure β) :
    (orTooDeep limit first x >>= f) = (orTooDeep limit first () >>= fun _ => f x) := by
  unfold orTooDeep
  cases first.find? fun p => limit < p.depth <;> rfl

theorem orTooDeep_bind_ok (x : α) :
    (orTooDeep limit first () >>= fun _ => .ok x) = orTooDeep limit first x := by
  unfold orTooDeep
  cases first.find? fun p => limit < p.depth <;> rfl

theorem orTooDeep_cons_of_le (hp : p.depth ≤ limit) (x : α) :
    orTooDeep limit (p :: later) x = orTooDeep limit later x := by
  unfold orTooDeep
  rw [List.find?_cons_of_neg (by simpa using hp)]

theorem orTooDeep_cons_of_lt (hp : limit < p.depth) (x : α) :
    orTooDeep limit (p :: later) x = stop .nestingTooDeep p.offset := by
  unfold orTooDeep
  rw [List.find?_cons_of_pos (by simpa using hp)]

end Depth

/-- How many parts there are. -/
def Parts.length : Parts → Nat
  | .last _ _ _ => 1
  | .next _ _ _ rest => rest.length + 1

theorem Parts.length_le (parts : Parts) : parts.length ≤ parts.text.length + 1 := by
  cases parts with
  | last before part after => exact Nat.le_add_left _ _
  | next before part after rest =>
      have := rest.length_le
      simp only [Parts.length, Parts.text, List.length_append, List.length_cons]
      omega

theorem ok_bind {ε α β : Type} (a : α) (f : α → Except ε β) : (Except.ok a >>= f) = f a := rfl

/-! ## Forms are read -/

/-- A reader reads the forms of values. -/
def ReadsForms (value : Reader Node) (limit depth : Nat) : Prop :=
  ∀ (f : Form) (o : Nat) (r : List Char), f.Valid Gap Token → f.isProperty = false →
    Delimited r → value ⟨o, f.text ++ r⟩ =
      orTooDeep limit (f.openings o depth) (f.node o, ⟨o + f.text.length, r⟩)

/-- A reader reads the parts of a container, each with the gap before it. -/
def ReadsParts (part : Reader Node) (properties : Bool) (limit depth : Nat) : Prop :=
  ∀ (before : List Char) (f : Form) (o : Nat) (r : List Char), Gap before →
    f.Valid Gap Token → f.isProperty = properties → Delimited r →
    part ⟨o, before ++ (f.text ++ r)⟩ = orTooDeep limit (f.openings (o + before.length) depth)
      (f.node (o + before.length), ⟨o + before.length + f.text.length, r⟩)

section Complete
variable {limit depth : Nat} {part : Reader Node} {properties : Bool} {close : Char}
  {missing unfinished : Fault} {o fuel : Nat} {r : List Char}

theorem item_readsParts {value : Reader Node} (hvalue : ReadsForms value limit depth) :
    ReadsParts (item value) false limit depth := by
  intro before f o r hbefore hf hkind hr
  obtain ⟨c, u, hcu, hc⟩ := Form.head hf
  have hskip : Cursor.skip ⟨o, before ++ (f.text ++ r)⟩ = .ok ⟨o + before.length, f.text ++ r⟩ :=
    skip_gap hbefore (by rw [hcu]; exact hc.noGap _)
  rw [item, hskip, ok_bind]
  exact hvalue f _ r hf hkind hr

theorem property_readsParts {value : Reader Node} (hvalue : ReadsForms value limit depth) :
    ReadsParts (property value) true limit depth := by
  intro before f o r hbefore hf hkind hr
  cases f with
  | property key name left right v =>
      obtain ⟨hkey, hleft, hright, hv, hvalid⟩ := hf
      obtain ⟨body, quoted, rfl⟩ := hkey.quoted
      obtain ⟨c, u, hcu, hc⟩ := Form.head hvalid
      have hkeyStop (u : List Char) : NoGap ('"' :: u) := noGap_cons (by decide) (by decide)
      have hcolonStop (u : List Char) : NoGap (':' :: u) := noGap_cons (by decide) (by decide)
      simp only [property, Form.text, List.cons_append, List.append_assoc,
        skip_gap hbefore (hkeyStop _), ok_bind, Cursor.expect, if_true, List.nil_append,
        string_quoted quoted, skip_gap hleft (hcolonStop _)]
      rw [skip_gap hright (by rw [hcu]; exact hc.noGap _), ok_bind, hvalue v _ r hvalid hv hr,
        orTooDeep_bind, orTooDeep_bind_ok]
      have hkeyLength : ('"' :: (body ++ ['"'])).length = body.length + 2 := by simp
      simp only [Form.openings, Form.node, Form.span_node, Span.stop, hkeyLength]
      congr 3
      · congr 1
        omega
      · simp only [List.length_cons, List.length_append]
        omega
  | _ => cases hkind

/-- Parts up to a closing bracket are read one after the other. -/
theorem series_parts (hpart : ReadsParts part properties limit depth)
    (hclose : close = ']' ∨ close = '}') : ∀ {parts : Parts} {fuel o : Nat},
    parts.Valid Gap Token properties → parts.length ≤ fuel →
    series part close missing unfinished fuel ⟨o, parts.text ++ close :: r⟩ =
      orTooDeep limit (parts.openings o depth) (parts.nodes o, ⟨o + parts.text.length + 1, r⟩)
  | .last before first after, fuel, o, ⟨hbefore, hfirst, hafter, hkind⟩, hfuel => by
      obtain ⟨fuel, rfl⟩ := Nat.exists_eq_add_of_le' hfuel
      have hread := hpart before first o (after ++ close :: r) hbefore hfirst hkind
        (delimited_gap hafter (delimited_cons (.inr hclose) r))
      have hstop : NoGap (close :: r) := by
        rcases hclose with rfl | rfl <;> exact noGap_cons (by decide) (by decide)
      have hcomma : close ≠ ',' := by
        rcases hclose with rfl | rfl <;> decide
      simp only [Parts.length, series, Parts.text, List.append_assoc, hread]
      rw [orTooDeep_bind]
      simp only [skip_gap hafter hstop, ok_bind, if_neg hcomma, if_true]
      rw [orTooDeep_bind_ok]
      simp only [Parts.openings, Parts.nodes, List.length_append, Nat.add_assoc]
  | .next before first after rest, fuel, o, ⟨⟨hbefore, hfirst, hafter, hkind⟩, hrest⟩, hfuel => by
      obtain ⟨fuel, rfl⟩ := Nat.exists_eq_add_of_le' hfuel
      have hread := hpart before first o (after ++ ',' :: (rest.text ++ close :: r)) hbefore
        hfirst hkind (delimited_gap hafter (delimited_cons (.inl rfl) _))
      have hstop : NoGap (',' :: (rest.text ++ close :: r)) := noGap_cons (by decide) (by decide)
      have hrec : series part close missing unfinished (fuel + rest.length)
          ⟨o + before.length + first.text.length + after.length + 1, rest.text ++ close :: r⟩ = _ :=
        series_parts hpart hclose hrest (Nat.le_add_left _ _)
      simp only [Parts.length, ← Nat.add_assoc, series, Parts.text, List.append_assoc,
        List.cons_append, hread]
      rw [orTooDeep_bind]
      simp only [skip_gap hafter hstop, ok_bind, if_true, hrec]
      rw [Parts.openings, orTooDeep_append ()]
      congr 1; funext _
      rw [orTooDeep_bind, orTooDeep_bind_ok]
      simp only [Parts.nodes, List.length_append, List.length_cons]
      congr 3
      omega

theorem Parts.head {parts : Parts} (h : parts.Valid Gap Token properties) :
    ∃ before c u, parts.text = before ++ c :: u ∧ Gap before ∧ Begins c ∧
      parts.length ≤ u.length + 2 := by
  cases parts with
  | last before part after =>
      obtain ⟨hbefore, hpart, -, -⟩ := h
      obtain ⟨c, u, hcu, hc⟩ := Form.head hpart
      exact ⟨before, c, u ++ after, by simp [Parts.text, hcu], hbefore, hc, Nat.le_add_left _ _⟩
  | next before part after rest =>
      obtain ⟨⟨hbefore, hpart, -, -⟩, -⟩ := h
      obtain ⟨c, u, hcu, hc⟩ := Form.head hpart
      refine ⟨before, c, u ++ (after ++ ',' :: rest.text), by simp [Parts.text, hcu], hbefore,
        hc, ?_⟩
      have := rest.length_le
      simp only [Parts.length, List.length_append, List.length_cons]
      omega

theorem container_parts {make : Span → List Node → Node}
    (hpart : ReadsParts part properties limit depth) (hskips : SkipsFirst part)
    (hclose : close = ']' ∨ close = '}') {parts : Parts}
    (hparts : parts.Valid Gap Token properties) :
    container part close missing unfinished make ⟨o + 1, parts.text ++ close :: r⟩ =
      orTooDeep limit (parts.openings (o + 1) depth)
        (make ⟨o, parts.text.length + 2⟩ (parts.nodes (o + 1)),
          ⟨o + (parts.text.length + 2), r⟩) := by
  obtain ⟨before, c, u, htext, hbefore, hc, hlength⟩ := Parts.head hparts
  have hskip : Cursor.skip ⟨o + 1, parts.text ++ close :: r⟩ =
      .ok ⟨o + 1 + before.length, c :: (u ++ close :: r)⟩ := by
    rw [htext, List.append_assoc]
    exact skip_gap hbefore (hc.noGap _)
  have hnotClose : (c :: (u ++ close :: r)).head? ≠ some close := by
    rintro heq
    obtain rfl : c = close := by simpa using heq
    rcases hclose with rfl | rfl
    · exact hc.notBracket rfl
    · exact hc.notBrace rfl
  -- the loop starts behind the first gap, which its first part would skip itself
  have hread : series part close missing unfinished ((c :: (u ++ close :: r)).length + 1)
      ⟨o + 1, parts.text ++ close :: r⟩ = _ :=
    series_parts hpart hclose hparts (by simp; omega)
  simp only [container, hskip, ok_bind, if_neg hnotClose, series_skip hskips hskip, hread]
  have hoffset : o + 1 + parts.text.length + 1 = o + (parts.text.length + 2) := by omega
  rw [orTooDeep_bind, orTooDeep_bind_ok]
  simp only [hoffset, Nat.add_sub_cancel, Nat.add_sub_cancel_left]

theorem container_empty {make : Span → List Node → Node} {gap : List Char}
    (hclose : close = ']' ∨ close = '}') (hgap : Gap gap) :
    container part close missing unfinished make ⟨o + 1, gap ++ close :: r⟩ =
      .ok (make ⟨o, gap.length + 2⟩ [], ⟨o + (gap.length + 2), r⟩) := by
  have hstop : NoGap (close :: r) := by
    rcases hclose with rfl | rfl <;> exact noGap_cons (by decide) (by decide)
  have hoffset : o + 1 + gap.length + 1 = o + (gap.length + 2) := by omega
  simp only [container, skip_gap hgap hstop, ok_bind, List.head?_cons, if_true, List.tail_cons,
    hoffset, Nat.add_sub_cancel, Nat.add_sub_cancel_left]

theorem orTooDeep_nil {α : Type} (x : α) : orTooDeep limit [] x = .ok x := rfl

/-- Values are read, and the first bracket beyond the budget is where reading stops. -/
theorem value_readsForms (budget depth : Nat) :
    ReadsForms (value budget) (depth + budget) depth := by
  -- each container takes one from the budget and adds one to the depth: their sum is the limit
  induction budget generalizing depth with
  | zero =>
      intro f o r hf hkind hr
      have hlt : depth + 0 < depth + 1 := by omega
      cases f with
      | scalar token v => exact value_token hf hr
      | emptyArray gap => exact (orTooDeep_cons_of_lt (p := ⟨o, depth + 1⟩) hlt _).symm
      | array parts => exact (orTooDeep_cons_of_lt (p := ⟨o, depth + 1⟩) hlt _).symm
      | emptyObject gap => exact (orTooDeep_cons_of_lt (p := ⟨o, depth + 1⟩) hlt _).symm
      | object parts => exact (orTooDeep_cons_of_lt (p := ⟨o, depth + 1⟩) hlt _).symm
      | property key name left right v => cases hkind
  | succ budget ih =>
      intro f o r hf hkind hr
      have hle : depth + 1 ≤ depth + (budget + 1) := by omega
      have hvalue : ReadsForms (value budget) (depth + (budget + 1)) (depth + 1) := by
        rw [← Nat.add_assoc, Nat.add_right_comm]
        exact ih (depth + 1)
      have hitem := item_readsParts hvalue
      have hproperty := property_readsParts hvalue
      cases f with
      | scalar token v => exact value_token hf hr
      | emptyArray gap =>
          rw [Form.openings, orTooDeep_cons_of_le hle, orTooDeep_nil]
          simp only [Form.text, List.cons_append, List.append_assoc, value, array,
            List.nil_append, container_empty (.inl rfl) hf]
          simp [Form.node]
      | array parts =>
          rw [Form.openings, orTooDeep_cons_of_le hle]
          simp only [Form.text, List.cons_append, List.append_assoc, value, array,
            List.nil_append, container_parts hitem (item_skipsFirst _) (.inl rfl) hf]
          simp [Form.node]
      | emptyObject gap =>
          rw [Form.openings, orTooDeep_cons_of_le hle, orTooDeep_nil]
          simp only [Form.text, List.cons_append, List.append_assoc, value, object,
            List.nil_append, container_empty (.inr rfl) hf]
          simp [Form.node]
      | object parts =>
          rw [Form.openings, orTooDeep_cons_of_le hle]
          simp only [Form.text, List.cons_append, List.append_assoc, value, object,
            List.nil_append, container_parts hproperty (property_skipsFirst _) (.inr rfl) hf]
          simp [Form.node]
      | property key name left right v => cases hkind

end Complete

end ModAtlas.Document
