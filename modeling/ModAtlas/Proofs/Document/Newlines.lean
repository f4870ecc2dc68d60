import ModAtlas.Proofs.Document.Alike
import ModAtlas.Proofs.Document.Beginning

/-!
# Documents with unified newlines

A text and its unified form are read in step, reader by reader. Two things part them. A line
comment ends at a line feed only, so that a carriage return alone ends it in the unified text and
not in the other one. And a string that escapes a CRLF is broken off at the line feed, while the
unified one may go on to a closing quote; then its escape is at fault.
-/

namespace ModAtlas.Document
open ModAtlas.Json ModAtlas.Text

variable {text : List Char}

/-! ## Readers in step -/

/-- Trees that are alike were read, with the cursors abreast behind them. -/
def BothRead (text : List Char) (p p' : Node × Cursor) : Prop :=
  p.1.Alike text p'.1 ∧ Abreast text p.2 p'.2

/-- Several trees that are alike were read, with the cursors abreast behind them. -/
def AllRead (text : List Char) (p p' : List Node × Cursor) : Prop :=
  Node.AllAlike text p.1 p'.1 ∧ Abreast text p.2 p'.2

/-- A reader reads a text and its unified form in step. -/
def InStep (text : List Char) (reader : Reader Node) : Prop :=
  ∀ c c', Abreast text c c' → Alike text (BothRead text) (reader c) (reader c')

/-- Two cursors stand behind the same character, before which they were abreast. -/
def Behind (text : List Char) (char : Char) (c c' : Cursor) : Prop :=
  ∃ o o', Abreast text ⟨o, char :: c.rest⟩ ⟨o', char :: c'.rest⟩ ∧ c.offset = o + 1 ∧
    c'.offset = o' + 1

section Tokens
variable {c c' : Cursor} {o o' : Nat} {r t : List Char} {char : Char}

/-- No line ends inside a token. -/
theorem Token.notMem_newline {u : List Char} {v : Scalar} (h : Token u v)
    (hchar : char = '\r' ∨ char = '\n') : char ∉ u := by
  cases h with
  | word listed =>
      rcases cases_of_mem_words listed with ⟨rfl, -⟩ | ⟨rfl, -⟩ | ⟨rfl, -⟩ <;>
        rcases hchar with rfl | rfl <;> decide
  | string quoted =>
      have hquote : char ≠ '"' := by rcases hchar with rfl | rfl <;> decide
      simpa [hquote] using quoted.notMem_newline hchar
  | number written value =>
      intro h
      rcases hchar with rfl | rfl <;> rcases written.mem_spelling h with hsign | hrange | hdigit
      all_goals first
        | exact absurd hsign (by decide)
        | exact absurd hrange.1 (by decide)
        | exact absurd hdigit (by decide)

/-- Both pass over the same token. -/
theorem Abreast.token {u : List Char} {v : Scalar} (h : Abreast text ⟨o, u ++ r⟩ ⟨o', t⟩)
    (htoken : Token u v) :
    Abreast text ⟨o + u.length, r⟩ ⟨o' + u.length, unifyNewlines r⟩ := by
  have hline := htoken.notMem_newline (.inl rfl)
  have hcut : CleanCut u r := .of_last fun hlast => hline (List.mem_of_getLast? hlast)
  have hlexed : Lexed u := by simpa using Lexed.token htoken .nil
  have hnext := h.advance hcut (h.comments.behind hlexed)
  rwa [unifyNewlines_eq_self hline] at hnext

theorem Behind.rest (h : Behind text char c c') (hreturn : char ≠ '\r') :
    c'.rest = unifyNewlines c.rest := by
  obtain ⟨o, o', habreast, -, -⟩ := h
  have heq : char :: c'.rest = unifyNewlines (char :: c.rest) := habreast.rest
  rw [unifyNewlines_cons hreturn] at heq
  exact (List.cons.inj heq).2

/-- Behind a mark cursors are abreast again. -/
theorem Behind.abreast (h : Behind text char c c') (hmark : char ∈ marks) :
    Abreast text c c' := by
  have hreturn := (ne_newline_of_mark hmark).1
  have hrest := h.rest hreturn
  obtain ⟨o, o', habreast, ho, ho'⟩ := h
  obtain ⟨i, r⟩ := c
  obtain ⟨i', r'⟩ := c'
  obtain rfl : i = o + 1 := ho
  obtain rfl : i' = o' + 1 := ho'
  obtain rfl : r' = unifyNewlines r := hrest
  have hcut : CleanCut [char] r := .of_last fun hlast => hreturn (Option.some.inj hlast)
  have hclean : CleanComments r :=
    CleanComments.behind (s := [char]) habreast.comments (.mark hmark .nil)
  simpa [unifyNewlines_cons hreturn, unifyNewlines] using
    Abreast.advance (s := [char]) habreast hcut hclean

theorem Behind.start (h : Behind text char c c') :
    SameCut text (c.offset - 1) (c'.offset - 1) := by
  obtain ⟨o, o', habreast, ho, ho'⟩ := h
  rw [ho, ho']
  exact habreast.sameCut

theorem Abreast.head?_iff (h : Abreast text c c') (char : Char)
    (hchar : char ≠ '\r' ∧ char ≠ '\n') : c'.rest.head? = some char ↔ c.rest.head? = some char := by
  rw [h.rest, head?_unifyNewlines hchar.1 hchar.2]

/-- A character that is no line end comes next for both. -/
theorem Abreast.behind (h : Abreast text c c') (hreturn : char ≠ '\r')
    (hhead : c.rest.head? = some char) :
    Behind text char ⟨c.offset + 1, c.rest.tail⟩ ⟨c'.offset + 1, c'.rest.tail⟩ := by
  obtain ⟨o, t⟩ := c
  obtain ⟨o', t'⟩ := c'
  obtain ⟨r, rfl⟩ := List.head?_eq_some_iff.mp hhead
  obtain rfl : t' = char :: unifyNewlines r := by rw [← unifyNewlines_cons hreturn, ← h.rest]
  exact ⟨o, o', h, rfl, rfl⟩

theorem expect_eq {fault : Fault} :
    c.expect char fault =
      if c.rest.head? = some char then .ok ⟨c.offset + 1, c.rest.tail⟩
      else stop fault c.offset := by
  unfold Cursor.expect
  split
  · rename_i d rest hrest
    simp [hrest]
  · rename_i hrest
    simp [hrest]

theorem alike_expect {fault : Fault} (h : Abreast text c c') (hchar : char ≠ '\r' ∧ char ≠ '\n') :
    Alike text (Behind text char) (c.expect char fault) (c'.expect char fault) := by
  rw [expect_eq, expect_eq]
  by_cases hhead : c.rest.head? = some char
  · rw [if_pos hhead, if_pos ((h.head?_iff char hchar).mpr hhead)]
    exact .ok (h.behind hchar.1 hhead)
  · rw [if_neg hhead, if_neg (mt (h.head?_iff char hchar).mp hhead)]
    exact .stop h.sameCut _

/-- A scalar was read from the same token. -/
theorem Abreast.bothRead {u : List Char} {v : Scalar} (h : Abreast text ⟨o, u ++ r⟩ ⟨o', t⟩)
    (htoken : Token u v) :
    BothRead text (.scalar ⟨o, u.length⟩ v, ⟨o + u.length, r⟩)
      (.scalar ⟨o', u.length⟩ v, ⟨o' + u.length, unifyNewlines r⟩) := by
  have hnext := h.token htoken
  exact ⟨⟨⟨h.sameCut, hnext.sameCut⟩, rfl⟩, hnext⟩

section Strings
variable {u : List Char}

theorem string_unclosed (h : closing? u = none) :
    string ⟨o + 1, u⟩ = stop .unclosedString o := by
  simp [string_eq, h]

theorem string_badEscape {raw rest : List Char} (h : closing? u = some (raw, rest))
    (hdecode : decode raw = none) : string ⟨o + 1, u⟩ = stop .badEscape o := by
  simp [string_eq, h, hdecode]

theorem string_closed {raw rest : List Char} {x : String} (h : closing? u = some (raw, rest))
    (hdecode : decode raw = some x) :
    string ⟨o + 1, u⟩ =
      .ok (.scalar ⟨o, raw.length + 2⟩ (.string x), ⟨o + (raw.length + 2), rest⟩) := by
  simp [string_eq, h, hdecode]

/-- A string that is not closed stops both readings at its opening quote. -/
theorem alike_string_unclosed (h : Abreast text ⟨o, '"' :: u⟩ ⟨o', '"' :: unifyNewlines u⟩)
    (hclosing : closing? u = none) :
    Alike text (BothRead text) (string ⟨o + 1, u⟩) (string ⟨o' + 1, unifyNewlines u⟩) := by
  rw [string_unclosed hclosing]
  rcases closing?_unifyNewlines_none hclosing with hnone | ⟨hescapes, raw, rest, hsome, hmem⟩
  · rw [string_unclosed hnone]
    exact .stop h.sameCut _
  · rw [string_badEscape hsome (decode_eq_none hsome hmem (.inr rfl))]
    obtain ⟨before, htext, -, ho, -⟩ := h.cut
    refine .fault h.sameCut (.inr ⟨rfl, rfl, u, ?_, hescapes⟩)
    rw [htext, show o = before.length from ho, List.drop_left]

theorem alike_string_closed {raw rest : List Char}
    (h : Abreast text ⟨o, '"' :: u⟩ ⟨o', '"' :: unifyNewlines u⟩)
    (hclosing : closing? u = some (raw, rest)) :
    Alike text (BothRead text) (string ⟨o + 1, u⟩) (string ⟨o' + 1, unifyNewlines u⟩) := by
  have hclosing' := closing?_unifyNewlines hclosing
  have hdecode' := decode_unifyNewlines hclosing
  cases hdecode : decode raw with
  | none =>
      rw [string_badEscape hclosing hdecode, string_badEscape hclosing' (hdecode'.trans hdecode)]
      exact .stop h.sameCut _
  | some x =>
      rw [string_closed hclosing hdecode, string_closed hclosing' (hdecode'.trans hdecode)]
      obtain rfl := closing?_eq_some hclosing
      have hquoted : Quoted raw x.toList := quoted_iff.mpr ⟨hclosing, hdecode⟩
      have hcursor : Abreast text ⟨o, '"' :: (raw ++ ['"']) ++ rest⟩
          ⟨o', '"' :: unifyNewlines (raw ++ '"' :: rest)⟩ := by
        simpa using h
      have hboth := hcursor.bothRead (.string hquoted)
      rw [unifyNewlines_eq_self (hquoted.notMem_newline (.inl rfl))]
      simpa using Alike.ok hboth

end Strings

theorem alike_string (h : Behind text '"' c c') :
    Alike text (BothRead text) (string c) (string c') := by
  have hrest := h.rest (by decide)
  obtain ⟨o, o', habreast, ho, ho'⟩ := h
  obtain ⟨i, u⟩ := c
  obtain ⟨i', u'⟩ := c'
  obtain rfl : i = o + 1 := ho
  obtain rfl : i' = o' + 1 := ho'
  obtain rfl : u' = unifyNewlines u := hrest
  cases hclosing : closing? u with
  | none => exact alike_string_unclosed habreast hclosing
  | some p => exact alike_string_closed habreast hclosing

theorem word?_listed {w : List Char} {v : Scalar} (h : (w, v) ∈ words) (r : List Char) :
    word? (w ++ r) = some (v, w.length, r) := by
  rcases cases_of_mem_words h with ⟨rfl, rfl⟩ | ⟨rfl, rfl⟩ | ⟨rfl, rfl⟩ <;> rfl

/-- Both begin with the same word, or with none. -/
theorem word?_unifyNewlines (t : List Char) :
    word? (unifyNewlines t) = (word? t).map fun p => (p.1, p.2.1, unifyNewlines p.2.2) := by
  cases hword : word? t with
  | some p =>
      obtain ⟨v, length, r⟩ := p
      obtain ⟨w, listed, rfl, rfl⟩ := listed_of_word? hword
      have hline : '\r' ∉ w := (Token.word listed).notMem_newline (.inl rfl)
      rw [unifyNewlines_append (.of_last fun h => hline (List.mem_of_getLast? h)),
        unifyNewlines_eq_self hline, word?_listed listed]
      rfl
  | none =>
      by_contra hne
      obtain ⟨⟨v, length, r'⟩, hsome⟩ := Option.ne_none_iff_exists'.mp hne
      obtain ⟨w, listed, heq, rfl⟩ := listed_of_word? hsome
      have hline : '\n' ∉ w := (Token.word listed).notMem_newline (.inr rfl)
      obtain ⟨r, rfl, -⟩ := exists_of_unifyNewlines_eq hline heq
      rw [word?_listed listed] at hword
      cases hword

theorem plainScalar_inStep : InStep text plainScalar := by
  rintro ⟨o, t⟩ ⟨o', t'⟩ h
  obtain rfl : t' = unifyNewlines t := h.rest
  rw [plainScalar_eq, plainScalar_eq]
  simp only [word?_unifyNewlines]
  cases hword : word? t with
  | some p =>
      obtain ⟨v, length, r⟩ := p
      obtain ⟨w, listed, rfl, rfl⟩ := listed_of_word? hword
      exact .ok (h.bothRead (.word listed))
  | none =>
      simp only [Option.map_none]
      rw [Numeral.scan?_unifyNewlines (by decide) (by decide)]
      cases hscan : Numeral.scan? isDecimalDigit t with
      | none => exact .stop h.sameCut _
      | some p =>
          obtain ⟨n, r⟩ := p
          obtain ⟨written, rfl⟩ := Numeral.scan?_eq_some hscan
          simp only [Option.map_some]
          cases hnumber : numberOf n with
          | error e =>
              cases e with
              | fault fault k => exact absurd hnumber numberOf_ne_fault
              | numeralTooLong => exact .tooLong
          | ok v => exact .ok (h.bothRead (.number written hnumber))

end Tokens

/-! ## Containers and values in step -/

theorem item_inStep {value : Reader Node} (hvalue : InStep text value) :
    InStep text (item value) := by
  intro c c' h
  exact (alike_skip h).bind hvalue

theorem property_inStep {value : Reader Node} (hvalue : InStep text value) :
    InStep text (property value) := by
  intro c c' h
  simp only [property]
  apply (alike_skip h).bind
  intro c₁ c₁' h₁
  apply (alike_expect h₁ (by decide)).bind
  intro c₂ c₂' h₂
  apply (alike_string h₂).bind
  rintro ⟨key, c₃⟩ ⟨key', c₃'⟩ ⟨hkey, h₃⟩
  apply (alike_skip h₃).bind
  intro c₄ c₄' h₄
  apply (alike_expect h₄ (by decide)).bind
  intro c₅ c₅' h₅
  apply (alike_skip (h₅.abreast (by decide))).bind
  intro c₆ c₆' h₆
  apply (hvalue c₆ c₆' h₆).bind
  rintro ⟨v, c₇⟩ ⟨v', c₇'⟩ ⟨hv, h₇⟩
  have hspan : Span.Alike text ⟨c₁.offset, v.span.stop - c₁.offset⟩
      ⟨c₁'.offset, v'.span.stop - c₁'.offset⟩ := ⟨h₁.sameCut, h₁.sameCut.upTo hv.span.2⟩
  exact .ok ⟨⟨hspan, hkey, h₄.sameCut, hv⟩, h₇⟩

section Loops
variable {part : Reader Node} {close : Char} {missing unfinished : Fault} {c c' : Cursor}

/-- A loop over parts is in step, turn by turn. -/
theorem series_inStep (hpart : InStep text part) (hclose : close ∈ marks) (fuel : Nat)
    (h : Abreast text c c') :
    Alike text (AllRead text) (series part close missing unfinished fuel c)
      (series part close missing unfinished fuel c') := by
  induction fuel generalizing c c' with
  | zero => exact .stop h.sameCut _
  | succ fuel ih =>
      rw [series_succ, series_succ]
      apply (hpart c c' h).bind
      rintro ⟨first, c₁⟩ ⟨first', c₁'⟩ ⟨hfirst, h₁⟩
      apply (alike_skip h₁).bind
      intro c₂ c₂' h₂
      simp only [h₂.head?_iff close (ne_newline_of_mark hclose),
        h₂.head?_iff ',' (by decide)]
      split
      · rename_i hcomma
        apply (ih ((h₂.behind (by decide) hcomma).abreast (by decide))).bind
        rintro ⟨more, c₃⟩ ⟨more', c₃'⟩ ⟨hmore, h₃⟩
        exact .ok ⟨⟨hfirst, hmore⟩, h₃⟩
      split
      · rename_i hend
        have hbehind := h₂.behind (ne_newline_of_mark hclose).1 hend
        exact .ok ⟨⟨hfirst, trivial⟩, hbehind.abreast hclose⟩
      · exact .stop h₂.sameCut _

/-- A container is in step, from behind its opening bracket. -/
theorem container_inStep {properties : Bool} {budget : Nat} {make : Span → List Node → Node}
    {char : Char} (hpart : InStep text part) (hgives : GivesParts part properties budget)
    (hclose : close ∈ marks) (hchar : char ∈ marks)
    (hmake : ∀ {s s' nodes nodes'}, Span.Alike text s s' → Node.AllAlike text nodes nodes' →
      (make s nodes).Alike text (make s' nodes'))
    (h : Behind text char c c') :
    Alike text (BothRead text) (container part close missing unfinished make c)
      (container part close missing unfinished make c') := by
  simp only [container]
  apply (alike_skip (h.abreast hchar)).bind
  intro c₁ c₁' h₁
  simp only [h₁.head?_iff close (ne_newline_of_mark hclose)]
  split
  · rename_i hend
    have hafter := (h₁.behind (ne_newline_of_mark hclose).1 hend).abreast hclose
    exact .ok ⟨hmake ⟨h.start, h.start.upTo hafter.sameCut⟩ trivial, hafter⟩
  · -- the unified text is shorter and has less fuel, but enough of it
    have hlength : c₁'.rest.length < c₁.rest.length + 1 := by
      rw [h₁.rest]
      exact Nat.lt_succ_of_le (length_unifyNewlines_le _)
    rw [series_fuel hgives (Nat.lt_succ_self c₁'.rest.length) hlength]
    apply (series_inStep hpart hclose _ h₁).bind
    rintro ⟨found, c₂⟩ ⟨found', c₂'⟩ ⟨hfound, h₂⟩
    exact .ok ⟨hmake ⟨h.start, h.start.upTo h₂.sameCut⟩ hfound, h₂⟩

end Loops

/-- A value by its first character. -/
theorem value_eq (budget : Nat) (c : Cursor) : value budget c =
    if c.rest.head? = some '[' then
      match budget with
      | 0 => stop .nestingTooDeep c.offset
      | budget + 1 => array (value budget) ⟨c.offset + 1, c.rest.tail⟩
    else if c.rest.head? = some '\x7b' then
      match budget with
      | 0 => stop .nestingTooDeep c.offset
      | budget + 1 => object (value budget) ⟨c.offset + 1, c.rest.tail⟩
    else if c.rest.head? = some '"' then string ⟨c.offset + 1, c.rest.tail⟩
    else plainScalar c := by
  unfold value
  split
  · rename_i rest hrest
    rw [hrest, List.head?_cons, if_pos rfl]
    rfl
  · rename_i rest hrest
    rw [hrest, List.head?_cons, if_neg (by decide), if_pos rfl]
    rfl
  · rename_i rest hrest
    rw [hrest, List.head?_cons, if_neg (by decide), if_neg (by decide), if_pos rfl]
    rfl
  · rename_i hbracket hbrace hquote
    rw [if_neg, if_neg, if_neg]
    all_goals
      intro hhead
      obtain ⟨rest, hrest⟩ := List.head?_eq_some_iff.mp hhead
    · exact hquote rest hrest
    · exact hbrace rest hrest
    · exact hbracket rest hrest

theorem value_inStep (budget : Nat) : InStep text (value budget) := by
  induction budget with
  | zero =>
      intro c c' h
      rw [value_eq, value_eq]
      simp only [h.head?_iff '[' (by decide), h.head?_iff '\x7b' (by decide),
        h.head?_iff '"' (by decide)]
      split
      · exact .stop h.sameCut _
      split
      · exact .stop h.sameCut _
      split
      · rename_i hquote
        exact alike_string (h.behind (by decide) hquote)
      · exact plainScalar_inStep c c' h
  | succ budget ih =>
      intro c c' h
      rw [value_eq, value_eq]
      simp only [h.head?_iff '[' (by decide), h.head?_iff '\x7b' (by decide),
        h.head?_iff '"' (by decide), array, object]
      split
      · rename_i hbracket
        exact container_inStep (item_inStep ih) (item_givesParts (value_givesForms budget))
          (by decide) (by decide) (fun hspan hnodes => ⟨hspan, hnodes⟩)
          (h.behind (by decide) hbracket)
      split
      · rename_i hbrace
        exact container_inStep (property_inStep ih) (property_givesParts (value_givesForms budget))
          (by decide) (by decide) (fun hspan hnodes => ⟨hspan, hnodes⟩)
          (h.behind (by decide) hbrace)
      split
      · rename_i hquote
        exact alike_string (h.behind (by decide) hquote)
      · exact plainScalar_inStep c c' h

/-- Readings of a document are alike when its newlines are unified. -/
theorem alike_read (hclean : CleanComments text) :
    Alike text (Node.Alike text) (read text) (read (unifyNewlines text)) := by
  have hstart : Abreast text ⟨0, text⟩ ⟨0, unifyNewlines text⟩ :=
    ⟨⟨[], rfl, .nil, rfl, rfl⟩, rfl, hclean⟩
  simp only [read_eq]
  apply (alike_skip hstart).bind
  intro c c' h
  apply (value_inStep nestingLimit c c' h).bind
  rintro ⟨n, c₁⟩ ⟨n', c₁'⟩ ⟨hn, h₁⟩
  apply (alike_skip h₁).bind
  intro c₂ c₂' h₂
  have hempty : c₂'.rest.isEmpty = c₂.rest.isEmpty := by
    rw [h₂.rest, Bool.eq_iff_iff, List.isEmpty_iff, List.isEmpty_iff, unifyNewlines_eq_nil]
  rw [hempty]
  split
  · exact .ok hn
  · exact .stop h₂.sameCut _

/-- A text and its unified form are the same document: both are read, to one value and with all
nodes on the same lines and characters, or both are at fault there. -/
inductive SameDocument (text : List Char) : Except Failure Node → Except Failure Node → Prop
  | read {n n' : Node} (value : n.toValue = n'.toValue)
      (ranges : rangesIn text n = rangesIn (unifyNewlines text) n') :
      SameDocument text (.ok n) (.ok n')
  | fault {f f' : Fault} {k k' : Nat}
      (place : positionAt text k = positionAt (unifyNewlines text) k')
      (same : SameFault text k f f') :
      SameDocument text (.error (.fault f k)) (.error (.fault f' k'))
  | tooLong : SameDocument text (.error .numeralTooLong) (.error .numeralTooLong)

/-- Unifying newlines changes no document, unless a line comment holds a carriage return alone. -/
theorem read_unifyNewlines (hclean : CleanComments text) :
    SameDocument text (read text) (read (unifyNewlines text)) := by
  have halike := alike_read hclean
  generalize read text = x at halike ⊢
  generalize read (unifyNewlines text) = x' at halike ⊢
  cases halike with
  | ok result => exact .read result.toValue_eq result.rangesIn_eq
  | fault place same => exact .fault place.positionAt_eq same
  | tooLong => exact .tooLong

/-- A list with a comment, its lines ended by CRLF. -/
def windowsText : List Char := "[1, // one\r\n \"a\"\r\n]".toList

theorem read_unifyNewlines_windows : CleanComments windowsText ∧
    SameDocument windowsText (read windowsText) (read (unifyNewlines windowsText)) := by
  have hclean : CleanComments windowsText := cleanComments_of_pairs (by decide)
  exact ⟨hclean, read_unifyNewlines hclean⟩

/-! ## A comment that holds a carriage return -/

theorem not_forall_read_iff :
    ¬ ∀ text, (∃ n, read text = .ok n) ↔ ∃ n, read (unifyNewlines text) = .ok n := by
  intro hall
  have hread : read "// c\r1".toList = .error (.fault .valueExpected 6) := by rfl
  obtain ⟨n, hn⟩ := (hall "// c\r1".toList).mpr ⟨_, rfl⟩
  rw [hread] at hn
  cases hn

end ModAtlas.Document
