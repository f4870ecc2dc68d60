import ModAtlas.Json.Strict
import ModAtlas.Proofs.Document.Exact
import ModAtlas.Proofs.Document.Rewriting

/-!
# Documents are JSON with comments

`IsJson` is the grammar of JSON texts over a class of digits. Once a space stands in the place of
each comment and each byte order mark between tokens, a document is a JSON text in which decimal
digits of every digit set count, the first digit of a numeral apart. It is JSON proper exactly
when nothing but ASCII stands outside its strings.
-/

namespace ModAtlas.Document
open ModAtlas.Json ModAtlas.Text

/-! ## The grammar -/

/-- A run of the four JSON blanks. -/
def Blanks (g : List Char) : Prop := ∀ c ∈ g, Strict.isBlank c = true

/-- What stands between the quotes of a JSON string. -/
inductive StringBody : List Char → Prop
  | nil : StringBody []
  | plain {c : Char} {s : List Char} (notQuote : c ≠ '"') (notBackslash : c ≠ '\\')
      (notControl : 0x20 ≤ c.toNat) (rest : StringBody s) : StringBody (c :: s)
  | short {e c : Char} {s : List Char} (listed : (e, c) ∈ shortEscapes) (rest : StringBody s) :
      StringBody ('\\' :: e :: s)
  | unit {h s : List Char} {n : Nat} (hex : Hex4 h n) (rest : StringBody s) :
      StringBody ('\\' :: 'u' :: (h ++ s))

/-- The tokens of JSON over a class of digits; which string or number one stands for is left
open. -/
inductive JsonToken (digit : Char → Bool) : List Char → Scalar → Prop
  | word {text : List Char} {value : Scalar} (listed : (text, value) ∈ words) :
      JsonToken digit text value
  | string {body : List Char} {s : String} (inner : StringBody body) :
      JsonToken digit ('"' :: (body ++ ['"'])) (.string s)
  | number {n : Numeral} {v : Number} (written : n.WellWritten digit) :
      JsonToken digit n.spelling (.number v)

/-- The JSON texts over a class of digits: a value with blanks around its tokens. -/
def IsJson (digit : Char → Bool) (t : List Char) : Prop :=
  ∃ lead f tail, t = lead ++ (Form.text f ++ tail) ∧ Blanks lead ∧
    f.Valid Blanks (JsonToken digit) ∧ f.isProperty = false ∧ Blanks tail

/-! ## Texts without comments and without strings -/

/-- Where a scan over a text stands. -/
inductive Scan where
  | tokens
  | string
  | line
  | block
deriving DecidableEq, Repr

/-- A text with a space for each comment and each byte order mark between tokens, from where a
scan stands. -/
def spaced : Scan → List Char → List Char
  | _, [] => []
  | .tokens, '/' :: '/' :: rest => ' ' :: spaced .line rest
  | .tokens, '/' :: '*' :: rest => ' ' :: spaced .block rest
  | .tokens, c :: rest =>
    if c = '\ufeff' then ' ' :: spaced .tokens rest
    else c :: spaced (if c = '"' then .string else .tokens) rest
  | .string, '\\' :: c :: rest => '\\' :: c :: spaced .string rest
  | .string, c :: rest => c :: spaced (if c = '"' then .tokens else .string) rest
  | .line, c :: rest => if c = '\n' then c :: spaced .tokens rest else spaced .line rest
  | .block, '*' :: '/' :: rest => spaced .tokens rest
  | .block, _ :: rest => spaced .block rest

/-- A text with a space for each comment and each byte order mark between tokens. -/
def withoutComments (text : List Char) : List Char := spaced .tokens text

/-- A text without what stands between quotes; whether the start of it does is given. -/
def unquoted : Bool → List Char → List Char
  | _, [] => []
  | false, c :: rest => c :: unquoted (c == '"') rest
  | true, '\\' :: _ :: rest => unquoted true rest
  | true, c :: rest => if c = '"' then c :: unquoted false rest else unquoted true rest

/-- A text without what stands between quotes. -/
def withoutStrings (text : List Char) : List Char := unquoted false text

/-- Only ASCII stands in a text. -/
def IsAscii (t : List Char) : Prop := ∀ c ∈ t, c.toNat < 0x80

instance (t : List Char) : Decidable (IsAscii t) :=
  List.decidableBAll (fun c : Char => c.toNat < 0x80) t

section Steps
variable {c : Char} {r : List Char}

theorem spaced_slashes : spaced .tokens ('/' :: '/' :: r) = ' ' :: spaced .line r :=
  rfl

theorem spaced_slashStar : spaced .tokens ('/' :: '*' :: r) = ' ' :: spaced .block r :=
  rfl

theorem spaced_starSlash : spaced .block ('*' :: '/' :: r) = spaced .tokens r :=
  rfl

theorem spaced_inLine : spaced .line (c :: r) =
    if c = '\n' then c :: spaced .tokens r else spaced .line r := by
  rw [spaced]

theorem spaced_inBlock (noEnd : ∀ u, c = '*' → r ≠ '/' :: u) :
    spaced .block (c :: r) = spaced .block r := by
  rw [spaced]
  exact noEnd

theorem spaced_tokens (notSlash : c ≠ '/') : spaced .tokens (c :: r) =
    if c = '\ufeff' then ' ' :: spaced .tokens r
    else c :: spaced (if c = '"' then .string else .tokens) r := by
  rw [spaced]
  · exact fun _ h _ => notSlash h
  · exact fun _ h _ => notSlash h

theorem spaced_escape : spaced .string ('\\' :: c :: r) = '\\' :: c :: spaced .string r :=
  rfl

theorem spaced_inString (notBackslash : c ≠ '\\') : spaced .string (c :: r) =
    c :: spaced (if c = '"' then .tokens else .string) r := by
  rw [spaced]
  exact fun _ _ h _ => notBackslash h

theorem unquoted_outside : unquoted false (c :: r) = c :: unquoted (c == '"') r :=
  rfl

theorem unquoted_escape : unquoted true ('\\' :: c :: r) = unquoted true r :=
  rfl

theorem unquoted_inString (notBackslash : c ≠ '\\') : unquoted true (c :: r) =
    if c = '"' then c :: unquoted false r else unquoted true r := by
  rw [unquoted]
  exact fun _ _ h _ => notBackslash h

end Steps

/-! ## What scans keep -/

/-- A character with no meaning of its own to a scan that stands at tokens. -/
structure IsPlain (c : Char) : Prop where
  notSlash : c ≠ '/'
  notQuote : c ≠ '"'
  notMark : c ≠ '\ufeff'

instance (c : Char) : Decidable (IsPlain c) :=
  decidable_of_iff (c ≠ '/' ∧ c ≠ '"' ∧ c ≠ '\ufeff')
    ⟨fun h => ⟨h.1, h.2.1, h.2.2⟩, fun h => ⟨h.notSlash, h.notQuote, h.notMark⟩⟩

/-- Only characters without a meaning of their own to a scan stand in a text. -/
def AllPlain (t : List Char) : Prop := ∀ c ∈ t, IsPlain c

instance (t : List Char) : Decidable (AllPlain t) := List.decidableBAll IsPlain t

theorem IsPlain.spaced {c : Char} (hc : IsPlain c) (r : List Char) :
    spaced .tokens (c :: r) = c :: spaced .tokens r := by
  rw [spaced_tokens hc.notSlash, if_neg hc.notMark, if_neg hc.notQuote]

theorem IsPlain.unquoted {c : Char} (hc : IsPlain c) (r : List Char) :
    unquoted false (c :: r) = c :: unquoted false r := by
  rw [unquoted_outside, beq_eq_false_iff_ne.mpr hc.notQuote]

theorem withoutComments_plain {t : List Char} (ht : AllPlain t) :
    Rewrites withoutComments t t :=
  .kept fun c hc => (ht c hc).spaced

theorem withoutStrings_plain {t : List Char} (ht : AllPlain t) :
    Rewrites withoutStrings t t :=
  .kept fun c hc => (ht c hc).unquoted

theorem allPlain_mark {c : Char} (hc : c ∈ marks) : AllPlain [c] := by
  simp only [marks, List.mem_cons, List.not_mem_nil, or_false] at hc
  rcases hc with rfl | rfl | rfl | rfl | rfl | rfl <;> decide

theorem allPlain_words {t : List Char} {v : Scalar} (h : (t, v) ∈ words) : AllPlain t := by
  rcases cases_of_mem_words h with ⟨rfl, -⟩ | ⟨rfl, -⟩ | ⟨rfl, -⟩ <;> decide

theorem allPlain_spelling {n : Numeral} (h : n.WellWritten isDecimalDigit) :
    AllPlain n.spelling := by
  intro c hc
  have hne (d : Char) (hsign : d ∉ Numeral.signs) (hascii : ¬ ('0' ≤ d ∧ d ≤ '9'))
      (hdigit : isDecimalDigit d = false) : c ≠ d := by
    rintro rfl
    rcases h.mem_spelling hc with hmem | hmem | hmem
    · exact hsign hmem
    · exact hascii hmem
    · exact Bool.false_ne_true (hdigit.symm.trans hmem)
  exact ⟨hne _ (by decide) (by decide) (by decide), hne _ (by decide) (by decide) (by decide),
    hne _ (by decide) (by decide) (by decide)⟩

/-! ## What scans do to strings -/

section Strings
variable {c : Char} {d n : Nat} {h s r : List Char}

theorem spaced_inner (notQuote : c ≠ '"') (notBackslash : c ≠ '\\') :
    spaced .string (c :: r) = c :: spaced .string r := by
  rw [spaced_inString notBackslash, if_neg notQuote]

theorem unquoted_inner (notQuote : c ≠ '"') (notBackslash : c ≠ '\\') :
    unquoted true (c :: r) = unquoted true r := by
  rw [unquoted_inString notBackslash, if_neg notQuote]

theorem spaced_hex4 (hex : Hex4 h n) : spaced .string (h ++ r) = h ++ spaced .string r := by
  have hdigit {c : Char} {d : Nat} (hd : hexDigit? c = some d) (r : List Char) :
      spaced .string (c :: r) = c :: spaced .string r :=
    spaced_inner (isInner_of_hexDigit hd).1 (isInner_of_hexDigit hd).2.1
  cases hex with
  | digits first second third fourth =>
      simp only [List.cons_append, List.nil_append, hdigit first, hdigit second, hdigit third,
        hdigit fourth]

theorem unquoted_hex4 (hex : Hex4 h n) : unquoted true (h ++ r) = unquoted true r := by
  have hdigit {c : Char} {d : Nat} (hd : hexDigit? c = some d) (r : List Char) :
      unquoted true (c :: r) = unquoted true r :=
    unquoted_inner (isInner_of_hexDigit hd).1 (isInner_of_hexDigit hd).2.1
  cases hex with
  | digits first second third fourth =>
      simp only [List.cons_append, List.nil_append, hdigit first, hdigit second, hdigit third,
        hdigit fourth]

theorem spaced_body (h : StringBody s) :
    spaced .string (s ++ '"' :: r) = s ++ '"' :: spaced .tokens r := by
  induction h with
  | nil => rw [List.nil_append, List.nil_append, spaced_inString (by decide), if_pos rfl]
  | plain notQuote notBackslash notControl rest ih =>
      rw [List.cons_append, spaced_inner notQuote notBackslash, ih, List.cons_append]
  | short listed rest ih =>
      rw [List.cons_append, List.cons_append, spaced_escape, ih, List.cons_append,
        List.cons_append]
  | unit hex rest ih =>
      simp only [List.cons_append, List.append_assoc]
      rw [spaced_escape, spaced_hex4 hex, ih]

theorem unquoted_body (h : StringBody s) :
    unquoted true (s ++ '"' :: r) = '"' :: unquoted false r := by
  induction h with
  | nil => rw [List.nil_append, unquoted_inString (by decide), if_pos rfl]
  | plain notQuote notBackslash notControl rest ih =>
      rw [List.cons_append, unquoted_inner notQuote notBackslash, ih]
  | short listed rest ih => rw [List.cons_append, List.cons_append, unquoted_escape, ih]
  | unit hex rest ih =>
      simp only [List.cons_append, List.append_assoc]
      rw [unquoted_escape, unquoted_hex4 hex, ih]

theorem withoutComments_string (h : StringBody s) :
    Rewrites withoutComments ('"' :: (s ++ ['"'])) ('"' :: (s ++ ['"'])) := by
  intro r
  simp only [withoutComments, List.cons_append, List.append_assoc, List.nil_append]
  rw [spaced_tokens (by decide), if_neg (by decide), if_pos rfl, spaced_body h]

theorem withoutStrings_string (h : StringBody s) :
    Rewrites withoutStrings ('"' :: (s ++ ['"'])) ['"', '"'] := by
  intro r
  simp only [withoutStrings, List.cons_append, List.append_assoc, List.nil_append]
  rw [unquoted_outside, beq_self_eq_true, unquoted_body h]

end Strings

/-! ## Tokens -/

theorem stringBody_of_quoted {s t : List Char} (h : Quoted s t) : StringBody s := by
  induction h with
  | nil => exact .nil
  | plain notQuote notBackslash notControl rest ih =>
      exact .plain notQuote notBackslash notControl ih
  | short listed rest ih => exact .short listed ih
  | unit hex whole rest ih => exact .unit hex ih
  | pair hexFirst hexSecond first second rest ih => exact .unit hexFirst (.unit hexSecond ih)

theorem Token.json {t : List Char} {v : Scalar} (h : Token t v) : JsonToken isDecimalDigit t v := by
  cases h with
  | word listed => exact .word listed
  | string quoted => exact .string (stringBody_of_quoted quoted)
  | number written value => exact .number written

theorem JsonToken.withoutComments {t : List Char} {v : Scalar}
    (h : JsonToken isDecimalDigit t v) : Rewrites withoutComments t t := by
  cases h with
  | word listed => exact withoutComments_plain (allPlain_words listed)
  | string inner => exact withoutComments_string inner
  | number written => exact withoutComments_plain (allPlain_spelling written)

theorem JsonToken.withoutStrings {t : List Char} {v : Scalar}
    (h : JsonToken isDecimalDigit t v) : Rewrites withoutStrings t (withoutStrings t) := by
  obtain ⟨t', ht'⟩ : ∃ t', Rewrites Document.withoutStrings t t' := by
    cases h with
    | word listed => exact ⟨t, withoutStrings_plain (allPlain_words listed)⟩
    | string inner => exact ⟨_, withoutStrings_string inner⟩
    | number written => exact ⟨_, withoutStrings_plain (allPlain_spelling written)⟩
  rwa [ht'.self rfl]

/-! ## Gaps -/

section Gaps
variable {body g r : List Char}

theorem spaced_line (oneLine : '\n' ∉ body) :
    spaced .line (body ++ '\n' :: r) = '\n' :: spaced .tokens r := by
  induction body with
  | nil => rfl
  | cons c body ih =>
      obtain ⟨hc, hbody⟩ := not_or.mp (mt List.mem_cons.mpr oneLine)
      rw [List.cons_append, spaced_inLine, if_neg (Ne.symm hc), ih hbody]

theorem spaced_line_end (oneLine : '\n' ∉ body) : spaced .line body = [] := by
  induction body with
  | nil => rfl
  | cons c body ih =>
      obtain ⟨hc, hbody⟩ := not_or.mp (mt List.mem_cons.mpr oneLine)
      rw [spaced_inLine, if_neg (Ne.symm hc), ih hbody]

theorem spaced_block (noEnd : ¬ ['*', '/'] <:+: body) :
    spaced .block (body ++ '*' :: '/' :: r) = spaced .tokens r := by
  induction body with
  | nil => exact spaced_starSlash
  | cons c body ih =>
      rw [List.cons_append, spaced_inBlock (noEnd_append noEnd _), ih (noEnd_tail noEnd)]

/-- The blanks that stand in the place of a gap. -/
theorem exists_blanks (h : Gap g) : ∃ b, Blanks b ∧ Rewrites withoutComments g b := by
  induction h with
  | nil => exact ⟨[], nofun, fun r => rfl⟩
  | @blank c s isBlank rest ih =>
      obtain ⟨b, hb, hrewrites⟩ := ih
      by_cases hmark : c = '\ufeff'
      · subst hmark
        refine ⟨' ' :: b, List.forall_mem_cons.mpr ⟨rfl, hb⟩, fun r => ?_⟩
        rw [List.cons_append, withoutComments, spaced_tokens (by decide), if_pos rfl]
        exact congrArg (' ' :: ·) (hrewrites r)
      · have hc : Strict.isBlank c = true := by
          simpa [isLayout, Strict.isBlank, hmark] using isBlank
        have hplain : IsPlain c := by
          refine ⟨?_, ?_, hmark⟩
          all_goals rintro rfl; cases isBlank
        refine ⟨c :: b, List.forall_mem_cons.mpr ⟨hc, hb⟩, fun r => ?_⟩
        rw [List.cons_append, withoutComments, hplain.spaced]
        exact congrArg (c :: ·) (hrewrites r)
  | @line body s oneLine rest ih =>
      obtain ⟨b, hb, hrewrites⟩ := ih
      refine ⟨' ' :: '\n' :: b,
        List.forall_mem_cons.mpr ⟨rfl, List.forall_mem_cons.mpr ⟨rfl, hb⟩⟩, fun r => ?_⟩
      simp only [List.cons_append, List.append_assoc, withoutComments]
      rw [spaced_slashes, spaced_line oneLine]
      exact congrArg (fun t => ' ' :: '\n' :: t) (hrewrites r)
  | @block body s noEnd rest ih =>
      obtain ⟨b, hb, hrewrites⟩ := ih
      refine ⟨' ' :: b, List.forall_mem_cons.mpr ⟨rfl, hb⟩, fun r => ?_⟩
      simp only [List.cons_append, List.append_assoc, withoutComments]
      rw [spaced_slashStar, spaced_block noEnd]
      exact congrArg (' ' :: ·) (hrewrites r)

theorem Gap.blanks (h : Gap g) : Blanks (withoutComments g) := by
  obtain ⟨b, hb, hrewrites⟩ := exists_blanks h
  rwa [hrewrites.self rfl]

theorem Gap.rewrites (h : Gap g) : Rewrites withoutComments g (withoutComments g) := by
  obtain ⟨b, -, hrewrites⟩ := exists_blanks h
  rwa [hrewrites.self rfl]

theorem LastGap.blanks (h : LastGap g) : Blanks (withoutComments g) := by
  cases h with
  | gap inner => exact inner.blanks
  | line inner oneLine =>
      rw [inner.rewrites, withoutComments, withoutComments, spaced_slashes,
        spaced_line_end oneLine]
      intro c hc
      rcases List.mem_append.mp hc with hc | hc
      · exact inner.blanks c hc
      · obtain rfl := List.mem_singleton.mp hc
        rfl

end Gaps

/-! ## Documents are JSON over all decimal digits -/

theorem isJson_withoutComments {text : List Char} {root : Node} (h : read text = .ok root) :
    IsJson isDecimalDigit (withoutComments text) := by
  obtain ⟨lead, f, tail, hwritten, -, -⟩ := exists_written h
  have hjson : f.Valid Gap (JsonToken isDecimalDigit) :=
    hwritten.form.mono (fun _ h => h) fun _ _ h => h.json
  have hform : Rewrites withoutComments f.text (f.rewritten withoutComments id).text :=
    Form.rewrites_text (fun _ h => h.rewrites) (fun _ _ h => h.withoutComments)
      (fun _ hc => withoutComments_plain (allPlain_mark hc)) hjson
  refine ⟨withoutComments lead, f.rewritten withoutComments id, withoutComments tail, ?_,
    hwritten.lead.blanks, hjson.rewritten (fun _ h => h.blanks) fun _ _ h => h,
    (f.isProperty_rewritten _ _).trans hwritten.kind, hwritten.tail.blanks⟩
  rw [hwritten.text, hwritten.lead.rewrites, hform]

/-! ## JSON proper -/

theorem isAscii_nil : IsAscii [] := nofun

theorem isAscii_cons {c : Char} {t : List Char} :
    IsAscii (c :: t) ↔ c.toNat < 0x80 ∧ IsAscii t := List.forall_mem_cons

theorem isAscii_append {t u : List Char} : IsAscii (t ++ u) ↔ IsAscii t ∧ IsAscii u :=
  List.forall_mem_append

theorem isAscii_of_blanks {g : List Char} (h : Blanks g) : IsAscii g := by
  intro c hc
  have hblank := h c hc
  simp only [Strict.isBlank, Bool.or_eq_true, beq_iff_eq] at hblank
  rcases hblank with ((rfl | rfl) | rfl) | rfl
  all_goals decide

/-- The ASCII digits are the decimal digits in ASCII. -/
theorem isAsciiDigit_iff {c : Char} :
    isAsciiDigit c = true ↔ isDecimalDigit c = true ∧ c.toNat < 0x80 := by
  have hrange : isAsciiDigit c = true ↔ 48 ≤ c.toNat ∧ c.toNat ≤ 57 := by
    simp only [isAsciiDigit, Bool.and_eq_true, decide_eq_true_eq, Char.le_def,
      UInt32.le_iff_toNat_le]
    rfl
  rw [hrange]
  constructor
  · rintro ⟨hlow, hhigh⟩
    refine ⟨?_, by omega⟩
    simp [isDecimalDigit, digitValue?, digitZeros, hlow, hhigh]
  · rintro ⟨hdigit, hascii⟩
    obtain ⟨start, hfind⟩ :
        ∃ z, digitZeros.find? (fun z => z ≤ c.toNat && c.toNat ≤ z + 9) = some z :=
      Option.isSome_iff_exists.mp (by simpa [isDecimalDigit, digitValue?] using hdigit)
    have hbounds := List.find?_some hfind
    simp only [Bool.and_eq_true, decide_eq_true_eq] at hbounds
    have honly : ∀ z ∈ digitZeros, z < 0x80 → z = 48 := by decide
    have hstart := honly start (List.mem_of_find?_eq_some hfind) (by omega)
    omega

theorem JsonToken.decimal {t : List Char} {v : Scalar} (h : JsonToken isAsciiDigit t v) :
    JsonToken isDecimalDigit t v := by
  cases h with
  | word listed => exact .word listed
  | string inner => exact .string inner
  | number written => exact .number (written.imp fun _ _ hd => (isAsciiDigit_iff.mp hd).1)

theorem isAscii_spelling {n : Numeral} (h : n.WellWritten isAsciiDigit) : IsAscii n.spelling := by
  intro c hc
  have hdigit (hc : isAsciiDigit c = true) : c.toNat < 0x80 := (isAsciiDigit_iff.mp hc).2
  rcases h.mem_spelling hc with hmem | hrange | hmem
  · have hsigns : IsAscii Numeral.signs := by decide
    exact hsigns c hmem
  · exact hdigit (by simpa [isAsciiDigit] using hrange)
  · exact hdigit hmem

/-- A token is one of JSON proper when nothing but ASCII stands in it outside quotes. -/
theorem JsonToken.isAscii_iff {t : List Char} {v : Scalar} (h : JsonToken isDecimalDigit t v) :
    IsAscii (Document.withoutStrings t) ↔ JsonToken isAsciiDigit t v := by
  cases h with
  | word listed =>
      refine iff_of_true ?_ (.word listed)
      rw [(withoutStrings_plain (allPlain_words listed)).self rfl]
      rcases cases_of_mem_words listed with ⟨rfl, -⟩ | ⟨rfl, -⟩ | ⟨rfl, -⟩ <;> decide
  | string inner =>
      refine iff_of_true ?_ (.string inner)
      rw [(withoutStrings_string inner).self rfl]
      decide
  | @number n v written =>
      rw [(withoutStrings_plain (allPlain_spelling written)).self rfl]
      constructor
      · intro hascii
        exact .number (written.imp fun c hc hd => isAsciiDigit_iff.mpr ⟨hd, hascii c hc⟩)
      · -- the token may be spelled from another numeral
        intro hjson
        generalize n.spelling = t at hjson
        cases hjson with
        | word listed => simp [words] at listed
        | number written => exact isAscii_spelling written

theorem isAscii_enclosed {first last : Char} {t : List Char} (hfirst : first.toNat < 0x80)
    (hlast : last.toNat < 0x80) : IsAscii (first :: (t ++ [last])) ↔ IsAscii t := by
  simp [isAscii_cons, isAscii_append, isAscii_nil, hfirst, hlast]

mutual

/-- A form is one of JSON proper when nothing but ASCII stands in it outside quotes. -/
theorem Form.isAscii_iff : ∀ {f : Form}, f.Valid Blanks (JsonToken isDecimalDigit) →
    (IsAscii (f.rewritten id withoutStrings).text ↔ f.Valid Blanks (JsonToken isAsciiDigit))
  | .scalar _ _, h => h.isAscii_iff
  | .emptyArray _, h =>
    iff_of_true ((isAscii_enclosed (by decide) (by decide)).mpr (isAscii_of_blanks h)) h
  | .emptyObject _, h =>
    iff_of_true ((isAscii_enclosed (by decide) (by decide)).mpr (isAscii_of_blanks h)) h
  | .array _, h => (isAscii_enclosed (by decide) (by decide)).trans (Parts.isAscii_iff h)
  | .object _, h => (isAscii_enclosed (by decide) (by decide)).trans (Parts.isAscii_iff h)
  | .property key name left right value, ⟨hkey, hleft, hright, hkind, hvalue⟩ => by
      have hcolon : ':'.toNat < 0x80 := by decide
      simp only [Form.rewritten, Form.text, id, isAscii_append, isAscii_cons, Form.Valid,
        hkey.isAscii_iff, Form.isAscii_iff hvalue, isAscii_of_blanks hleft,
        isAscii_of_blanks hright, hcolon, hleft, hright, hkind, true_and]

theorem Parts.isAscii_iff {properties : Bool} : ∀ {parts : Parts},
    parts.Valid Blanks (JsonToken isDecimalDigit) properties →
    (IsAscii (parts.rewritten id withoutStrings).text ↔
      parts.Valid Blanks (JsonToken isAsciiDigit) properties)
  | .last before part after, ⟨hbefore, hpart, hafter, hkind⟩ => by
      simp only [Parts.rewritten, Parts.text, id, isAscii_append, Parts.Valid,
        Form.isAscii_iff hpart, isAscii_of_blanks hbefore, isAscii_of_blanks hafter, hbefore,
        hafter, hkind, and_true, true_and]
  | .next before part after rest, ⟨⟨hbefore, hpart, hafter, hkind⟩, hrest⟩ => by
      have hcomma : ','.toNat < 0x80 := by decide
      simp only [Parts.rewritten, Parts.text, id, isAscii_append, isAscii_cons, Parts.Valid,
        Form.isAscii_iff hpart, Parts.isAscii_iff hrest, isAscii_of_blanks hbefore,
        isAscii_of_blanks hafter, hcomma, hbefore, hafter, hkind, and_true, true_and]

end

theorem withoutStrings_blanks {g : List Char} (h : Blanks g) : Rewrites withoutStrings g g := by
  apply withoutStrings_plain
  intro c hc
  have hblank := h c hc
  refine ⟨?_, ?_, ?_⟩
  all_goals rintro rfl; cases hblank

/-- What is left of a JSON text without its strings. -/
theorem withoutStrings_json {lead tail : List Char} {f : Form} (hlead : Blanks lead)
    (hform : f.Valid Blanks (JsonToken isDecimalDigit)) (htail : Blanks tail) :
    withoutStrings (lead ++ (f.text ++ tail)) =
      lead ++ ((f.rewritten id withoutStrings).text ++ tail) := by
  have htext : Rewrites withoutStrings f.text (f.rewritten id withoutStrings).text :=
    Form.rewrites_text (fun _ h => withoutStrings_blanks h) (fun _ _ h => h.withoutStrings)
      (fun _ hc => withoutStrings_plain (allPlain_mark hc)) hform
  rw [withoutStrings_blanks hlead, htext, (withoutStrings_blanks htail).self rfl]

theorem isAscii_of_isJson {t : List Char} (h : IsJson isAsciiDigit t) :
    IsAscii (withoutStrings t) := by
  obtain ⟨lead, f, tail, rfl, hlead, hform, -, htail⟩ := h
  have hdecimal := hform.mono (fun _ h => h) fun _ _ h => h.decimal
  rw [withoutStrings_json hlead hdecimal htail, isAscii_append, isAscii_append]
  exact ⟨isAscii_of_blanks hlead, (Form.isAscii_iff hdecimal).mpr hform, isAscii_of_blanks htail⟩

theorem isJson_of_isAscii {t : List Char} (h : IsJson isDecimalDigit t)
    (hascii : IsAscii (withoutStrings t)) : IsJson isAsciiDigit t := by
  obtain ⟨lead, f, tail, rfl, hlead, hform, hkind, htail⟩ := h
  rw [withoutStrings_json hlead hform htail, isAscii_append, isAscii_append] at hascii
  exact ⟨lead, f, tail, rfl, hlead, (Form.isAscii_iff hform).mp hascii.2.1, hkind, htail⟩

/-- A document without its comments is a JSON text in which all decimal digits count. It is JSON
proper exactly when nothing but ASCII stands outside its strings. -/
theorem read_isJson {text : List Char} {root : Node} (h : read text = .ok root) :
    IsJson isDecimalDigit (withoutComments text) ∧
      (IsJson isAsciiDigit (withoutComments text) ↔
        IsAscii (withoutStrings (withoutComments text))) :=
  have hjson := isJson_withoutComments h
  ⟨hjson, isAscii_of_isJson, isJson_of_isAscii hjson⟩

/-- A comment and a byte order mark become spaces, and a foreign digit between quotes is JSON. -/
theorem read_isJson_mixed :
    read "[1, \"\u0663//\", /* \u0663 */ 2\ufeff]".toList =
        .ok (.array ⟨0, 22⟩ [.scalar ⟨1, 1⟩ (.number (.int 1)),
          .scalar ⟨4, 5⟩ (.string "\u0663//"), .scalar ⟨19, 1⟩ (.number (.int 2))]) ∧
      withoutComments "[1, \"\u0663//\", /* \u0663 */ 2\ufeff]".toList =
        "[1, \"\u0663//\",   2 ]".toList ∧
      IsJson isAsciiDigit "[1, \"\u0663//\",   2 ]".toList := by
  have hread : read "[1, \"\u0663//\", /* \u0663 */ 2\ufeff]".toList =
      .ok (.array ⟨0, 22⟩ [.scalar ⟨1, 1⟩ (.number (.int 1)),
        .scalar ⟨4, 5⟩ (.string "\u0663//"), .scalar ⟨19, 1⟩ (.number (.int 2))]) := rfl
  refine ⟨hread, rfl, (read_isJson hread).2.mpr ?_⟩
  decide +kernel

/-- A digit of another digit set is read in a numeral, which is therefore not one of JSON. -/
theorem read_foreign_digit :
    ¬ ∀ text root, read text = .ok root → IsJson isAsciiDigit (withoutComments text) := by
  intro hall
  have hread : read ['1', '\u0663'] = .ok (.scalar ⟨0, 2⟩ (.number (.int 13))) := by rfl
  have hascii := isAscii_of_isJson (hall _ _ hread)
  exact absurd (hascii '\u0663' (by decide)) (by decide)

end ModAtlas.Document
