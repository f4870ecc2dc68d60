import ModAtlas.Proofs.Document.Strict
import ModAtlas.Proofs.Text.Utf8

/-!
# Data files and documents agree

A data file is read strictly and a document with comments, each by a reader of its own. What the
strict reader takes is a form of a document too, so that the text of a data file is read as a
document that has the same value: with the same order of keys, the same value for repeated keys
and numbers of the same kind. Only the limits differ: the document is refused when more brackets
are open at once than documents may have.
-/

namespace ModAtlas.Document
open ModAtlas.Json ModAtlas.Text

/-! ## How deep brackets nest -/

/-- The most brackets that are open at once in a text, if so many are open at its start. -/
def mostOpen : Nat → List Char → Nat
  | k, [] => k
  | k, c :: rest =>
    if c = '[' ∨ c = '\x7b' then mostOpen (k + 1) rest
    else if c = ']' ∨ c = '\x7d' then max k (mostOpen (k - 1) rest)
    else mostOpen k rest

/-- How deep the brackets of a text nest, those in strings left out. -/
def nesting (text : List Char) : Nat := mostOpen 0 (withoutStrings text)

/-- No bracket stands in a text. -/
def Flat (t : List Char) : Prop := ∀ c ∈ t, c ∉ ['[', '\x7b', ']', '\x7d']

instance (t : List Char) : Decidable (Flat t) :=
  List.decidableBAll (fun c => c ∉ ['[', '\x7b', ']', '\x7d']) t

section MostOpen
variable {t r : List Char} (k : Nat)

theorem le_mostOpen (r : List Char) : k ≤ mostOpen k r := by
  induction r generalizing k with
  | nil => exact le_rfl
  | cons c r ih =>
      rw [mostOpen]
      split
      · exact (Nat.le_succ k).trans (ih (k + 1))
      split
      · exact le_max_left _ _
      · exact ih k

theorem mostOpen_flat (h : Flat t) : mostOpen k (t ++ r) = mostOpen k r := by
  induction t with
  | nil => rfl
  | cons c t ih =>
      obtain ⟨hc, ht⟩ := List.forall_mem_cons.mp h
      simp only [List.mem_cons, List.not_mem_nil, or_false, not_or] at hc
      obtain ⟨hbracket, hbrace, hclose, hend⟩ := hc
      rw [List.cons_append, mostOpen, if_neg (by simp [hbracket, hbrace]),
        if_neg (by simp [hclose, hend]), ih ht]

/-- Between a bracket and its end one more is open. -/
theorem mostOpen_container {first last : Char} {depth : Nat}
    (hbrackets : first = '[' ∧ last = ']' ∨ first = '\x7b' ∧ last = '\x7d')
    (hinner : ∀ r, mostOpen (k + 1) (t ++ r) = max (k + 1 + depth) (mostOpen (k + 1) r)) :
    mostOpen k (first :: (t ++ [last]) ++ r) = max (k + (depth + 1)) (mostOpen k r) := by
  have hopen : mostOpen k (first :: (t ++ [last]) ++ r) = mostOpen (k + 1) (t ++ last :: r) := by
    rcases hbrackets with ⟨rfl, -⟩ | ⟨rfl, -⟩ <;> simp [mostOpen]
  have hclose : mostOpen (k + 1) (last :: r) = max (k + 1) (mostOpen k r) := by
    rcases hbrackets with ⟨-, rfl⟩ | ⟨-, rfl⟩ <;> simp [mostOpen]
  rw [hopen, hinner, hclose]
  omega

mutual

/-- A form has as many brackets open at once as it is deep. -/
theorem Form.mostOpen_text : ∀ {f : Form} (k : Nat) (r : List Char),
    f.Valid Flat (fun t _ => Flat t) →
      mostOpen k (f.text ++ r) = max (k + f.depth) (mostOpen k r)
  | .scalar _ _, k, r, h => by
      rw [Form.text, mostOpen_flat k h, Form.depth, Nat.add_zero, max_eq_right (le_mostOpen k r)]
  | .emptyArray _, k, r, h =>
    mostOpen_container k (.inl ⟨rfl, rfl⟩) fun r => by
      rw [mostOpen_flat _ h, Nat.add_zero, max_eq_right (le_mostOpen _ r)]
  | .emptyObject _, k, r, h =>
    mostOpen_container k (.inr ⟨rfl, rfl⟩) fun r => by
      rw [mostOpen_flat _ h, Nat.add_zero, max_eq_right (le_mostOpen _ r)]
  | .array _, k, _, h =>
    mostOpen_container k (.inl ⟨rfl, rfl⟩) fun r => Parts.mostOpen_text (k + 1) r h
  | .object _, k, _, h =>
    mostOpen_container k (.inr ⟨rfl, rfl⟩) fun r => Parts.mostOpen_text (k + 1) r h
  | .property _ _ _ _ _, k, r, ⟨hkey, hleft, hright, _, hvalue⟩ => by
      have hcolon : Flat [':'] := by decide
      rw [Form.text, List.append_assoc, mostOpen_flat k hkey, List.append_assoc,
        mostOpen_flat k hleft, ← List.singleton_append, List.append_assoc,
        mostOpen_flat k hcolon, List.append_assoc, mostOpen_flat k hright,
        Form.mostOpen_text k r hvalue, Form.depth]

theorem Parts.mostOpen_text {properties : Bool} : ∀ {parts : Parts} (k : Nat) (r : List Char),
    parts.Valid Flat (fun t _ => Flat t) properties →
      mostOpen k (parts.text ++ r) = max (k + parts.depth) (mostOpen k r)
  | .last _ _ _, k, r, ⟨hbefore, hpart, hafter, _⟩ => by
      rw [Parts.text, List.append_assoc, mostOpen_flat k hbefore, List.append_assoc,
        Form.mostOpen_text k _ hpart, mostOpen_flat k hafter, Parts.depth]
  | .next _ _ _ rest, k, r, ⟨⟨hbefore, hpart, hafter, _⟩, hrest⟩ => by
      have hcomma : Flat [','] := by decide
      rw [Parts.text, List.append_assoc, mostOpen_flat k hbefore, List.append_assoc,
        Form.mostOpen_text k _ hpart, List.append_assoc, mostOpen_flat k hafter,
        ← List.singleton_append, List.append_assoc, mostOpen_flat k hcomma,
        Parts.mostOpen_text k r hrest, Parts.depth]
      omega

end

end MostOpen

/-! ## Strict texts are documents -/

theorem Form.depth_rewritten (onGap onToken : List Char → List Char) (f : Form) :
    (f.rewritten onGap onToken).depth = f.depth := by
  rw [← Form.depth_value, Form.value_rewritten, Form.depth_value]

theorem Blanks.gap {g : List Char} (h : Blanks g) : Gap g := by
  induction g with
  | nil => exact .nil
  | cons c g ih =>
      obtain ⟨hc, hg⟩ := List.forall_mem_cons.mp h
      have hlayout : isLayout c = true := by
        rw [Strict.isBlank] at hc
        rw [isLayout, hc, Bool.true_or]
      exact .blank hlayout (ih hg)

theorem Blanks.flat {g : List Char} (h : Blanks g) : Flat g := by
  intro c hc hbracket
  have hblank := h c hc
  simp only [List.mem_cons, List.not_mem_nil, or_false] at hbracket
  rcases hbracket with rfl | rfl | rfl | rfl <;> cases hblank

/-- Beyond the limit the first bracket that opens is a fault. -/
theorem orTooDeep_of_lt_depth {α : Type} {f : Form} {o limit : Nat} (h : limit < f.depth) (x : α) :
    ∃ p ∈ f.openings o 0, orTooDeep limit (f.openings o 0) x = stop .nestingTooDeep p.offset := by
  unfold orTooDeep
  cases hfind : (f.openings o 0).find? fun p => limit < p.depth with
  | some p => exact ⟨p, List.mem_of_find?_eq_some hfind, rfl⟩
  | none =>
      have hall := List.find?_eq_none.mp hfind
      have hle := (Form.openings_le_iff (o := o) (Nat.zero_le limit) f).mp
        fun p hp => by simpa using hall p hp
      omega

end ModAtlas.Document

namespace ModAtlas.Json.Strict
open ModAtlas.Document ModAtlas.Text

section Tokens
variable {number? : Numeral → Option Number} {t : List Char} {v : Scalar}

theorem StrictToken.json (h : StrictToken number? t v) : JsonToken isDecimalDigit t v := by
  cases h with
  | word listed => exact .word listed
  | string quoted => exact .string (stringBody_of_quoted quoted)
  | number written _ => exact .number (written.imp fun _ _ hd => (isAsciiDigit_iff.mp hd).1)

/-- A token of strict JSON is one of documents and stands for the same there. -/
theorem StrictToken.token (h : StrictToken Numeral.number? t v) : Token t v := by
  cases h with
  | word listed => exact .word listed
  | string quoted => exact .string quoted
  | @number n v written value =>
      have hascii : n.isAscii = true := by
        simpa [Numeral.isAscii, IsAscii] using isAscii_spelling written
      refine .number (written.imp fun _ _ hd => (isAsciiDigit_iff.mp hd).1) ?_
      rw [numberOf, if_pos hascii, value]

/-- Brackets stand in a token only between quotes. -/
theorem StrictToken.flat (h : StrictToken number? t v) : Flat (withoutStrings t) := by
  cases h with
  | word listed =>
      rw [(withoutStrings_plain (allPlain_words listed)).self rfl]
      rcases cases_of_mem_words listed with ⟨rfl, -⟩ | ⟨rfl, -⟩ | ⟨rfl, -⟩ <;> decide
  | string quoted =>
      rw [(withoutStrings_string (stringBody_of_quoted quoted)).self rfl]
      decide
  | @number n _ written =>
      have hdecimal := written.imp fun _ _ hd => (isAsciiDigit_iff.mp hd).1
      rw [(withoutStrings_plain (allPlain_spelling hdecimal)).self rfl]
      intro c hc hbracket
      simp only [List.mem_cons, List.not_mem_nil, or_false] at hbracket
      rcases hbracket with rfl | rfl | rfl | rfl <;>
        exact notMem_spelling written (by decide) (by decide) hc

end Tokens

/-! ## Layouts are documents -/

namespace Layout
variable {text : List Char} {v : Value} (l : Layout Numeral.number? text v)

theorem written : Written text l.lead l.form l.tail :=
  ⟨l.text_eq, l.leadBlanks.gap, l.valid.mono (fun _ h => h.gap) fun _ _ h => h.token, l.kind,
    .gap l.tailBlanks.gap⟩

theorem written_mark : Written ('\ufeff' :: text) ('\ufeff' :: l.lead) l.form l.tail :=
  ⟨congrArg ('\ufeff' :: ·) l.text_eq, .blank rfl l.leadBlanks.gap, l.written.form, l.kind,
    l.written.tail⟩

/-- The brackets of a text nest as deep as its form is. -/
theorem nesting_eq : nesting text = l.form.depth := by
  have hjson := l.valid.mono (fun _ h => h) fun _ _ h => h.json
  have hflat : (l.form.rewritten id withoutStrings).Valid Flat (fun t _ => Flat t) :=
    l.valid.rewritten (fun _ h => h.flat) fun _ _ h => h.flat
  have htail : mostOpen 0 l.tail = 0 := by
    rw [← List.append_nil l.tail, mostOpen_flat 0 l.tailBlanks.flat]
    rfl
  have hwithout : withoutStrings text =
      l.lead ++ ((l.form.rewritten id withoutStrings).text ++ l.tail) :=
    (congrArg withoutStrings l.text_eq).trans
      (withoutStrings_json l.leadBlanks hjson l.tailBlanks)
  rw [nesting, hwithout, mostOpen_flat 0 l.leadBlanks.flat, Form.mostOpen_text 0 _ hflat, htail,
    Form.depth_rewritten, Nat.zero_add, Nat.max_zero]

end Layout

theorem nesting_mark (text : List Char) : nesting ('\ufeff' :: text) = nesting text := by
  have hmark : withoutStrings ('\ufeff' :: text) = '\ufeff' :: withoutStrings text := rfl
  rw [nesting, hmark, mostOpen, if_neg (by decide), if_neg (by decide)]
  rfl

/-! ## Both readers -/

/-- A text is read as a document that has a value, unless its brackets nest too deep. -/
structure ReadsAs (text : List Char) (v : Value) : Prop where
  accepted : nesting text ≤ Document.nestingLimit →
    ∃ root, Document.read text = .ok root ∧ root.toValue = v
  refused : Document.nestingLimit < nesting text →
    ∃ o, Document.read text = .error (.fault .nestingTooDeep o)

/-- A written form is read as its value with repeated keys merged. -/
theorem readsAs_of_written {text lead tail : List Char} {f : Form}
    (h : Written text lead f tail) (hnesting : nesting text = f.depth) :
    ReadsAs text f.value.merged := by
  have hread := read_written h
  constructor
  · intro hle
    rw [orTooDeep_of_depth_le (hnesting ▸ hle)] at hread
    exact ⟨_, hread, Form.toValue_node _ f⟩
  · intro hlt
    obtain ⟨p, -, hstop⟩ :=
      orTooDeep_of_lt_depth (o := lead.length) (hnesting ▸ hlt) (f.node lead.length)
    exact ⟨p.offset, hread.trans hstop⟩

theorem readsAs_of_read {text : List Char} {v : Value} (h : read text = some v) :
    ReadsAs text v ∧ ReadsAs ('\ufeff' :: text) v := by
  obtain ⟨l⟩ := exists_layout h
  have hmark := (nesting_mark text).trans l.nesting_eq
  exact l.value ▸ ⟨readsAs_of_written l.written l.nesting_eq,
    readsAs_of_written l.written_mark hmark⟩

/-- A data file that is read is UTF-8, and its text is read as a document with the same value,
whether its byte order mark is kept or dropped. Only where its brackets nest deeper than those of
documents may is it refused, and for that reason. -/
theorem readsAs_of_readOctets {octets : List UInt8} {v : Value}
    (h : readOctets octets = some v) :
    (∃ text, Utf8.decode? octets = some text) ∧
      (∃ text, Utf8.decode? (Utf8.dropMark octets) = some text) ∧
      ∀ text, Utf8.decode? octets = some text ∨ Utf8.decode? (Utf8.dropMark octets) = some text →
        (nesting text ≤ Document.nestingLimit →
          ∃ root, Document.read text = .ok root ∧ root.toValue = v) ∧
        (Document.nestingLimit < nesting text →
          ∃ o, Document.read text = .error (.fault .nestingTooDeep o)) := by
  obtain ⟨text, hdropped, hread⟩ := Option.bind_eq_some_iff.mp h
  obtain ⟨hplain, hmarked⟩ := readsAs_of_read hread
  -- the file's own text is the dropped one, or that one behind a mark
  obtain ⟨whole, hwhole, hkind⟩ : ∃ whole, Utf8.decode? octets = some whole ∧ ReadsAs whole v := by
    rcases Utf8.dropMark_cases octets with hmark | hsame
    · rw [hmark, Utf8.decode?_byteOrderMark, hdropped]
      exact ⟨_, rfl, hmarked⟩
    · exact ⟨text, hsame ▸ hdropped, hplain⟩
  refine ⟨⟨whole, hwhole⟩, ⟨text, hdropped⟩, ?_⟩
  rintro t (ht | ht)
  · obtain rfl := Option.some.inj (hwhole.symm.trans ht)
    exact ⟨hkind.accepted, hkind.refused⟩
  · obtain rfl := Option.some.inj (hdropped.symm.trans ht)
    exact ⟨hplain.accepted, hplain.refused⟩

/-- A text with a repeated key and with numbers of both kinds. -/
def repeatedKey : List Char := "\x7b\"a\": 1, \"b\": [2, 2.0], \"a\": 3\x7d".toList

/-- What it holds. -/
def repeatedKeyValue : Value :=
  .obj [("a", .num (.int 3)), ("b", .arr [.num (.int 2), .num (.real (Binary64.ofInt 2))])]

theorem readsAs_of_readOctets_repeatedKey :
    readOctets (Utf8.byteOrderMark ++ Utf8.encode repeatedKey) = some repeatedKeyValue ∧
      ∃ root, Document.read ('\ufeff' :: repeatedKey) = .ok root ∧
        root.toValue = repeatedKeyValue := by
  have h : readOctets (Utf8.byteOrderMark ++ Utf8.encode repeatedKey) = some repeatedKeyValue :=
    rfl
  have htext : Utf8.decode? (Utf8.byteOrderMark ++ Utf8.encode repeatedKey) =
      some ('\ufeff' :: repeatedKey) := rfl
  have hnesting : nesting ('\ufeff' :: repeatedKey) ≤ Document.nestingLimit := by decide
  exact ⟨h, ((readsAs_of_readOctets h).2.2 _ (.inl htext)).1 hnesting⟩

end ModAtlas.Json.Strict
