import ModAtlas.Proofs.Document.Keys
import ModAtlas.Proofs.Workspace.KeyPositions

/-!
# Searching for written keys

A key that needs no escape and holds no comma and no colon occurs in quotes, with a colon behind
it, just where a written key ends: the written key is the sought one, or a longer one with an
escaped quote before the end. Everything else between two quotes in a text of strict JSON holds a
comma or a colon.
-/

namespace ModAtlas.Workspace
open ModAtlas.Document ModAtlas.Json ModAtlas.Text
open ModAtlas.Json.Strict (ValidForm ValidParts StrictToken Layout)

/-- A key without quotes, backslashes, commas and colons. -/
def IsSimple (key : String) : Prop := ∀ c ∈ key.toList, c ∉ ['"', '\\', ',', ':']

instance (key : String) : Decidable (IsSimple key) :=
  List.decidableBAll (fun c : Char => c ∉ ['"', '\\', ',', ':']) key.toList

/-- The quoted key at an offset ends where the token of a written key ends. -/
structure EndsKey (key : String) (i : Nat) (k : WrittenKey) : Prop where
  suffix : quoted key <:+ k.token
  stop : i + (quoted key).length = k.offset + k.token.length

/-! ## Between quotes -/

/-- Before each quote of a text there is a comma or a colon. -/
def Parted (t : List Char) : Prop := ∀ g r, t = g ++ '"' :: r → ',' ∈ g ∨ ':' ∈ g

section Parted
variable {g t front u : List Char}

/-- A quote does not stand in a text without quotes. -/
theorem exists_behind (hg : '"' ∉ g) (h : g ++ t = front ++ '"' :: u) :
    ∃ more, front = g ++ more ∧ t = more ++ '"' :: u := by
  rcases List.append_eq_append_iff.mp h with ⟨more, hfront, ht⟩ | ⟨more, hg', hu⟩
  · exact ⟨more, hfront, ht⟩
  · cases more with
    | nil => exact ⟨[], by simpa using hg'.symm, by simpa using hu.symm⟩
    | cons c more =>
        obtain ⟨rfl, -⟩ := List.cons.inj hu
        exact absurd (hg' ▸ by simp) hg

theorem Parted.behind (h : Parted t) (hg : '"' ∉ g) : Parted (g ++ t) := by
  intro front r hsplit
  obtain ⟨more, rfl, ht⟩ := exists_behind hg hsplit
  exact (h more r ht).imp (List.mem_append_right _) (List.mem_append_right _)

theorem parted_of_notMem (h : '"' ∉ t) : Parted t := fun g r ht => absurd (ht ▸ by simp) h

theorem parted_mark {c : Char} (hc : c = ',' ∨ c = ':') : Parted (c :: t) := by
  intro front r hsplit
  cases front with
  | nil =>
      obtain ⟨rfl, -⟩ := List.cons.inj hsplit
      exact absurd hc (by decide)
  | cons d front =>
      obtain ⟨rfl, -⟩ := List.cons.inj hsplit
      rcases hc with rfl | rfl
      · exact .inl List.mem_cons_self
      · exact .inr List.mem_cons_self

end Parted

/-! ## Behind values -/

section Closes
variable {g rest : List Char}

theorem isBlank_of_strict {c : Char} (h : Strict.isBlank c = true) : isBlank c = true := by
  simp only [Strict.isBlank, Bool.or_eq_true, beq_iff_eq] at h
  rcases h with ((rfl | rfl) | rfl) | rfl <;> decide

theorem quote_notMem_blanks (h : Blanks g) : '"' ∉ g := fun hmem =>
  absurd (h '"' hmem) (by decide)

theorem colonFollows_blanks (h : Blanks g) : colonFollows (g ++ rest) = colonFollows rest := by
  rw [colonFollows, List.dropWhile_append_of_pos fun c hc => isBlank_of_strict (h c hc)]
  rfl

/-- What may stand behind a value: no colon comes next, and a comma or a colon before any quote. -/
structure Closes (rest : List Char) : Prop where
  noColon : colonFollows rest = false
  parted : Parted rest

theorem Closes.behind (h : Closes rest) (hg : Blanks g) : Closes (g ++ rest) :=
  ⟨by rw [colonFollows_blanks hg, h.noColon], h.parted.behind (quote_notMem_blanks hg)⟩

theorem closes_blanks (h : Blanks g) : Closes g := by
  have hnil : Closes [] := ⟨by decide, parted_of_notMem List.not_mem_nil⟩
  simpa using hnil.behind h

theorem closes_comma : Closes (',' :: rest) :=
  ⟨by simp [colonFollows, isBlank], parted_mark (.inl rfl)⟩

theorem Closes.bracket (h : Closes rest) {c : Char} (hc : c = ']' ∨ c = '\x7d') :
    Closes (c :: rest) := by
  rcases hc with rfl | rfl
  · exact ⟨by simp [colonFollows, isBlank], h.parted.behind (g := [']']) (by decide)⟩
  · exact ⟨by simp [colonFollows, isBlank], h.parted.behind (g := ['\x7d']) (by decide)⟩

end Closes

/-! ## In tokens -/

section Tokens
variable {key : String} {raw tail after front t : List Char} {v : Scalar}
  {number? : Numeral → Option Number}

/-- A text between quotes that needs no escape ends at the first quote. -/
theorem eq_of_plain {u : List Char} (hraw : StringBody raw) (hu : ∀ c ∈ u, c ≠ '"' ∧ c ≠ '\\')
    (h : raw ++ '"' :: tail = u ++ '"' :: after) : raw = u ∧ tail = after := by
  induction u generalizing raw with
  | nil =>
      cases hraw with
      | nil => exact ⟨rfl, (List.cons.inj h).2⟩
      | plain notQuote => exact absurd (List.cons.inj h).1 notQuote
      | short => exact absurd (List.cons.inj h).1 (by decide)
      | unit => exact absurd (List.cons.inj h).1 (by decide)
  | cons c u ih =>
      obtain ⟨⟨hquote, hback⟩, hrest⟩ := List.forall_mem_cons.mp hu
      cases hraw with
      | nil => exact absurd (List.cons.inj h).1.symm hquote
      | plain notQuote notBackslash notControl rest =>
          obtain ⟨rfl, hmore⟩ := List.cons.inj h
          obtain ⟨rfl, rfl⟩ := ih rest hrest hmore
          exact ⟨rfl, rfl⟩
      | short => exact absurd (List.cons.inj h).1.symm hback
      | unit => exact absurd (List.cons.inj h).1.symm hback

theorem IsSimple.plain (h : IsSimple key) : ∀ c ∈ key.toList, c ≠ '"' ∧ c ≠ '\\' := fun c hc => by
  have := h c hc
  simp only [List.mem_cons, not_or] at this
  exact ⟨this.1, this.2.1⟩

/-- A quote in or right behind the text between quotes, with a simple key and a quote behind it:
it is the closing one, or an escaped one before the end. -/
theorem inner_cases (hkey : IsSimple key) (hraw : StringBody raw)
    (h : raw ++ '"' :: tail = front ++ '"' :: (key.toList ++ '"' :: after))
    (hin : front.length ≤ raw.length) :
    (front = raw ∧ tail = key.toList ++ '"' :: after) ∨
      (raw = front ++ '"' :: key.toList ∧ after = tail) := by
  induction hraw generalizing front with
  | nil =>
      obtain rfl := List.length_eq_zero_iff.mp (Nat.le_zero.mp hin)
      exact .inl ⟨rfl, (List.cons.inj h).2⟩
  | @plain c s notQuote notBackslash notControl rest ih =>
      cases front with
      | nil => exact absurd (List.cons.inj h).1 notQuote
      | cons d front =>
          obtain ⟨rfl, hmore⟩ := List.cons.inj h
          rcases ih hmore (Nat.le_of_succ_le_succ hin) with ⟨rfl, ht⟩ | ⟨rfl, ht⟩
          · exact .inl ⟨rfl, ht⟩
          · exact .inr ⟨rfl, ht⟩
  | @short e c s listed rest ih =>
      rcases front with _ | ⟨d, _ | ⟨d', front⟩⟩
      · exact absurd (List.cons.inj h).1 (by decide)
      · -- the escaped character is the quote
        obtain ⟨rfl, htail⟩ := List.cons.inj h
        obtain ⟨rfl, hmore⟩ := List.cons.inj htail
        obtain ⟨rfl, rfl⟩ := eq_of_plain rest hkey.plain hmore
        exact .inr ⟨rfl, rfl⟩
      · obtain ⟨rfl, htail⟩ := List.cons.inj h
        obtain ⟨rfl, hmore⟩ := List.cons.inj htail
        simp only [List.length_cons, Nat.add_le_add_iff_right] at hin
        rcases ih hmore hin with ⟨rfl, ht⟩ | ⟨rfl, ht⟩
        · exact .inl ⟨rfl, ht⟩
        · exact .inr ⟨rfl, ht⟩
  | @unit h' s n hex rest ih =>
      have hdigits : '"' ∉ '\\' :: 'u' :: h' := by
        cases hex with
        | digits first second third fourth =>
            have hne {c : Char} {d : Nat} (hc : hexDigit? c = some d) : '"' ≠ c :=
              (isInner_of_hexDigit hc).1.symm
            simp [hne first, hne second, hne third, hne fourth]
      have hsplit : ('\\' :: 'u' :: h') ++ (s ++ '"' :: tail) =
          front ++ '"' :: (key.toList ++ '"' :: after) := by simpa using h
      obtain ⟨more, rfl, hmore⟩ := exists_behind hdigits hsplit
      simp only [List.length_append, List.length_cons] at hin
      rcases ih hmore (by omega) with ⟨rfl, ht⟩ | ⟨rfl, ht⟩
      · exact .inl ⟨by simp, ht⟩
      · exact .inr ⟨by simp, ht⟩

theorem quoted_append : quoted key ++ after = '"' :: (key.toList ++ '"' :: after) := by
  simp [quoted]

/-- The quoted key begins in a token: it ends with the token, or the token is followed by what
stands between two quotes. -/
theorem token_cases (hkey : IsSimple key) (ht : StrictToken number? t v)
    (h : t ++ tail = front ++ (quoted key ++ after)) (hin : front.length < t.length) :
    (quoted key <:+ t ∧ front.length + (quoted key).length = t.length ∧ after = tail) ∨
      tail = key.toList ++ '"' :: after := by
  rw [quoted_append] at h
  have hquote {t : List Char} (h : t ++ tail = front ++ '"' :: (key.toList ++ '"' :: after))
      (hin : front.length < t.length) : '"' ∈ t := by
    by_contra hnot
    obtain ⟨more, rfl, -⟩ := exists_behind hnot h
    rw [List.length_append] at hin
    omega
  cases ht with
  | word listed =>
      have := hquote h hin
      rcases cases_of_mem_words listed with ⟨rfl, -⟩ | ⟨rfl, -⟩ | ⟨rfl, -⟩ <;>
        exact absurd this (by decide)
  | number written =>
      exact absurd (hquote h hin) (Strict.notMem_spelling written (by decide) (by decide))
  | @string raw s quoted' =>
      have hraw := stringBody_of_quoted quoted'
      cases front with
      | nil =>
          have hrest : raw ++ '"' :: tail = key.toList ++ '"' :: after := by simpa using h
          obtain ⟨rfl, rfl⟩ := eq_of_plain hraw hkey.plain hrest
          exact .inl ⟨List.suffix_refl _, by simp [quoted], rfl⟩
      | cons d front =>
          have hrest : raw ++ '"' :: tail = front ++ '"' :: (key.toList ++ '"' :: after) := by
            simpa using (List.cons.inj (by simpa using h)).2
          simp only [List.length_cons, List.length_append, List.length_nil] at hin
          rcases inner_cases hkey hraw hrest (by omega) with ⟨-, ht⟩ | ⟨rfl, ht⟩
          · exact .inr ht
          · refine .inl ⟨⟨'"' :: front, by simp [quoted]⟩, ?_, ht⟩
            simp only [quoted, List.length_cons, List.length_append, List.length_nil]
            omega

end Tokens

/-! ## In forms -/

section Forms
variable {key : String} {after : List Char} {number? : Numeral → Option Number}

/-- Past a text that begins another one. -/
theorem exists_past {u t front w : List Char} (h : u ++ t = front ++ w)
    (hpast : u.length ≤ front.length) : ∃ more, front = u ++ more ∧ t = more ++ w := by
  obtain ⟨more, rfl⟩ : u <+: front :=
    List.prefix_of_prefix_length_le ⟨t, h⟩ (List.prefix_append front w) hpast
  rw [List.append_assoc, List.append_cancel_left_eq] at h
  exact ⟨more, rfl, h⟩

theorem quote_notMem_mark {c : Char} (hc : c ∈ marks) : '"' ∉ [c] := fun h => by
  obtain rfl := List.mem_singleton.mp h
  exact absurd hc (by decide)

/-- Past a text without quotes. -/
theorem exists_past_gap {g t front : List Char} (hg : '"' ∉ g)
    (h : g ++ t = front ++ (quoted key ++ after)) :
    ∃ more, front = g ++ more ∧ t = more ++ (quoted key ++ after) := by
  rw [quoted_append] at h ⊢
  exact exists_behind hg h

/-- Between two brackets. -/
theorem exists_between {b c : Char} (hb : b ∈ marks) (hc : c ∈ marks)
    {inner rest front : List Char}
    (h : b :: (inner ++ [c]) ++ rest = front ++ (quoted key ++ after))
    (hin : front.length < (b :: (inner ++ [c])).length) :
    ∃ more, front = b :: more ∧ inner ++ c :: rest = more ++ (quoted key ++ after) ∧
      more.length < inner.length := by
  have hsplit : [b] ++ (inner ++ c :: rest) = front ++ (quoted key ++ after) := by simpa using h
  obtain ⟨more, rfl, hmore⟩ := exists_past_gap (quote_notMem_mark hb) hsplit
  refine ⟨more, rfl, hmore, ?_⟩
  by_contra hpast
  obtain ⟨more', rfl, hlast⟩ := exists_past hmore (Nat.not_lt.mp hpast)
  obtain ⟨more'', rfl, -⟩ := exists_past_gap (g := [c]) (quote_notMem_mark hc) hlast
  simp only [List.length_append, List.length_cons, List.length_nil] at hin
  omega

theorem not_lt_of_gap {g t front : List Char} (hg : Blanks g)
    (h : g ++ t = front ++ (quoted key ++ after)) : ¬ front.length < g.length := by
  obtain ⟨more, rfl, -⟩ := exists_past_gap (quote_notMem_blanks hg) h
  rw [List.length_append]
  omega

/-- A simple key does not stand between two quotes where there is a comma or a colon. -/
theorem IsSimple.not_parted (hkey : IsSimple key) : ¬ Parted (key.toList ++ '"' :: after) := by
  intro h
  rcases h _ _ rfl with hmem | hmem
  · exact absurd (hkey ',' hmem) (by decide)
  · exact absurd (hkey ':' hmem) (by decide)

mutual

/-- Where a simple key occurs in a form, with a colon behind it, a written key ends. -/
theorem form_endsKey (hkey : IsSimple key) (hcolon : colonFollows after = true) :
    ∀ {o d : Nat} {f : Form} {rest front : List Char}, ValidForm number? f → Closes rest →
      f.text ++ rest = front ++ (quoted key ++ after) → front.length < f.text.length →
        ∃ k ∈ f.keys o d, EndsKey key (o + front.length) k
  | _, _, .scalar token _, rest, front, hf, hrest, h, hin => by
      rcases token_cases hkey hf h hin with ⟨-, -, rfl⟩ | rfl
      · exact absurd (hrest.noColon.symm.trans hcolon) Bool.false_ne_true
      · exact absurd hrest.parted hkey.not_parted
  | _, _, .emptyArray gap, rest, front, hf, _, h, hin => by
      obtain ⟨more, -, hmore, hlt⟩ := exists_between (by decide) (by decide) h hin
      exact absurd hlt (not_lt_of_gap hf hmore)
  | _, _, .emptyObject gap, rest, front, hf, _, h, hin => by
      obtain ⟨more, -, hmore, hlt⟩ := exists_between (by decide) (by decide) h hin
      exact absurd hlt (not_lt_of_gap hf hmore)
  | o, d, .array items, rest, front, hf, hrest, h, hin => by
      obtain ⟨more, rfl, hmore, hlt⟩ := exists_between (by decide) (by decide) h hin
      obtain ⟨k, hk, hends⟩ :=
        parts_endsKey hkey hcolon (o := o + 1) (d := d + 1) hf (hrest.bracket (.inl rfl)) hmore hlt
      exact ⟨k, hk, by rwa [List.length_cons, Nat.add_comm more.length, ← Nat.add_assoc]⟩
  | o, d, .object members, rest, front, hf, hrest, h, hin => by
      obtain ⟨more, rfl, hmore, hlt⟩ := exists_between (by decide) (by decide) h hin
      obtain ⟨k, hk, hends⟩ :=
        parts_endsKey hkey hcolon (o := o + 1) (d := d + 1) hf (hrest.bracket (.inr rfl)) hmore hlt
      exact ⟨k, hk, by rwa [List.length_cons, Nat.add_comm more.length, ← Nat.add_assoc]⟩
  | o, d, .property token name left right value, rest, front, ⟨htoken, hleft, hright, _, hvalue⟩,
      hrest, h, hin => by
      have hsplit : token ++ (left ++ ([':'] ++ (right ++ (value.text ++ rest)))) =
          front ++ (quoted key ++ after) := by simpa [Form.text] using h
      by_cases hlt : front.length < token.length
      · rcases token_cases hkey htoken hsplit hlt with ⟨hsuffix, hstop, -⟩ | hbetween
        · exact ⟨_, List.mem_cons_self, hsuffix, by rw [Nat.add_assoc, hstop]⟩
        · have hparted := (parted_mark (t := right ++ (value.text ++ rest)) (.inr rfl)).behind
            (quote_notMem_blanks hleft)
          exact absurd (hbetween ▸ hparted) hkey.not_parted
      · obtain ⟨m₁, rfl, h₁⟩ := exists_past hsplit (Nat.not_lt.mp hlt)
        obtain ⟨m₂, rfl, h₂⟩ := exists_past_gap (quote_notMem_blanks hleft) h₁
        obtain ⟨m₃, rfl, h₃⟩ := exists_past_gap (by decide) h₂
        obtain ⟨m₄, rfl, h₄⟩ := exists_past_gap (quote_notMem_blanks hright) h₃
        have hin' : m₄.length < value.text.length := by
          simp only [Form.text, List.length_append, List.length_cons, List.length_nil] at hin
          omega
        obtain ⟨k, hk, hends⟩ := form_endsKey hkey hcolon
          (o := o + token.length + left.length + 1 + right.length) (d := d) hvalue hrest h₄ hin'
        refine ⟨k, List.mem_cons_of_mem _ hk, ?_⟩
        convert hends using 1
        simp only [List.length_append, List.length_cons, List.length_nil]
        omega

theorem parts_endsKey (hkey : IsSimple key) (hcolon : colonFollows after = true) :
    ∀ {o d : Nat} {properties : Bool} {parts : Parts} {rest front : List Char},
      ValidParts number? properties parts → Closes rest →
        parts.text ++ rest = front ++ (quoted key ++ after) → front.length < parts.text.length →
          ∃ k ∈ parts.keys o d, EndsKey key (o + front.length) k
  | o, d, _, .last before part gap, rest, front, ⟨hbefore, hpart, hgap, _⟩, hrest, h, hin => by
      have hsplit : before ++ (part.text ++ (gap ++ rest)) = front ++ (quoted key ++ after) := by
        simpa [Parts.text] using h
      obtain ⟨m₁, rfl, h₁⟩ := exists_past_gap (quote_notMem_blanks hbefore) hsplit
      by_cases hlt : m₁.length < part.text.length
      · obtain ⟨k, hk, hends⟩ := form_endsKey hkey hcolon (o := o + before.length) (d := d) hpart
          (hrest.behind hgap) h₁ hlt
        exact ⟨k, hk, by rwa [List.length_append, ← Nat.add_assoc]⟩
      · obtain ⟨m₂, rfl, h₂⟩ := exists_past h₁ (Nat.not_lt.mp hlt)
        have hin' : m₂.length < gap.length := by
          simp only [Parts.text, List.length_append] at hin
          omega
        exact absurd hin' (not_lt_of_gap hgap h₂)
  | o, d, _, .next before part gap more, rest, front, ⟨⟨hbefore, hpart, hgap, _⟩, hmore⟩, hrest, h,
      hin => by
      have hsplit : before ++ (part.text ++ (gap ++ ([','] ++ (more.text ++ rest)))) =
          front ++ (quoted key ++ after) := by simpa [Parts.text] using h
      obtain ⟨m₁, rfl, h₁⟩ := exists_past_gap (quote_notMem_blanks hbefore) hsplit
      by_cases hlt : m₁.length < part.text.length
      · obtain ⟨k, hk, hends⟩ := form_endsKey hkey hcolon (o := o + before.length) (d := d) hpart
          (closes_comma.behind hgap) h₁ hlt
        exact ⟨k, List.mem_append_left _ hk, by rwa [List.length_append, ← Nat.add_assoc]⟩
      · obtain ⟨m₂, rfl, h₂⟩ := exists_past h₁ (Nat.not_lt.mp hlt)
        obtain ⟨m₃, rfl, h₃⟩ := exists_past_gap (quote_notMem_blanks hgap) h₂
        obtain ⟨m₄, rfl, h₄⟩ := exists_past_gap (by decide) h₃
        have hin' : m₄.length < more.text.length := by
          simp only [Parts.text, List.length_append, List.length_cons, List.length_nil] at hin
          omega
        obtain ⟨k, hk, hends⟩ := parts_endsKey hkey hcolon
          (o := o + before.length + part.text.length + gap.length + 1) (d := d) hmore hrest h₄ hin'
        refine ⟨k, List.mem_append_right _ hk, ?_⟩
        convert hends using 1
        simp only [List.length_append, List.length_cons, List.length_nil]
        omega

end

end Forms

end ModAtlas.Workspace
