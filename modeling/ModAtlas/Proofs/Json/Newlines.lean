import ModAtlas.Proofs.Json.Numeral
import ModAtlas.Proofs.Json.Quoted
import ModAtlas.Proofs.Text.Newlines

/-!
# Tokens and newlines

Strings and numerals end before a line end, so that their readers find the same token in a text and
in its unified form. There is one exception: a backslash takes the next character with it, and of
a CRLF that is the carriage return alone. Such a string is broken off at the line feed in the text
as it stands, and goes on in the unified one, where its escape is at fault.
-/

namespace ModAtlas.Json
open ModAtlas.Text

/-! ## Strings -/

section Strings
variable {s t u raw rest : List Char}

/-- What stands between quotes is on one line. -/
theorem Quoted.notMem_newline {c : Char} (h : Quoted s t) (hc : c = '\r' ∨ c = '\n') : c ∉ s := by
  have hinner {d : Char} (hd : IsInner d) : c ≠ d := by
    rintro rfl
    exact hc.elim hd.2.2.1 hd.2.2.2
  have hhex {u : List Char} {n : Nat} (hex : Hex4 u n) : c ∉ u := by
    cases hex with
    | digits first second third fourth =>
        simp [hinner (isInner_of_hexDigit first), hinner (isInner_of_hexDigit second),
          hinner (isInner_of_hexDigit third), hinner (isInner_of_hexDigit fourth)]
  have hback : c ≠ '\\' := by rcases hc with rfl | rfl <;> decide
  have hu : c ≠ 'u' := by rcases hc with rfl | rfl <;> decide
  induction h with
  | nil => exact List.not_mem_nil
  | plain notQuote notBackslash notControl rest ih =>
      simp [hinner (isInner_of_notControl notQuote notBackslash notControl), ih]
  | @short e d s t listed rest ih =>
      have he : c ≠ e := by
        rintro rfl
        rcases hc with rfl | rfl <;> simp [shortEscapes] at listed
      simp [hback, he, ih]
  | unit hex whole rest ih => simp [hback, hu, hhex hex, ih]
  | pair hexFirst hexSecond first second rest ih =>
      simp [hback, hu, hhex hexFirst, hhex hexSecond, ih]

theorem decode_eq_none {c : Char} (hclosing : closing? u = some (raw, rest)) (hmem : c ∈ raw)
    (hc : c = '\r' ∨ c = '\n') : decode raw = none := by
  by_contra hne
  obtain ⟨x, hx⟩ := Option.ne_none_iff_exists'.mp hne
  rw [closing?_eq_some hclosing] at hclosing
  exact (quoted_iff.mpr ⟨hclosing, hx⟩).notMem_newline hc hmem

theorem head?_ne_newline_of_closing? (h : closing? u = some (raw, rest)) :
    u.head? ≠ some '\n' := by
  intro hhead
  obtain ⟨more, rfl⟩ := List.head?_eq_some_iff.mp hhead
  simp [closing?] at h

/-- A character other than a backslash is inner, or a quote or a line end. -/
theorem isInner_of_ne {c : Char} (hlone : c = '\\' → u = [] → False)
    (hback : ∀ e rest, c = '\\' → u = e :: rest → False) (hquote : ¬ c = '"')
    (hend : ¬ (c = '\r' ∨ c = '\n')) : IsInner c := by
  refine ⟨hquote, ?_, fun h => hend (.inl h), fun h => hend (.inr h)⟩
  rintro rfl
  cases u with
  | nil => exact hlone rfl rfl
  | cons e rest => exact hback e rest rfl rfl

/-- A string that is closed is closed at the same quote when newlines are unified. -/
theorem closing?_unifyNewlines (h : closing? u = some (raw, rest)) :
    closing? (unifyNewlines u) = some (unifyNewlines raw, unifyNewlines rest) := by
  fun_induction closing? u generalizing raw with
  | case1 => cases h
  | case2 => cases h
  | case3 c tail ih =>
      obtain ⟨⟨raw', rest'⟩, hclosing, heq⟩ := Option.map_eq_some_iff.mp h
      cases heq
      have hhead := head?_ne_newline_of_closing? hclosing
      have hraw : raw'.head? ≠ some '\n' := by
        rw [closing?_eq_some hclosing] at hhead
        cases raw' with
        | nil => simp
        | cons d raw' => exact hhead
      rw [unifyNewlines_cons (by decide), unifyNewlines_step fun _ => hhead, closing?_escape,
        ih hclosing, unifyNewlines_cons (by decide), unifyNewlines_step fun _ => hraw]
      rfl
  | case4 tail hlone hback =>
      cases h
      rw [unifyNewlines_cons (by decide), closing?_quote]
      rfl
  | case5 => cases h
  | case6 c tail hlone hback hquote hend ih =>
      obtain ⟨⟨raw', rest'⟩, hclosing, heq⟩ := Option.map_eq_some_iff.mp h
      cases heq
      have hinner := isInner_of_ne hlone hback hquote hend
      rw [unifyNewlines_cons hinner.2.2.1, closing?_inner hinner, ih hclosing,
        unifyNewlines_cons hinner.2.2.1]
      rfl

/-- A string stands for the same characters when newlines are unified. -/
theorem decode_unifyNewlines (h : closing? u = some (raw, rest)) :
    decode (unifyNewlines raw) = decode raw := by
  by_cases hreturn : '\r' ∈ raw
  · -- a carriage return that is escaped is no better than a line feed
    rw [decode_eq_none h hreturn (.inl rfl), decode_eq_none (closing?_unifyNewlines h)
      (newline_mem_unifyNewlines hreturn) (.inr rfl)]
  · rw [unifyNewlines_eq_self hreturn]

/-- In the text of a string a backslash stands before a CRLF. -/
def EscapesNewline (u : List Char) : Prop :=
  ∃ body rest, u = body ++ '\\' :: '\r' :: '\n' :: rest ∧
    closing? (body ++ ['"']) = some (body, [])

theorem EscapesNewline.escape {c : Char} (h : EscapesNewline u) :
    EscapesNewline ('\\' :: c :: u) := by
  obtain ⟨body, rest, rfl, hclosing⟩ := h
  refine ⟨'\\' :: c :: body, rest, rfl, ?_⟩
  rw [List.cons_append, List.cons_append, closing?_escape, hclosing]
  rfl

theorem EscapesNewline.inner {c : Char} (h : EscapesNewline u) (hc : IsInner c) :
    EscapesNewline (c :: u) := by
  obtain ⟨body, rest, rfl, hclosing⟩ := h
  refine ⟨c :: body, rest, rfl, ?_⟩
  rw [List.cons_append, closing?_inner hc, hclosing]
  rfl

/-- A string that is not closed is not closed either when newlines are unified, unless it escapes
a CRLF: then what is closed holds a line feed. -/
theorem closing?_unifyNewlines_none (h : closing? u = none) :
    closing? (unifyNewlines u) = none ∨ EscapesNewline u ∧
      ∃ raw rest, closing? (unifyNewlines u) = some (raw, rest) ∧ '\n' ∈ raw := by
  fun_induction closing? u with
  | case1 => exact .inl rfl
  | case2 => exact .inl rfl
  | case3 c tail ih =>
      by_cases hcrlf : c = '\r' ∧ tail.head? = some '\n'
      · obtain ⟨rfl, hhead⟩ := hcrlf
        obtain ⟨more, rfl⟩ := List.head?_eq_some_iff.mp hhead
        rw [unifyNewlines_cons (by decide), unifyNewlines_crlf, closing?_escape]
        cases hmore : closing? (unifyNewlines more) with
        | none => exact .inl rfl
        | some p => exact .inr ⟨⟨[], more, rfl, rfl⟩, _, _, rfl, by simp⟩
      · rw [unifyNewlines_cons (by decide),
          unifyNewlines_step fun hc hhead => hcrlf ⟨hc, hhead⟩, closing?_escape]
        rcases ih (Option.map_eq_none_iff.mp h) with hnone | ⟨hescapes, raw, rest, hsome, hmem⟩
        · exact .inl (by rw [hnone]; rfl)
        · exact .inr ⟨hescapes.escape, _, _, by rw [hsome]; rfl, by simp [hmem]⟩
  | case4 => cases h
  | case5 c tail hlone hback hquote hend =>
      left
      obtain ⟨tail', htail⟩ : ∃ tail', unifyNewlines (c :: tail) = '\n' :: tail' := by
        rcases hend with rfl | rfl
        · exact exists_unifyNewlines_return tail
        · exact ⟨_, unifyNewlines_cons (by decide)⟩
      rw [htail]
      simp [closing?]
  | case6 c tail hlone hback hquote hend ih =>
      have hinner := isInner_of_ne hlone hback hquote hend
      rw [unifyNewlines_cons hinner.2.2.1, closing?_inner hinner]
      rcases ih (Option.map_eq_none_iff.mp h) with hnone | ⟨hescapes, raw, rest, hsome, hmem⟩
      · exact .inl (by rw [hnone]; rfl)
      · exact .inr ⟨hescapes.inner hinner, _, _, by rw [hsome]; rfl, by simp [hmem]⟩

end Strings

/-! ## Numerals -/

namespace Numeral

theorem scanMinus_unifyNewlines (t : List Char) :
    scanMinus (unifyNewlines t) = ((scanMinus t).1, unifyNewlines (scanMinus t).2) := by
  cases t with
  | nil => rfl
  | cons c t =>
      by_cases hc : c = '\r'
      · subst hc
        obtain ⟨t', ht⟩ := exists_unifyNewlines_return t
        simp [scanMinus, ht]
      · rw [unifyNewlines_cons hc, scanMinus, scanMinus]
        split
        · rfl
        · rw [unifyNewlines_cons hc]

theorem scanSign_unifyNewlines (t : List Char) :
    scanSign (unifyNewlines t) = ((scanSign t).1, unifyNewlines (scanSign t).2) := by
  cases t with
  | nil => rfl
  | cons c t =>
      by_cases hc : c = '\r'
      · subst hc
        obtain ⟨t', ht⟩ := exists_unifyNewlines_return t
        simp [scanSign, ht]
      · rw [unifyNewlines_cons hc, scanSign, scanSign]
        split
        · rfl
        · rw [unifyNewlines_cons hc]

section Scanning
variable {digit : Char → Bool} (hreturn : digit '\r' = false) (hfeed : digit '\n' = false)
include hreturn hfeed

theorem takeWhile_unifyNewlines (t : List Char) :
    (unifyNewlines t).takeWhile digit = t.takeWhile digit := by
  induction t with
  | nil => rfl
  | cons c t ih =>
      by_cases hc : c = '\r'
      · subst hc
        obtain ⟨t', ht⟩ := exists_unifyNewlines_return t
        simp [ht, hreturn, hfeed]
      · simp [unifyNewlines_cons hc, List.takeWhile_cons, ih]

theorem dropWhile_unifyNewlines (t : List Char) :
    (unifyNewlines t).dropWhile digit = unifyNewlines (t.dropWhile digit) := by
  induction t with
  | nil => rfl
  | cons c t ih =>
      by_cases hc : c = '\r'
      · subst hc
        obtain ⟨t', ht⟩ := exists_unifyNewlines_return t
        simp [ht, hreturn, hfeed]
      · rw [unifyNewlines_cons hc, List.dropWhile_cons, List.dropWhile_cons, ih]
        split
        · rfl
        · rw [unifyNewlines_cons hc]

theorem scanWhole_unifyNewlines (t : List Char) :
    scanWhole digit (unifyNewlines t) =
      (scanWhole digit t).map fun p => (p.1, unifyNewlines p.2) := by
  cases t with
  | nil => rfl
  | cons c t =>
      by_cases hc : c = '\r'
      · subst hc
        obtain ⟨t', ht⟩ := exists_unifyNewlines_return t
        rw [ht]
        rfl
      · rw [unifyNewlines_cons hc, scanWhole, scanWhole, takeWhile_unifyNewlines hreturn hfeed,
          dropWhile_unifyNewlines hreturn hfeed]
        split
        · rfl
        · split <;> rfl

theorem scanFraction_unifyNewlines (t : List Char) :
    scanFraction digit (unifyNewlines t) =
      ((scanFraction digit t).1, unifyNewlines (scanFraction digit t).2) := by
  by_cases hpoint : t.head? = some '.'
  · obtain ⟨rest, rfl⟩ := List.head?_eq_some_iff.mp hpoint
    rw [unifyNewlines_cons (by decide), scanFraction, scanFraction,
      takeWhile_unifyNewlines hreturn hfeed, dropWhile_unifyNewlines hreturn hfeed]
    split
    · rw [unifyNewlines_cons (by decide)]
    · rfl
  · have hother {u : List Char} (hu : u.head? ≠ some '.') : scanFraction digit u = ([], u) := by
      unfold scanFraction
      split
      · exact absurd rfl hu
      · rfl
    rw [hother hpoint, hother]
    rwa [ne_eq, head?_unifyNewlines (by decide) (by decide)]

theorem scanExponent_unifyNewlines (t : List Char) :
    scanExponent digit (unifyNewlines t) =
      ((scanExponent digit t).1, unifyNewlines (scanExponent digit t).2) := by
  cases t with
  | nil => rfl
  | cons c t =>
      by_cases hc : c = '\r'
      · subst hc
        obtain ⟨t', ht⟩ := exists_unifyNewlines_return t
        rw [ht]
        simp [scanExponent, ht]
      · rw [unifyNewlines_cons hc, scanExponent, scanExponent, scanSign_unifyNewlines]
        dsimp only
        rw [takeWhile_unifyNewlines hreturn hfeed, dropWhile_unifyNewlines hreturn hfeed]
        split
        · split
          · rw [unifyNewlines_cons hc]
          · rfl
        · rw [unifyNewlines_cons hc]

/-- The same numeral is read when newlines are unified. -/
theorem scan?_unifyNewlines (t : List Char) :
    scan? digit (unifyNewlines t) = (scan? digit t).map fun p => (p.1, unifyNewlines p.2) := by
  simp only [scan?, scanMinus_unifyNewlines, scanWhole_unifyNewlines hreturn hfeed]
  cases scanWhole digit (scanMinus t).2 with
  | none => rfl
  | some p =>
      simp [scanFraction_unifyNewlines hreturn hfeed, scanExponent_unifyNewlines hreturn hfeed]

end Scanning
end Numeral
end ModAtlas.Json
