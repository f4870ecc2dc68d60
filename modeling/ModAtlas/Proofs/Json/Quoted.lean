import Mathlib.Data.List.Basic
import ModAtlas.Json.Escape

/-!
# What stands between quotes

`Quoted` relates the text between the quotes of a string to the characters it stands for, one
constructor for each way to write a character. `closing?` and `decode` together read exactly that:
surrogate escapes count in pairs only, and control characters must be escaped. What `quote` writes
between the quotes stands for the string.
-/

namespace ModAtlas.Json

/-- The letters of the short escapes, each with what it stands for. -/
def shortEscapes : List (Char × Char) :=
  [('"', '"'), ('\\', '\\'), ('/', '/'), ('b', '\x08'), ('f', '\x0c'), ('n', '\n'), ('r', '\r'),
    ('t', '\t')]

/-- Four hexadecimal digits and the number that they write. -/
inductive Hex4 : List Char → Nat → Prop
  | digits {a b c d : Char} {i j k l : Nat} (first : hexDigit? a = some i)
      (second : hexDigit? b = some j) (third : hexDigit? c = some k)
      (fourth : hexDigit? d = some l) : Hex4 [a, b, c, d] (((i * 16 + j) * 16 + k) * 16 + l)

/-- The text between quotes and the characters that it stands for. -/
inductive Quoted : List Char → List Char → Prop
  | nil : Quoted [] []
  | plain {c : Char} {s t : List Char} (notQuote : c ≠ '"') (notBackslash : c ≠ '\\')
      (notControl : 0x20 ≤ c.toNat) (rest : Quoted s t) : Quoted (c :: s) (c :: t)
  | short {e c : Char} {s t : List Char} (listed : (e, c) ∈ shortEscapes) (rest : Quoted s t) :
      Quoted ('\\' :: e :: s) (c :: t)
  | unit {h s t : List Char} {n : Nat} (hex : Hex4 h n) (whole : n < 0xd800 ∨ 0xe000 ≤ n)
      (rest : Quoted s t) : Quoted ('\\' :: 'u' :: (h ++ s)) (Char.ofNat n :: t)
  | pair {h h' s t : List Char} {m n : Nat} (hexFirst : Hex4 h m) (hexSecond : Hex4 h' n)
      (first : 0xd800 ≤ m ∧ m < 0xdc00) (second : 0xdc00 ≤ n ∧ n < 0xe000) (rest : Quoted s t) :
      Quoted ('\\' :: 'u' :: (h ++ '\\' :: 'u' :: (h' ++ s)))
        (Char.ofNat (0x10000 + (m - 0xd800) * 0x400 + (n - 0xdc00)) :: t)

theorem escaped?_eq_some {e c : Char} : escaped? e = some c ↔ (e, c) ∈ shortEscapes := by
  unfold escaped?
  constructor
  · intro h
    by_cases hself : e = '"' ∨ e = '\\' ∨ e = '/'
    · rw [if_pos hself] at h
      cases h
      rcases hself with rfl | rfl | rfl <;> decide
    · rw [if_neg hself] at h
      repeat' split at h
      all_goals cases h
      all_goals subst e
      all_goals decide
  · intro h
    simp only [shortEscapes, List.mem_cons, Prod.mk.injEq, List.not_mem_nil, or_false] at h
    rcases h with ⟨rfl, rfl⟩ | ⟨rfl, rfl⟩ | ⟨rfl, rfl⟩ | ⟨rfl, rfl⟩ | ⟨rfl, rfl⟩ | ⟨rfl, rfl⟩ |
      ⟨rfl, rfl⟩ | ⟨rfl, rfl⟩ <;> rfl

/-! ## Hexadecimal digits -/

section Hex
variable {c : Char} {d n : Nat} {h s t : List Char}

/-- What is read after four digits. -/
def afterUnit (high : Option Nat) (n : Nat) (rest : List Char) : Option (List Char) :=
  match unit16 high n with
  | .char e => (decodeFrom .character rest).map (e :: ·)
  | .first f => decodeFrom (.lowBackslash f) rest
  | .lone => none

theorem decodeFrom_character : decodeFrom .character (c :: s) =
    if c = '\\' then decodeFrom .escape s
    else if c.toNat < 0x20 then none
    else (decodeFrom .character s).map (c :: ·) :=
  rfl

theorem decodeFrom_backslash : decodeFrom .character ('\\' :: s) = decodeFrom .escape s :=
  rfl

theorem decodeFrom_short {e : Char} (he : escaped? e = some c) :
    decodeFrom .escape (e :: s) = (decodeFrom .character s).map (c :: ·) := by
  rw [decodeFrom, he]

theorem decodeFrom_unit : decodeFrom .escape ('u' :: s) = decodeFrom (.hex none 4 0) s :=
  rfl

theorem decodeFrom_lowBackslash {high : Nat} : decodeFrom (.lowBackslash high) (c :: s) =
    if c = '\\' then decodeFrom (.lowLetter high) s else none :=
  rfl

theorem decodeFrom_lowLetter {high : Nat} : decodeFrom (.lowLetter high) (c :: s) =
    if c = 'u' then decodeFrom (.hex (some high) 4 0) s else none :=
  rfl

theorem decodeFrom_digit {high : Option Nat} {missing bits : Nat} (hd : hexDigit? c = some d) :
    decodeFrom (.hex high missing bits) (c :: s) =
      if 1 < missing then decodeFrom (.hex high (missing - 1) (bits * 16 + d)) s
      else afterUnit high (bits * 16 + d) s := by
  rw [decodeFrom, hd]
  rfl

theorem decodeFrom_hex (high : Option Nat) (hex : Hex4 h n) :
    decodeFrom (.hex high 4 0) (h ++ s) = afterUnit high n s := by
  cases hex with
  | digits first second third fourth =>
      simp [decodeFrom_digit first, decodeFrom_digit second, decodeFrom_digit third,
        decodeFrom_digit fourth]

/-- The next digit of a unit. -/
theorem exists_hexDigit {high : Option Nat} {missing bits : Nat}
    (ht : decodeFrom (.hex high missing bits) s = some t) :
    ∃ a i rest, s = a :: rest ∧ hexDigit? a = some i ∧
      (1 < missing → decodeFrom (.hex high (missing - 1) (bits * 16 + i)) rest = some t) := by
  rcases s with _ | ⟨a, rest⟩
  · cases ht
  cases ha : hexDigit? a with
  | none =>
      rw [decodeFrom, ha] at ht
      cases ht
  | some i =>
      rw [decodeFrom_digit ha] at ht
      exact ⟨a, i, rest, rfl, ha, fun hmore => by rwa [if_pos hmore] at ht⟩

theorem exists_hex4 {high : Option Nat} (ht : decodeFrom (.hex high 4 0) s = some t) :
    ∃ h n rest, s = h ++ rest ∧ Hex4 h n := by
  obtain ⟨a, i, s₁, rfl, ha, h₁⟩ := exists_hexDigit ht
  obtain ⟨b, j, s₂, rfl, hb, h₂⟩ := exists_hexDigit (h₁ (by decide))
  obtain ⟨c, k, s₃, rfl, hc, h₃⟩ := exists_hexDigit (h₂ (by decide))
  obtain ⟨d, l, s₄, rfl, hd, -⟩ := exists_hexDigit (h₃ (by decide))
  exact ⟨[a, b, c, d], _, s₄, rfl, .digits ha hb hc hd⟩

end Hex

/-! ## The closing quote -/

section Closing
variable {c : Char} {d n : Nat} {h s t : List Char}

/-- A character without a meaning of its own between quotes. -/
def IsInner (c : Char) : Prop := c ≠ '"' ∧ c ≠ '\\' ∧ c ≠ '\r' ∧ c ≠ '\n'

theorem closing?_quote : closing? ('"' :: s) = some ([], s) := by
  simp [closing?]

theorem closing?_inner (hc : IsInner c) :
    closing? (c :: s) = (closing? s).map fun p => (c :: p.1, p.2) := by
  obtain ⟨hquote, hback, hreturn, hfeed⟩ := hc
  rw [closing?, if_neg hquote, if_neg (by simp [hreturn, hfeed])]
  · exact fun h _ => hback h
  · exact fun _ _ h _ => hback h

theorem isInner_of_hexDigit (hd : hexDigit? c = some d) : IsInner c := by
  refine ⟨?_, ?_, ?_, ?_⟩ <;>
  · rintro rfl
    cases hd

theorem closing?_hex4 (hex : Hex4 h n) :
    closing? (h ++ s) = (closing? s).map fun p => (h ++ p.1, p.2) := by
  cases hex with
  | digits first second third fourth =>
      simp [closing?_inner, isInner_of_hexDigit first, isInner_of_hexDigit second,
        isInner_of_hexDigit third, isInner_of_hexDigit fourth, Function.comp_def]

theorem closing?_escape {e : Char} :
    closing? ('\\' :: e :: s) = (closing? s).map fun p => ('\\' :: e :: p.1, p.2) := by
  rw [closing?]

theorem isInner_of_notControl (notQuote : c ≠ '"') (notBackslash : c ≠ '\\')
    (notControl : 0x20 ≤ c.toNat) : IsInner c := by
  refine ⟨notQuote, notBackslash, ?_, ?_⟩ <;>
  · rintro rfl
    revert notControl
    decide

end Closing

/-! ## Reading what stands between quotes -/

theorem closing?_quoted {s t : List Char} (h : Quoted s t) (r : List Char) :
    closing? (s ++ '"' :: r) = some (s, r) := by
  induction h with
  | nil => exact closing?_quote
  | plain notQuote notBackslash notControl rest ih =>
      rw [List.cons_append, closing?_inner (isInner_of_notControl notQuote notBackslash notControl),
        ih]
      rfl
  | short listed rest ih =>
      rw [List.cons_append, List.cons_append, closing?_escape, ih]
      rfl
  | unit hex whole rest ih =>
      rw [List.cons_append, List.cons_append, closing?_escape, List.append_assoc,
        closing?_hex4 hex, ih]
      rfl
  | pair hexFirst hexSecond first second rest ih =>
      simp only [List.cons_append, List.append_assoc]
      rw [closing?_escape, closing?_hex4 hexFirst, closing?_escape, closing?_hex4 hexSecond, ih]
      rfl

theorem decodeFrom_quoted {s t : List Char} (h : Quoted s t) :
    decodeFrom .character s = some t := by
  induction h with
  | nil => rfl
  | plain notQuote notBackslash notControl rest ih =>
      rw [decodeFrom_character, if_neg notBackslash, if_neg (Nat.not_lt.mpr notControl), ih]
      rfl
  | short listed rest ih =>
      rw [decodeFrom_backslash, decodeFrom_short (escaped?_eq_some.mpr listed), ih]
      rfl
  | @unit h s t n hex whole rest ih =>
      have hunit : unit16 none n = .char (Char.ofNat n) := by
        unfold unit16
        dsimp only
        rw [if_neg (by omega), if_neg (by omega)]
      rw [decodeFrom_backslash, decodeFrom_unit, decodeFrom_hex none hex]
      simp [afterUnit, hunit, ih]
  | @pair h h' s t m n hexFirst hexSecond first second rest ih =>
      have hfirst : unit16 none m = .first m := by
        unfold unit16
        dsimp only
        rw [if_pos first]
      have hsecond : unit16 (some m) n =
          .char (Char.ofNat (0x10000 + (m - 0xd800) * 0x400 + (n - 0xdc00))) := by
        unfold unit16
        dsimp only
        rw [if_pos second]
      rw [decodeFrom_backslash, decodeFrom_unit, decodeFrom_hex none hexFirst]
      simp [afterUnit, hfirst, decodeFrom_lowBackslash, decodeFrom_lowLetter,
        decodeFrom_hex (some m) hexSecond, hsecond, ih]

/-- What follows a backslash, when the text can be read. -/
theorem escape_cases {e : Char} {s t : List Char} (ht : decodeFrom .escape (e :: s) = some t) :
    (∃ c u, (e, c) ∈ shortEscapes ∧ t = c :: u ∧ decodeFrom .character s = some u) ∨
      e = 'u' ∧ ∃ h n rest, s = h ++ rest ∧ Hex4 h n ∧ afterUnit none n rest = some t := by
  cases he : escaped? e with
  | some c =>
      rw [decodeFrom_short he] at ht
      obtain ⟨u, hu, rfl⟩ := Option.map_eq_some_iff.mp ht
      exact .inl ⟨c, u, escaped?_eq_some.mp he, rfl, hu⟩
  | none =>
      by_cases hletter : e = 'u'
      · subst hletter
        rw [decodeFrom_unit] at ht
        obtain ⟨h, n, rest, rfl, hex⟩ := exists_hex4 ht
        exact .inr ⟨rfl, h, n, rest, rfl, hex, by rwa [decodeFrom_hex none hex] at ht⟩
      · simp [decodeFrom, he, hletter] at ht

/-- What follows a unit: a character, or a second unit that makes a pair. -/
theorem afterUnit_cases {n : Nat} {s t : List Char} (ht : afterUnit none n s = some t) :
    ((n < 0xd800 ∨ 0xe000 ≤ n) ∧ ∃ u, t = Char.ofNat n :: u ∧ decodeFrom .character s = some u) ∨
      (0xd800 ≤ n ∧ n < 0xdc00) ∧ ∃ h m rest u, s = '\\' :: 'u' :: (h ++ rest) ∧ Hex4 h m ∧
        (0xdc00 ≤ m ∧ m < 0xe000) ∧
        t = Char.ofNat (0x10000 + (n - 0xd800) * 0x400 + (m - 0xdc00)) :: u ∧
        decodeFrom .character rest = some u := by
  unfold afterUnit unit16 at ht
  dsimp only at ht
  by_cases hfirst : 0xd800 ≤ n ∧ n < 0xdc00
  · rw [if_pos hfirst] at ht
    replace ht : decodeFrom (.lowBackslash n) s = some t := ht
    refine .inr ⟨hfirst, ?_⟩
    rcases s with _ | ⟨b, _ | ⟨l, s⟩⟩
    · cases ht
    · rw [decodeFrom_lowBackslash, Option.ite_none_right_eq_some] at ht
      cases ht.2
    · rw [decodeFrom_lowBackslash, Option.ite_none_right_eq_some, decodeFrom_lowLetter,
        Option.ite_none_right_eq_some] at ht
      obtain ⟨rfl, rfl, ht⟩ := ht
      obtain ⟨h, m, rest, rfl, hex⟩ := exists_hex4 ht
      rw [decodeFrom_hex _ hex] at ht
      unfold afterUnit unit16 at ht
      dsimp only at ht
      by_cases hsecond : 0xdc00 ≤ m ∧ m < 0xe000
      · rw [if_pos hsecond] at ht
        obtain ⟨u, hu, rfl⟩ := Option.map_eq_some_iff.mp ht
        exact ⟨h, m, rest, u, rfl, hex, hsecond, rfl, hu⟩
      · rw [if_neg hsecond] at ht
        cases ht
  · rw [if_neg hfirst] at ht
    by_cases hlone : 0xdc00 ≤ n ∧ n < 0xe000
    · rw [if_pos hlone] at ht
      cases ht
    · rw [if_neg hlone] at ht
      obtain ⟨u, hu, rfl⟩ := Option.map_eq_some_iff.mp ht
      exact .inl ⟨by omega, u, rfl, hu⟩

/-- What stands before a closing quote and can be read is written by the rules. -/
theorem quoted_of_decodeFrom {s t r : List Char} (hclosing : closing? (s ++ '"' :: r) = some (s, r))
    (hdecode : decodeFrom .character s = some t) : Quoted s t := by
  -- by length, since an escape takes several characters at once
  induction hlength : s.length using Nat.strongRecOn generalizing s t with
  | ind n ih =>
      subst hlength
      rcases s with _ | ⟨c, s⟩
      · cases hdecode
        exact .nil
      rw [decodeFrom_character] at hdecode
      by_cases hback : c = '\\'
      · subst hback
        rw [if_pos rfl] at hdecode
        rcases s with _ | ⟨e, s⟩
        · cases hdecode
        have hinner : closing? (s ++ '"' :: r) = some (s, r) := by
          simpa [closing?_escape] using hclosing
        -- a short escape, a unit, or two units that make a pair
        rcases escape_cases hdecode with ⟨c, u, listed, rfl, hu⟩ | ⟨rfl, h, n, rest, rfl, hex, ht⟩
        · exact .short listed (ih s.length (by simp only [List.length_cons]; omega) hinner hu rfl)
        · have hrest : closing? (rest ++ '"' :: r) = some (rest, r) := by
            simpa [List.append_assoc, closing?_hex4 hex] using hinner
          rcases afterUnit_cases ht with ⟨whole, u, rfl, hu⟩ |
            ⟨first, h', m, rest', u, rfl, hex', second, rfl, hu⟩
          · exact .unit hex whole (ih rest.length (by simp; omega) hrest hu rfl)
          · have hrest' : closing? (rest' ++ '"' :: r) = some (rest', r) := by
              simpa [closing?_escape, List.append_assoc, closing?_hex4 hex'] using hrest
            exact .pair hex hex' first second (ih rest'.length (by simp; omega) hrest' hu rfl)
      · rw [if_neg hback] at hdecode
        by_cases hcontrol : c.toNat < 0x20
        · rw [if_pos hcontrol] at hdecode
          cases hdecode
        · rw [if_neg hcontrol] at hdecode
          obtain ⟨u, hu, rfl⟩ := Option.map_eq_some_iff.mp hdecode
          have hquote : c ≠ '"' := by
            rintro rfl
            rw [List.cons_append, closing?_quote] at hclosing
            cases hclosing
          have hnotControl := Nat.not_lt.mp hcontrol
          have hinner : closing? (s ++ '"' :: r) = some (s, r) := by
            simpa [closing?_inner (isInner_of_notControl hquote hback hnotControl)] using hclosing
          exact .plain hquote hback hnotControl (ih s.length (by simp) hinner hu rfl)

/-- Between quotes one reads exactly the texts that stand for characters by the rules. -/
theorem quoted_iff {s r : List Char} {x : String} :
    Quoted s x.toList ↔ closing? (s ++ '"' :: r) = some (s, r) ∧ decode s = some x := by
  unfold decode
  constructor
  · intro h
    exact ⟨closing?_quoted h r, by simp [decodeFrom_quoted h]⟩
  · rintro ⟨hclosing, hdecode⟩
    obtain ⟨t, ht, rfl⟩ := Option.map_eq_some_iff.mp hdecode
    simpa using quoted_of_decodeFrom hclosing ht

/-- The text that `closing?` cuts off. -/
theorem closing?_eq_some {t s r : List Char} (h : closing? t = some (s, r)) :
    t = s ++ '"' :: r := by
  fun_induction closing? t generalizing s with
  | case1 => cases h
  | case2 => cases h
  | case3 c rest ih =>
      obtain ⟨⟨s', r'⟩, hclosing, heq⟩ := Option.map_eq_some_iff.mp h
      cases heq
      rw [ih hclosing]
      rfl
  | case4 rest hlone hback =>
      cases h
      rfl
  | case5 => cases h
  | case6 c rest hlone hback hquote hend ih =>
      obtain ⟨⟨s', r'⟩, hclosing, heq⟩ := Option.map_eq_some_iff.mp h
      cases heq
      rw [ih hclosing]
      rfl

/-! ## Writing strings -/

theorem hexDigit?_digitChar {n : Nat} (h : n < 16) : hexDigit? (Nat.digitChar n) = some n := by
  revert n
  decide

/-- A control character is written as a unit. -/
theorem Quoted.control {c : Char} {s t : List Char} (h : c.toNat < 0x20) (rest : Quoted s t) :
    Quoted ('\\' :: 'u' :: '0' :: '0' :: Nat.digitChar (c.toNat / 16) ::
      Nat.digitChar (c.toNat % 16) :: s) (c :: t) := by
  have hhex : Hex4 ['0', '0', Nat.digitChar (c.toNat / 16), Nat.digitChar (c.toNat % 16)]
      (((0 * 16 + 0) * 16 + c.toNat / 16) * 16 + c.toNat % 16) :=
    .digits (by decide) (by decide) (hexDigit?_digitChar (by omega))
      (hexDigit?_digitChar (by omega))
  have hvalue : ((0 * 16 + 0) * 16 + c.toNat / 16) * 16 + c.toNat % 16 = c.toNat := by omega
  rw [hvalue] at hhex
  have hunit := rest.unit hhex (.inl (by omega))
  rwa [Char.ofNat_toNat] at hunit

theorem Quoted.encodeChar {s t : List Char} (c : Char) (rest : Quoted s t) :
    Quoted (Json.encodeChar c ++ s) (c :: t) := by
  unfold Json.encodeChar
  split
  · rename_i hself
    exact .short (by rcases hself with rfl | rfl <;> decide) rest
  rename_i hplain
  rw [not_or] at hplain
  iterate 5
    split
    · subst c
      exact .short (by decide) rest
  split
  · rename_i hcontrol
    exact rest.control hcontrol
  · rename_i hcontrol
    exact .plain hplain.1 hplain.2 (Nat.not_lt.mp hcontrol) rest

/-- What is written between the quotes of a string stands for its characters. -/
theorem quoted_encode (s : List Char) : Quoted (s.flatMap encodeChar) s := by
  induction s with
  | nil => exact .nil
  | cons c s ih =>
      rw [List.flatMap_cons]
      exact ih.encodeChar c

end ModAtlas.Json
