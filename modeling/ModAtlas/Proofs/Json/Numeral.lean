import Mathlib.Data.List.Basic
import Mathlib.Data.List.TakeWhile
import ModAtlas.Json.Numeral

/-!
# How numerals are written

`WellWritten` is the grammar of numerals over a class of digits. `scan?` reads exactly the
well-written numerals, each as far as it goes.
-/

namespace ModAtlas.Json.Numeral

/-- A numeral is written by the rules: a whole part without needless zeros, a fraction and an
exponent that have digits when they are there. -/
structure WellWritten (digit : Char → Bool) (n : Numeral) : Prop where
  whole : n.whole = ['0'] ∨
    ∃ c ds, n.whole = c :: ds ∧ ('1' ≤ c ∧ c ≤ '9') ∧ ∀ d ∈ ds, digit d = true
  fraction : ∀ d ∈ n.fraction, digit d = true
  exponent : ∀ e, n.exponent = some e → (e.letter = 'e' ∨ e.letter = 'E') ∧
    (∀ s, e.sign = some s → s = '+' ∨ s = '-') ∧ e.digits ≠ [] ∧ ∀ d ∈ e.digits, digit d = true

/-- The characters of a fraction. -/
def fractionText (ds : List Char) : List Char := if ds.isEmpty then [] else '.' :: ds

/-- The characters of an exponent, if there is one. -/
def exponentText : Option Exponent → List Char
  | none => []
  | some e => exponentSpelling e

theorem spelling_eq (n : Numeral) :
    n.spelling = (if n.negative then ['-'] else []) ++ (n.whole ++
      (fractionText n.fraction ++ exponentText n.exponent)) := by
  unfold spelling fractionText exponentText
  cases n.exponent <;> simp

/-- A class of digits holds none of the signs that stand in a numeral. -/
structure IsDigitClass (digit : Char → Bool) : Prop where
  point : digit '.' = false
  lower : digit 'e' = false
  upper : digit 'E' = false
  plus : digit '+' = false
  minus : digit '-' = false

/-- No numeral goes on into this text. -/
def Ends (digit : Char → Bool) (r : List Char) : Prop :=
  ∀ c ∈ r.head?, digit c = false ∧ c ≠ '.' ∧ c ≠ 'e' ∧ c ≠ 'E'

/-! ## Characters of numerals -/

/-- The characters of numerals that are no digits. -/
def signs : List Char := ['-', '+', '.', 'e', 'E']

theorem mem_fractionText {ds : List Char} {c : Char} (hc : c ∈ fractionText ds) :
    c = '.' ∨ c ∈ ds := by
  cases ds with
  | nil => cases hc
  | cons d ds => exact List.mem_cons.mp hc

theorem WellWritten.mem_spelling {digit : Char → Bool} {n : Numeral} {c : Char}
    (h : n.WellWritten digit) (hc : c ∈ n.spelling) :
    c ∈ signs ∨ ('0' ≤ c ∧ c ≤ '9') ∨ digit c = true := by
  rw [spelling_eq, List.mem_append, List.mem_append, List.mem_append] at hc
  rcases hc with hsign | hwhole | hfraction | hexponent
  · split at hsign
    · obtain rfl := List.mem_singleton.mp hsign
      exact .inl (by decide)
    · cases hsign
  · rcases h.whole with hw | ⟨d, ds, hw, hd, hds⟩ <;> rw [hw] at hwhole
    · obtain rfl := List.mem_singleton.mp hwhole
      exact .inr (.inl (by decide))
    · rcases List.mem_cons.mp hwhole with rfl | hmem
      · exact .inr (.inl ⟨Char.le_trans (by decide : '0' ≤ '1') hd.1, hd.2⟩)
      · exact .inr (.inr (hds c hmem))
  · rcases mem_fractionText hfraction with rfl | hmem
    · exact .inl (by decide)
    · exact .inr (.inr (h.fraction c hmem))
  · cases he : n.exponent with
    | none =>
        rw [he] at hexponent
        cases hexponent
    | some e =>
        obtain ⟨hletter, hsign, -, hdigits⟩ := h.exponent e he
        rw [he, exponentText, exponentSpelling, List.mem_cons, List.mem_append,
          Option.mem_toList] at hexponent
        rcases hexponent with rfl | hmem | hmem
        · exact .inl (by rcases hletter with hl | hl <;> rw [hl] <;> decide)
        · exact .inl (by rcases hsign c hmem with rfl | rfl <;> decide)
        · exact .inr (.inr (hdigits c hmem))

/-- A numeral is well-written over every class that its digits belong to. -/
theorem WellWritten.imp {digit digit' : Char → Bool} {n : Numeral} (h : n.WellWritten digit)
    (himp : ∀ c ∈ n.spelling, digit c = true → digit' c = true) : n.WellWritten digit' where
  whole := h.whole.imp_right fun ⟨c, ds, hw, hc, hds⟩ =>
    ⟨c, ds, hw, hc, fun d hd => himp d (by rw [spelling_eq, hw]; simp [hd]) (hds d hd)⟩
  fraction d hd := by
    refine himp d ?_ (h.fraction d hd)
    have hne : n.fraction.isEmpty = false := by simp [List.ne_nil_of_mem hd]
    rw [spelling_eq, fractionText, hne]
    simp [hd]
  exponent e he := by
    obtain ⟨hletter, hsign, hne, hdigits⟩ := h.exponent e he
    refine ⟨hletter, hsign, hne, fun d hd => himp d ?_ (hdigits d hd)⟩
    rw [spelling_eq, he, exponentText, exponentSpelling]
    simp [hd]

/-! ## Digits in a row -/

section Rows
variable {digit : Char → Bool} {ds r : List Char}

/-- A text does not begin with a digit. -/
def NoDigit (digit : Char → Bool) (r : List Char) : Prop := ∀ c ∈ r.head?, digit c = false

theorem takeWhile_row (hds : ∀ d ∈ ds, digit d = true) (hr : NoDigit digit r) :
    (ds ++ r).takeWhile digit = ds := by
  rw [List.takeWhile_append_of_pos hds]
  cases r with
  | nil => simp
  | cons c r => simp [hr c rfl]

theorem dropWhile_row (hds : ∀ d ∈ ds, digit d = true) (hr : NoDigit digit r) :
    (ds ++ r).dropWhile digit = r := by
  rw [List.dropWhile_append_of_pos hds]
  cases r with
  | nil => simp
  | cons c r => simp [hr c rfl]

theorem Ends.noDigit (h : Ends digit r) : NoDigit digit r := fun c hc => (h c hc).1

end Rows

/-! ## Reading what is well written -/

section Complete
variable {digit : Char → Bool} (hdigit : IsDigitClass digit) {r : List Char}
include hdigit

theorem noDigit_exponentText {e : Option Exponent}
    (he : ∀ x, e = some x → x.letter = 'e' ∨ x.letter = 'E') (hr : Ends digit r) :
    NoDigit digit (exponentText e ++ r) := by
  intro c hc
  cases e with
  | none => exact (hr c hc).1
  | some x =>
      obtain rfl : x.letter = c := by simpa [exponentText, exponentSpelling] using hc
      rcases he x rfl with hx | hx <;> rw [hx]
      · exact hdigit.lower
      · exact hdigit.upper

theorem scanExponent_spelling {e : Option Exponent}
    (he : ∀ x, e = some x → (x.letter = 'e' ∨ x.letter = 'E') ∧
      (∀ s, x.sign = some s → s = '+' ∨ s = '-') ∧ x.digits ≠ [] ∧ ∀ d ∈ x.digits, digit d = true)
    (hr : Ends digit r) : scanExponent digit (exponentText e ++ r) = (e, r) := by
  cases e with
  | none =>
      cases r with
      | nil => rfl
      | cons c r =>
          obtain ⟨-, -, hlower, hupper⟩ := hr c rfl
          simp [exponentText, scanExponent, hlower, hupper]
  | some x =>
      obtain ⟨letter, sign, ds⟩ := x
      obtain ⟨hletter, hsign, hne, hds⟩ := he _ rfl
      have hafter : scanSign (sign.toList ++ (ds ++ r)) = (sign, ds ++ r) := by
        cases sign with
        | some s => simp [scanSign, hsign s rfl]
        | none =>
            obtain ⟨d, ds, rfl⟩ := List.exists_cons_of_ne_nil hne
            have hd : digit d = true := hds d List.mem_cons_self
            have hplus : d ≠ '+' := by
              rintro rfl
              exact absurd (hdigit.plus.symm.trans hd) Bool.false_ne_true
            have hminus : d ≠ '-' := by
              rintro rfl
              exact absurd (hdigit.minus.symm.trans hd) Bool.false_ne_true
            simp [scanSign, hplus, hminus]
      have htake := takeWhile_row hds hr.noDigit
      have hdrop := dropWhile_row hds hr.noDigit
      simp only [exponentText, exponentSpelling, List.cons_append, List.append_assoc, scanExponent,
        hletter, if_true, hafter, htake, hdrop]

theorem scanFraction_spelling {ds : List Char} {e : Option Exponent}
    (hds : ∀ d ∈ ds, digit d = true)
    (he : ∀ x, e = some x → x.letter = 'e' ∨ x.letter = 'E') (hr : Ends digit r) :
    scanFraction digit (fractionText ds ++ (exponentText e ++ r)) = (ds, exponentText e ++ r) := by
  cases ds with
  | nil =>
      have hpoint (u : List Char) : exponentText e ++ r ≠ '.' :: u := by
        intro h
        cases e with
        | none => exact (hr '.' (by rw [show r = '.' :: u from h]; rfl)).2.1 rfl
        | some x =>
            obtain ⟨hx, -⟩ := List.cons.inj h
            rcases he x rfl with hletter | hletter <;> simp [hletter] at hx
      rw [fractionText, List.isEmpty_nil, if_pos rfl, List.nil_append]
      unfold scanFraction
      split
      · rename_i u hu
        exact absurd hu (hpoint u)
      · rfl
  | cons d ds =>
      have htake := takeWhile_row hds (noDigit_exponentText hdigit he hr)
      have hdrop := dropWhile_row hds (noDigit_exponentText hdigit he hr)
      simp only [fractionText, List.isEmpty_cons, Bool.false_eq_true, if_false, List.cons_append,
        scanFraction]
      rw [List.cons_append] at htake hdrop
      simp only [htake, hdrop]

theorem noDigit_fractionText {ds u : List Char} (hu : NoDigit digit u) :
    NoDigit digit (fractionText ds ++ u) := by
  cases ds with
  | nil => exact hu
  | cons d ds =>
      intro c hc
      obtain rfl : '.' = c := by simpa [fractionText] using hc
      exact hdigit.point

omit hdigit in
theorem scanWhole_spelling {whole u : List Char}
    (hwhole : whole = ['0'] ∨
      ∃ c ds, whole = c :: ds ∧ ('1' ≤ c ∧ c ≤ '9') ∧ ∀ d ∈ ds, digit d = true)
    (hu : NoDigit digit u) : scanWhole digit (whole ++ u) = some (whole, u) := by
  rcases hwhole with rfl | ⟨c, ds, rfl, hc, hds⟩
  · simp [scanWhole]
  · have hzero : c ≠ '0' := by
      rintro rfl
      exact absurd hc.1 (by decide)
    rw [List.cons_append, scanWhole, if_neg hzero, if_pos hc, takeWhile_row hds hu,
      dropWhile_row hds hu]

omit hdigit in
theorem scanMinus_whole {whole u : List Char}
    (hwhole : whole = ['0'] ∨
      ∃ c ds, whole = c :: ds ∧ ('1' ≤ c ∧ c ≤ '9') ∧ ∀ d ∈ ds, digit d = true) :
    scanMinus (whole ++ u) = (false, whole ++ u) := by
  rcases hwhole with rfl | ⟨c, ds, rfl, hc, hds⟩
  · rfl
  · have hminus : c ≠ '-' := by
      rintro rfl
      exact absurd hc.1 (by decide)
    simp [scanMinus, hminus]

/-- A well-written numeral is read as far as it goes. -/
theorem scan?_spelling {n : Numeral} (hn : n.WellWritten digit) (hr : Ends digit r) :
    scan? digit (n.spelling ++ r) = some (n, r) := by
  obtain ⟨negative, whole, fraction, exponent⟩ := n
  have hletter (x : Exponent) (hx : exponent = some x) : x.letter = 'e' ∨ x.letter = 'E' :=
    (hn.exponent x hx).1
  have hfraction := scanFraction_spelling hdigit hn.fraction hletter hr
  have hrest : NoDigit digit (fractionText fraction ++ (exponentText exponent ++ r)) :=
    noDigit_fractionText hdigit (noDigit_exponentText hdigit hletter hr)
  have hwhole := scanWhole_spelling hn.whole hrest
  have hminus : scanMinus ((if negative then ['-'] else []) ++ (whole ++
      (fractionText fraction ++ (exponentText exponent ++ r)))) =
      (negative, whole ++ (fractionText fraction ++ (exponentText exponent ++ r))) := by
    cases negative with
    | true => rfl
    | false =>
        simpa using scanMinus_whole hn.whole (u := fractionText fraction ++
          (exponentText exponent ++ r))
  rw [spelling_eq]
  simp only [scan?, List.append_assoc, hminus, hwhole, hfraction,
    scanExponent_spelling hdigit hn.exponent hr]

end Complete

/-! ## What is read is well written -/

section Sound
variable {digit : Char → Bool} {t r : List Char}

theorem scanMinus_eq {negative : Bool} (h : scanMinus t = (negative, r)) :
    t = (if negative then ['-'] else []) ++ r := by
  cases t with
  | nil =>
      cases h
      rfl
  | cons c t =>
      rw [scanMinus] at h
      split at h
      · rename_i hc
        cases h
        simp [hc]
      · cases h
        rfl

theorem scanWhole_eq_some {whole : List Char} (h : scanWhole digit t = some (whole, r)) :
    t = whole ++ r ∧ (whole = ['0'] ∨
      ∃ c ds, whole = c :: ds ∧ ('1' ≤ c ∧ c ≤ '9') ∧ ∀ d ∈ ds, digit d = true) := by
  cases t with
  | nil => cases h
  | cons c t =>
      rw [scanWhole] at h
      split at h
      · rename_i hc
        cases h
        subst hc
        exact ⟨rfl, .inl rfl⟩
      split at h
      · rename_i hc
        cases h
        refine ⟨?_, .inr ⟨c, _, rfl, hc, fun d hd => List.mem_takeWhile_imp hd⟩⟩
        rw [List.cons_append, List.takeWhile_append_dropWhile]
      · cases h

theorem scanFraction_eq {ds : List Char} (h : scanFraction digit t = (ds, r)) :
    t = fractionText ds ++ r ∧ ∀ d ∈ ds, digit d = true := by
  unfold scanFraction at h
  split at h
  · rename_i u
    split at h
    · cases h
      exact ⟨rfl, by simp⟩
    · rename_i hne
      cases h
      refine ⟨?_, fun d hd => List.mem_takeWhile_imp hd⟩
      rw [fractionText, if_neg (by simpa using hne), List.cons_append,
        List.takeWhile_append_dropWhile]
  · cases h
    exact ⟨rfl, by simp⟩

theorem scanSign_eq {sign : Option Char} (h : scanSign t = (sign, r)) :
    t = sign.toList ++ r ∧ ∀ s, sign = some s → s = '+' ∨ s = '-' := by
  cases t with
  | nil =>
      cases h
      exact ⟨rfl, by simp⟩
  | cons c t =>
      rw [scanSign] at h
      split at h
      · rename_i hc
        cases h
        exact ⟨rfl, by rintro s ⟨⟩; exact hc⟩
      · cases h
        exact ⟨rfl, by simp⟩

theorem scanExponent_eq {e : Option Exponent} (h : scanExponent digit t = (e, r)) :
    t = exponentText e ++ r ∧ ∀ x, e = some x → (x.letter = 'e' ∨ x.letter = 'E') ∧
      (∀ s, x.sign = some s → s = '+' ∨ s = '-') ∧ x.digits ≠ [] ∧
        ∀ d ∈ x.digits, digit d = true := by
  cases t with
  | nil =>
      cases h
      exact ⟨rfl, by simp⟩
  | cons c t =>
      rw [scanExponent] at h
      split at h
      · rename_i hc
        cases hsign : scanSign t with
        | mk sign after =>
            rw [hsign] at h
            dsimp only at h
            obtain ⟨rfl, hsigns⟩ := scanSign_eq hsign
            split at h
            · cases h
              exact ⟨rfl, by simp⟩
            · rename_i hne
              cases h
              refine ⟨?_, ?_⟩
              · simp [exponentText, exponentSpelling]
              · rintro x ⟨⟩
                exact ⟨hc, hsigns, hne, fun d hd => List.mem_takeWhile_imp hd⟩
      · cases h
        exact ⟨rfl, by simp⟩

/-- What is read as a numeral is a well-written one and the text behind it. -/
theorem scan?_eq_some {n : Numeral} (h : scan? digit t = some (n, r)) :
    n.WellWritten digit ∧ t = n.spelling ++ r := by
  unfold scan? at h
  cases hminus : scanMinus t with
  | mk negative u =>
      cases hwhole : scanWhole digit u with
      | none => simp [hminus, hwhole] at h
      | some p =>
          obtain ⟨whole, v⟩ := p
          cases hfraction : scanFraction digit v with
          | mk fraction w =>
              cases hexponent : scanExponent digit w with
              | mk exponent r' =>
                  simp only [hminus, hwhole, hfraction, hexponent] at h
                  cases h
                  obtain ⟨rfl, hw⟩ := scanWhole_eq_some hwhole
                  obtain ⟨rfl, hf⟩ := scanFraction_eq hfraction
                  obtain ⟨rfl, he⟩ := scanExponent_eq hexponent
                  refine ⟨⟨hw, hf, he⟩, ?_⟩
                  rw [spelling_eq, scanMinus_eq hminus]
                  simp only [List.append_assoc]

end Sound

end ModAtlas.Json.Numeral
