import Mathlib.Data.Nat.Digits.Defs
import ModAtlas.Proofs.Json.Integer

/-!
# Decimals read back

The decimal of an integer is read back as that integer, as long as it has no more digits than may
be read. So the decimal of an index leads to the item at the index. A text with a character in it
that stands in no integer is not read; the decimal of a floating point number is such a text.
-/

namespace ModAtlas.Number
open ModAtlas.Text ModAtlas.Json

/-! ## Rows of digits -/

section Digits
variable {p : Char → Bool} {s : List Char}

theorem strip_eq_self (h : ∀ c ∈ s, p c = false) : strip p s = s := by
  have hkept {t : List Char} (ht : ∀ c ∈ t, p c = false) : t.dropWhile p = t := by
    cases t with
    | nil => rfl
    | cons c t => exact List.dropWhile_cons_of_neg (Bool.eq_false_iff.mp (ht c List.mem_cons_self))
  rw [strip, hkept h, hkept fun c hc => h c (List.mem_reverse.mp hc), List.reverse_reverse]

theorem digitRun_eq (h : ∀ c ∈ s, c.isDigit = true) : digitRun s = (Numeral.values s, []) := by
  induction s with
  | nil => rfl
  | cons c s ih =>
      obtain ⟨hc, hs⟩ := List.forall_mem_cons.mp h
      have hunderscore : c ≠ '_' := by
        rintro rfl
        revert hc
        decide
      rw [digitRun, Numeral.digitValue?_of_isDigit hc, ih hs]
      · simp [Numeral.values, Numeral.digitValue?_of_isDigit hc]
      · exact fun _ _ heq => absurd heq hunderscore

theorem isMargin_of_isDigit {c : Char} (h : c.isDigit = true) : isMargin c = false := by
  have hbounds := Numeral.toNat_of_isDigit h
  have hspace : c ≠ ' ' := by
    rintro rfl
    exact absurd hbounds.1 (by decide)
  simp only [isMargin, isAsciiBlank, Bool.or_eq_false_iff, beq_eq_false_iff_ne,
    Bool.and_eq_false_iff, decide_eq_false_iff_not]
  exact ⟨⟨hspace, .inr (by omega)⟩, .inl (by omega)⟩

/-- A row of digits is read as its value, with the sign before it. -/
theorem readInt?_digits (negative : Bool) (hne : s ≠ []) (h : ∀ c ∈ s, c.isDigit = true)
    (short : s.length ≤ digitLimit) :
    readInt? ((if negative then ['-'] else []) ++ s) =
      some (if negative then -(digitsValue (Numeral.values s) : Int)
        else digitsValue (Numeral.values s)) := by
  obtain ⟨c, rest, rfl⟩ := List.exists_cons_of_ne_nil hne
  have hother {d : Char} (hd : d.isDigit = false) : c ≠ d := by
    rintro rfl
    exact Bool.false_ne_true (hd.symm.trans (h _ List.mem_cons_self))
  have htrimmed : trimmed ((if negative then ['-'] else []) ++ c :: rest) =
      (if negative then ['-'] else []) ++ c :: rest := by
    apply strip_eq_self
    cases negative with
    | true => exact List.forall_mem_cons.mpr ⟨by decide, fun d hd => isMargin_of_isDigit (h d hd)⟩
    | false => exact fun d hd => isMargin_of_isDigit (h d hd)
  have hsigned : signed ((if negative then ['-'] else []) ++ c :: rest) =
      (negative, c :: rest) := by
    cases negative with
    | true => rfl
    | false =>
        rw [if_neg Bool.false_ne_true, List.nil_append, signed]
        · exact fun _ heq => absurd (List.cons.inj heq).1 (hother (by decide))
        · exact fun _ heq => absurd (List.cons.inj heq).1 (hother (by decide))
  have hdigits : digits (c :: rest) = (Numeral.values (c :: rest), []) := by
    have hhead : (c :: rest).head? ≠ some '_' := by
      simpa using hother (by decide)
    rw [digits, if_neg hhead, digitRun_eq h]
  have hshort : ¬ digitLimit < (Numeral.values (c :: rest)).length := by
    rw [Numeral.values, List.length_map]
    exact Nat.not_lt.mpr short
  rw [readInt?, htrimmed, hsigned]
  dsimp only
  rw [hdigits]
  simp only [Numeral.values, List.map_cons] at hshort ⊢
  rw [if_neg hshort]

end Digits

/-! ## Decimals -/

theorem length_toDigits_le {n : Nat} (h : n < 10 ^ digitLimit) :
    (Nat.toDigits 10 n).length ≤ digitLimit :=
  Nat.toDigits_length 10 n digitLimit (by decide) h

/-- Different numbers have different decimals. -/
theorem toString_injective : Function.Injective (toString : Nat → String) := by
  intro m n h
  have hdigits := congrArg String.toList h
  rw [Nat.toString_eq_ofList_toDigits, Nat.toString_eq_ofList_toDigits, String.toList_ofList,
    String.toList_ofList] at hdigits
  rw [← Numeral.digitsValue_values_toDigits m, hdigits, Numeral.digitsValue_values_toDigits]

/-- An integer that has no more digits than may be read is read from its decimal. -/
theorem readInt?_toString {n : Int} (h : n.natAbs < 10 ^ digitLimit) :
    readInt? (toString n).toList = some n := by
  have hspelling : (toString n).toList =
      (if decide (n < 0) then ['-'] else []) ++ Nat.toDigits 10 n.natAbs := by
    rw [← Numeral.spelling_ofInt]
    simp [Numeral.spelling, Numeral.ofInt]
  rw [hspelling, readInt?_digits _ Nat.toDigits_ne_nil
    (fun c hc => Numeral.isDigit_of_mem_toDigits hc) (length_toDigits_le h),
    Numeral.digitsValue_values_toDigits]
  simp only [decide_eq_true_eq, Option.some.injEq]
  split <;> omega

/-- So is one that 63 bits hold. -/
theorem readInt?_toString_natCast {n : Nat} (h : n < 2 ^ 63) :
    readInt? (toString n).toList = some (n : Int) := by
  have hlimit : 2 ^ 63 < 10 ^ digitLimit := by decide +kernel
  apply readInt?_toString (n := n)
  rw [Int.natAbs_natCast]
  exact h.trans hlimit

/-! ## Texts that are no integers -/

/-- A character that stands in no integer, neither as a part of it nor around it. -/
def isForeign (c : Char) : Bool :=
  !isBlank c && !isDecimalDigit c && c != '-' && c != '+' && c != '_'

section Foreign
variable {p : Char → Bool} {c : Char} {s : List Char}

theorem isBlank_of_isMargin (h : isMargin c = true) : isBlank c = true := by
  simp only [isMargin, isAsciiBlank, Bool.or_eq_true, beq_iff_eq, Bool.and_eq_true,
    decide_eq_true_eq] at h
  rcases h with (rfl | ⟨hlow, hhigh⟩) | ⟨-, hblank⟩
  · decide
  · simp [isBlank, hlow, hhigh]
  · exact hblank

theorem mem_dropWhile (hp : p c = false) (hc : c ∈ s) : c ∈ s.dropWhile p := by
  rw [← List.takeWhile_append_dropWhile (p := p) (l := s), List.mem_append] at hc
  rcases hc with htaken | hdropped
  · exact absurd (List.mem_takeWhile_imp htaken) (by simp [hp])
  · exact hdropped

theorem mem_strip (hp : p c = false) (hc : c ∈ s) : c ∈ strip p s := by
  rw [strip, List.mem_reverse]
  apply mem_dropWhile hp
  rw [List.mem_reverse]
  exact mem_dropWhile hp hc

theorem mem_trimmed (hblank : isBlank c = false) (hc : c ∈ s) : c ∈ trimmed s := by
  refine mem_strip ?_ hc
  by_contra h
  rw [isBlank_of_isMargin (Bool.not_eq_false _ ▸ h)] at hblank
  cases hblank

theorem mem_signed (hminus : c ≠ '-') (hplus : c ≠ '+') (hc : c ∈ s) : c ∈ (signed s).2 := by
  unfold signed
  split
  · exact (List.mem_cons.mp hc).resolve_left hminus
  · exact (List.mem_cons.mp hc).resolve_left hplus
  · exact hc

theorem mem_digitRun (hdigit : digitValue? c = none) (hunderscore : c ≠ '_') (hc : c ∈ s) :
    c ∈ (digitRun s).2 := by
  fun_induction digitRun s with
  | case1 => exact hc
  | case2 => exact hc
  | case3 d rest value hvalue more after hrest ih =>
      rw [hrest] at ih
      rcases List.mem_cons.mp hc with rfl | hc
      · exact absurd rfl hunderscore
      · rcases List.mem_cons.mp hc with rfl | hc
        · rw [hdigit] at hvalue
          cases hvalue
        · exact ih hc
  | case4 => exact hc
  | case5 d rest hcons value hvalue more after hrest ih =>
      rw [hrest] at ih
      rcases List.mem_cons.mp hc with rfl | hc
      · rw [hdigit] at hvalue
        cases hvalue
      · exact ih hc

theorem mem_digits (hdigit : digitValue? c = none) (hunderscore : c ≠ '_') (hc : c ∈ s) :
    c ∈ (digits s).2 := by
  rw [digits]
  split
  · exact hc
  · exact mem_digitRun hdigit hunderscore hc

/-- A text with a foreign character is not read. -/
theorem readInt?_eq_none (hforeign : isForeign c = true) (hc : c ∈ s) : readInt? s = none := by
  simp only [isForeign, isDecimalDigit, Bool.and_eq_true, Bool.not_eq_true', bne_iff_ne,
    Option.isSome_eq_false_iff, Option.isNone_iff_eq_none] at hforeign
  obtain ⟨⟨⟨⟨hblank, hdigit⟩, hminus⟩, hplus⟩, hunderscore⟩ := hforeign
  have hleft : c ∈ (digits (signed (trimmed s)).2).2 :=
    mem_digits hdigit hunderscore (mem_signed hminus hplus (mem_trimmed hblank hc))
  rw [readInt?]
  dsimp only
  split
  · rfl
  · rename_i hread
    rw [hread] at hleft
    cases hleft
  · rfl

end Foreign

/-- The decimal of a floating point number is laid out with a point or an exponent, if at all. -/
theorem exists_foreign_layOut (digits : List Char) (lead : Int) :
    Binary64.layOut digits lead = [] ∨ ∃ c ∈ Binary64.layOut digits lead, isForeign c = true := by
  have hpoint : isForeign '.' = true := by decide
  have hletter : isForeign 'e' = true := by decide
  unfold Binary64.layOut
  split
  · exact .inr ⟨'.', by simp, hpoint⟩
  · split
    · dsimp only
      split
      · exact .inr ⟨'.', by simp, hpoint⟩
      · exact .inr ⟨'.', by simp, hpoint⟩
    · split
      · exact .inl rfl
      · exact .inr ⟨'e', by simp, hletter⟩
      · exact .inr ⟨'.', by simp, hpoint⟩

/-- The decimal of a floating point number is never read as an integer. -/
theorem readInt?_text (x : Binary64) : readInt? x.text.toList = none := by
  cases x with
  | nan => decide
  | infinite negative => cases negative <;> decide
  | finite negative m e =>
      rw [Binary64.text]
      dsimp only
      split
      · rw [String.toList_ofList]
        exact readInt?_eq_none (c := '.') (by decide) (by simp)
      · rw [String.toList_ofList]
        rcases exists_foreign_layOut _ _ with hnil | ⟨c, hc, hforeign⟩
        · rw [hnil]
          cases negative <;> decide
        · exact readInt?_eq_none hforeign (List.mem_append_right _ hc)

end ModAtlas.Number
