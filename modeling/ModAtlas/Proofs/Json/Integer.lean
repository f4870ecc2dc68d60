import ModAtlas.Proofs.Json.Numeral

/-!
# Integers in decimal

The canonical decimal of an integer is a well-written numeral in ASCII digits, and an integer of
64 bits is the number of its decimal.
-/

namespace ModAtlas.Json.Numeral
open ModAtlas.Text

/-- The numeral of an integer in canonical decimal. -/
def ofInt (n : Int) : Numeral := ⟨n < 0, Nat.toDigits 10 n.natAbs, [], none⟩

/-! ## ASCII digits -/

theorem toNat_of_isDigit {c : Char} (h : c.isDigit = true) : 48 ≤ c.toNat ∧ c.toNat ≤ 57 := by
  simp only [Char.isDigit, Bool.and_eq_true, decide_eq_true_eq] at h
  exact h

theorem digitValue?_of_isDigit {c : Char} (h : c.isDigit = true) :
    digitValue? c = some (c.toNat - 48) := by
  obtain ⟨hlow, hhigh⟩ := toNat_of_isDigit h
  simp [digitValue?, digitZeros, hlow, hhigh]

theorem isDigit_of_mem_toDigits {n : Nat} {c : Char} (h : c ∈ Nat.toDigits 10 n) :
    c.isDigit = true :=
  Nat.isDigit_of_mem_toDigits (by decide) (by decide) h

theorem digitsValue_values_toDigits (n : Nat) :
    Number.digitsValue (values (Nat.toDigits 10 n)) = n := by
  have hfold (ds : List Char) (init : Nat) (hds : ∀ c ∈ ds, c.isDigit = true) :
      (values ds).foldl (fun v d => v * 10 + d) init = Nat.ofDigitChars 10 ds init := by
    induction ds generalizing init with
    | nil => rfl
    | cons c ds ih =>
        have hc := digitValue?_of_isDigit (hds c List.mem_cons_self)
        rw [Nat.ofDigitChars_cons, ← ih _ fun d hd => hds d (List.mem_cons_of_mem _ hd)]
        simp [values, hc, Nat.mul_comm]
  rw [Number.digitsValue, hfold _ _ fun c hc => isDigit_of_mem_toDigits hc]
  exact Nat.ofDigitChars_ten_toDigits

/-- The decimal of a positive number begins with no zero. -/
theorem toDigits_eq_cons {n : Nat} (hn : 0 < n) :
    ∃ c ds, Nat.toDigits 10 n = c :: ds ∧ '1' ≤ c ∧ c ≤ '9' := by
  induction n using Nat.strongRecOn with
  | _ n ih =>
      rw [Nat.toDigits_eq_if (by decide)]
      split
      · rename_i hlt
        have hdigit : ∀ d : Fin 10, 0 < d.val → '1' ≤ d.val.digitChar ∧ d.val.digitChar ≤ '9' := by
          decide
        exact ⟨_, [], rfl, hdigit ⟨n, hlt⟩ hn⟩
      · obtain ⟨c, ds, hcons, hc⟩ := ih (n / 10) (by omega) (by omega)
        exact ⟨c, ds ++ [(n % 10).digitChar], by rw [hcons]; rfl, hc⟩

/-! ## The numeral of an integer -/

theorem spelling_ofInt (n : Int) : (ofInt n).spelling = (toString n).toList := by
  cases n with
  | ofNat k =>
      have hsign : ¬ ((k : Int) < 0) := by omega
      have htext : (toString (Int.ofNat k)).toList = Nat.toDigits 10 k := by
        rw [Int.toString_eq_repr, Int.repr, Nat.repr_eq_ofList_toDigits, String.toList_ofList]
      rw [htext]
      simp [spelling, ofInt, hsign]
  | negSucc k =>
      have htext : (toString (Int.negSucc k)).toList = '-' :: Nat.toDigits 10 (k + 1) := by
        rw [Int.toString_eq_repr, Int.repr, Nat.repr_eq_ofList_toDigits, String.toList_append,
          String.toList_ofList, String.toList_ofList]
        rfl
      rw [htext]
      simp [spelling, ofInt]

theorem wellWritten_ofInt (n : Int) : (ofInt n).WellWritten isDecimalDigit where
  whole := by
    rcases Nat.eq_zero_or_pos n.natAbs with hzero | hpos
    · exact .inl (by simp [ofInt, hzero])
    · obtain ⟨c, ds, hcons, hc⟩ := toDigits_eq_cons hpos
      refine .inr ⟨c, ds, hcons, hc, fun d hd => ?_⟩
      have hmem : d ∈ Nat.toDigits 10 n.natAbs := by
        rw [hcons]
        exact List.mem_cons_of_mem _ hd
      rw [isDecimalDigit, digitValue?_of_isDigit (isDigit_of_mem_toDigits hmem)]
      rfl
  fraction := nofun
  exponent := nofun

theorem integer_ofInt (n : Int) : (ofInt n).integer = n := by
  simp only [integer, ofInt, digitsValue_values_toDigits, decide_eq_true_eq]
  split <;> omega

theorem isAscii_ofInt (n : Int) : (ofInt n).isAscii = true := by
  rw [isAscii, spelling_eq, List.all_eq_true]
  intro c hc
  have hcases : c = '-' ∨ c ∈ Nat.toDigits 10 n.natAbs := by
    by_cases hn : n < 0
    · simpa [ofInt, hn, fractionText, exponentText] using hc
    · exact .inr (by simpa [ofInt, hn, fractionText, exponentText] using hc)
  rcases hcases with rfl | hmem
  · decide
  · have := (toNat_of_isDigit (isDigit_of_mem_toDigits hmem)).2
    simp only [decide_eq_true_eq]
    omega

theorem number?_ofInt {n : Int} (h : fits64 n = true) : (ofInt n).number? = some (.int n) := by
  have hinteger : (ofInt n).isInteger = true := rfl
  rw [number?, hinteger, integer_ofInt, h]
  rfl

end ModAtlas.Json.Numeral
