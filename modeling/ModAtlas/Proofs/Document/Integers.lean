import Mathlib.Algebra.Ring.Int.Defs
import ModAtlas.Proofs.Document.Grammar
import ModAtlas.Proofs.Document.Ranges
import ModAtlas.Proofs.Number.Overflow

/-!
# Integers in documents

A token of an optional minus sign and digits is a number with the value that it denotes in
decimal, exactly when that fits into 64 bits, is beyond all floating point numbers, or is written
in digits outside ASCII. Any other such token is the nearest floating point number.
-/

namespace ModAtlas.Document
open ModAtlas.Json ModAtlas.Text

/-! ## What tokens denote -/

/-- A token is made of an optional minus sign and digits, and denotes this integer in decimal. -/
inductive Denotes : List Char → Int → Prop
  | natural {ds : List Char} (nonempty : ds ≠ []) (digits : ∀ d ∈ ds, isDecimalDigit d = true) :
      Denotes ds (Number.digitsValue (Numeral.values ds))
  | negative {ds : List Char} (nonempty : ds ≠ []) (digits : ∀ d ∈ ds, isDecimalDigit d = true) :
      Denotes ('-' :: ds) (-(Number.digitsValue (Numeral.values ds) : Int))

theorem Denotes.digit_of_mem {t : List Char} {n : Int} (h : Denotes t n) {c : Char} (hc : c ∈ t) :
    c = '-' ∨ isDecimalDigit c = true := by
  cases h with
  | natural _ digits => exact .inr (digits c hc)
  | negative _ digits => exact (List.mem_cons.mp hc).imp_right (digits c)

theorem Denotes.ne_nil {t : List Char} {n : Int} (h : Denotes t n) : t ≠ [] := by
  cases h with
  | natural nonempty _ => exact nonempty
  | negative _ _ => exact List.cons_ne_nil _ _

/-- Signs other than the minus sign, quotes and brackets stand in no such token. -/
theorem Denotes.notMem {t : List Char} {n : Int} (h : Denotes t n) {c : Char} (hminus : c ≠ '-')
    (hdigit : isDecimalDigit c = false) : c ∉ t := by
  intro hc
  rcases h.digit_of_mem hc with rfl | hd
  · exact hminus rfl
  · exact Bool.false_ne_true (hdigit.symm.trans hd)

/-- The numeral that is spelled by such a token is an integer, the one that the token denotes. -/
theorem Denotes.numeral {m : Numeral} {n : Int} (h : Denotes m.spelling n)
    (written : m.WellWritten isDecimalDigit) : m.isInteger = true ∧ m.integer = n := by
  have hspelling := Numeral.spelling_eq m
  have hfraction : m.fraction = [] := by
    by_contra hne
    refine h.notMem (c := '.') (by decide) (by decide) ?_
    simp [hspelling, Numeral.fractionText, hne]
  have hexponent : m.exponent = none := by
    cases he : m.exponent with
    | none => rfl
    | some e =>
        have hin : e.letter ∈ m.spelling := by
          rw [hspelling, he, Numeral.exponentText, Numeral.exponentSpelling]
          simp
        rcases (written.exponent e he).1 with hletter | hletter <;> rw [hletter] at hin
        · exact absurd hin (h.notMem (by decide) (by decide))
        · exact absurd hin (h.notMem (by decide) (by decide))
  refine ⟨by simp [Numeral.isInteger, hfraction, hexponent], ?_⟩
  -- the sign of the token is the sign of the numeral, for no digit is a minus sign
  have hminus : isDecimalDigit '-' = false := by decide
  rw [hspelling, hfraction, hexponent] at h
  simp only [Numeral.fractionText, Numeral.exponentText, List.isEmpty_nil, if_true,
    List.append_nil] at h
  rw [Numeral.integer]
  cases hnegative : m.negative with
  | true =>
      rw [hnegative] at h
      generalize htoken : (if true = true then ['-'] else []) ++ m.whole = t at h
      cases h with
      | natural _ digits =>
          have hin := digits '-' (by rw [← htoken]; simp)
          exact absurd hin (by rw [hminus]; exact Bool.false_ne_true)
      | negative _ _ =>
          obtain rfl : m.whole = _ := (List.cons.inj htoken).2
          rfl
  | false =>
      rw [hnegative] at h
      generalize htoken : (if false = true then ['-'] else []) ++ m.whole = t at h
      obtain rfl : m.whole = t := htoken
      generalize hwhole : m.whole = t at h
      cases h with
      | natural _ _ => rfl
      | negative _ _ =>
          rcases written.whole with hw | ⟨c, ds, hw, hc, -⟩ <;> rw [hw] at hwhole
          · cases hwhole
          · obtain rfl := (List.cons.inj hwhole).1
            exact absurd hc.1 (by decide)

/-- A form that is written in this way is a number. -/
theorem Denotes.form {f : Form} {n : Int} (h : Denotes f.text n) (valid : f.Valid Gap Token) :
    ∃ (m : Numeral) (v : Number), f = .scalar m.spelling (.number v) ∧
      m.WellWritten isDecimalDigit ∧ numberOf m = .ok v := by
  have hquote : '"' ∉ f.text := h.notMem (by decide) (by decide)
  cases f with
  | scalar token value =>
      cases valid with
      | word listed =>
          rcases cases_of_mem_words listed with ⟨rfl, -⟩ | ⟨rfl, -⟩ | ⟨rfl, -⟩
          · exact absurd List.mem_cons_self (h.notMem (c := 'n') (by decide) (by decide))
          · exact absurd List.mem_cons_self (h.notMem (c := 't') (by decide) (by decide))
          · exact absurd List.mem_cons_self (h.notMem (c := 'f') (by decide) (by decide))
      | string _ => exact absurd List.mem_cons_self hquote
      | number written value => exact ⟨_, _, rfl, written, value⟩
  | property key name left right value =>
      obtain ⟨body, -, hkey⟩ := valid.1.quoted
      rw [Form.text, hkey] at hquote
      exact absurd List.mem_cons_self hquote
  | emptyArray gap => exact absurd List.mem_cons_self (h.notMem (c := '[') (by decide) (by decide))
  | array items => exact absurd List.mem_cons_self (h.notMem (c := '[') (by decide) (by decide))
  | emptyObject gap =>
      exact absurd List.mem_cons_self (h.notMem (c := '\x7b') (by decide) (by decide))
  | object members =>
      exact absurd List.mem_cons_self (h.notMem (c := '\x7b') (by decide) (by decide))

/-! ## The number of an integer -/

theorem fits64_iff {n : Int} : Numeral.fits64 n = true ↔ -2 ^ 63 ≤ n ∧ n < 2 ^ 64 := by
  simp only [Numeral.fits64, Bool.and_eq_true, decide_eq_true_eq]
  omega

section Numbers
variable {m : Numeral} {v : Number}

theorem natAbs_integer : m.integer.natAbs = Number.digitsValue (Numeral.values m.whole) := by
  unfold Numeral.integer
  split <;> simp

section Integer
variable (integer : m.isInteger = true)
include integer

/-- The nearest floating point number to an integer is found from its digits. -/
theorem real_of_isInteger :
    m.real = Binary64.ofScientific m.negative m.integer.natAbs 0 := by
  obtain ⟨hfraction, hexponent⟩ : m.fraction = [] ∧ m.exponent = none := by
    simpa [Numeral.isInteger] using integer
  rw [Numeral.real, Numeral.power, hexponent, hfraction, List.append_nil, natAbs_integer]
  rfl

/-- The sign of an integer other than zero is the sign that is written. -/
theorem real_eq_ofInt (hzero : m.integer ≠ 0)
    (hless : m.integer.natAbs < Binary64.firstInfinite) : m.real = Binary64.ofInt m.integer := by
  have hsign : m.negative = decide (m.integer < 0) := by
    unfold Numeral.integer at hzero ⊢
    cases m.negative with
    | true =>
        simp at hzero ⊢
        omega
    | false => simp
  rw [real_of_isInteger integer, Binary64.ofScientific_whole, if_pos hless, Binary64.ofInt, hsign]

/-- An integer beyond 64 bits is rounded, as long as there are floating point numbers. -/
theorem number?_beyond (hbeyond : ¬ (-2 ^ 63 ≤ m.integer ∧ m.integer < 2 ^ 64)) :
    m.number? = if m.integer.natAbs < Binary64.firstInfinite then
      some (.real (Binary64.ofInt m.integer)) else none := by
  have hfits : Numeral.fits64 m.integer = false := by
    rwa [← fits64_iff, Bool.not_eq_true] at hbeyond
  have hzero : m.integer ≠ 0 := fun hzero => hbeyond (by rw [hzero]; decide)
  have hfinite : m.real.isFinite = true ↔ m.integer.natAbs < Binary64.firstInfinite := by
    rw [real_of_isInteger integer]
    exact Binary64.isFinite_ofScientific_iff
  rw [Numeral.number?, hfits, Bool.and_false, if_neg Bool.false_ne_true]
  split
  · rename_i h
    rw [if_pos (hfinite.mp h), real_eq_ofInt integer hzero (hfinite.mp h)]
  · rename_i h
    rw [if_neg (mt hfinite.mpr h)]

/-- What is no number of a data file is read digit by digit. -/
theorem eq_int_of_none {v : Number} (hv : numberOf m = .ok v)
    (hnone : (if m.isAscii then m.number? else none) = none) : v = .int m.integer := by
  rw [numberOf, hnone] at hv
  simp only [integer, Bool.not_true, Bool.false_eq_true, if_false] at hv
  split at hv <;> cases hv
  rfl

/-- The number of an integer: its own value or, for the values between, the nearest floating point
number. -/
theorem numberOf_of_isInteger {v : Number} (hv : numberOf m = .ok v) :
    (v = .int m.integer ↔ (-2 ^ 63 ≤ m.integer ∧ m.integer < 2 ^ 64) ∨
      Binary64.firstInfinite ≤ m.integer.natAbs ∨ m.isAscii ≠ true) ∧
      (v = .int m.integer ∨ v = .real (Binary64.ofInt m.integer)) := by
  by_cases hascii : m.isAscii = true
  · by_cases hfits : -2 ^ 63 ≤ m.integer ∧ m.integer < 2 ^ 64
    · have hnumber : m.number? = some (.int m.integer) := by
        rw [Numeral.number?, integer, fits64_iff.mpr hfits]
        rfl
      rw [numberOf, if_pos hascii, hnumber] at hv
      obtain rfl := Except.ok.inj hv
      exact ⟨iff_of_true rfl (.inl hfits), .inl rfl⟩
    · have hnumber := number?_beyond integer hfits
      by_cases hless : m.integer.natAbs < Binary64.firstInfinite
      · rw [if_pos hless] at hnumber
        rw [numberOf, if_pos hascii, hnumber] at hv
        obtain rfl := Except.ok.inj hv
        refine ⟨iff_of_false nofun ?_, .inr rfl⟩
        rintro (hkept | hbeyond | hforeign)
        · exact hfits hkept
        · omega
        · exact hforeign hascii
      · rw [if_neg hless] at hnumber
        obtain rfl := eq_int_of_none integer hv (by rw [if_pos hascii, hnumber])
        exact ⟨iff_of_true rfl (.inr (.inl (Nat.le_of_not_lt hless))), .inl rfl⟩
  · obtain rfl := eq_int_of_none integer hv (if_neg hascii)
    exact ⟨iff_of_true rfl (.inr (.inr hascii)), .inl rfl⟩

end Integer
end Numbers

/-! ## Documents -/

/-- A node that is written as an integer is a number. It has the value that its token denotes in
decimal exactly if that fits into 64 bits, is no less than 2^1024 - 2^970 in size, or is written
in digits outside ASCII; otherwise it is the nearest floating point number. -/
theorem integer_exact_iff {text : List Char} {root : Node} (hread : read text = .ok root)
    {q : Place} (hq : q ∈ (Place.root root).walk) {n : Int} (hn : Denotes (slice text q.span) n) :
    ∃ v, q.node = .scalar q.span (.number v) ∧
      (v = .int n ↔ (-2 ^ 63 ≤ n ∧ n < 2 ^ 64) ∨ Binary64.firstInfinite ≤ n.natAbs ∨
        ¬ IsAscii (slice text q.span)) ∧
      (v = .int n ∨ v = .real (Binary64.ofInt n)) := by
  obtain ⟨f, hf⟩ := exists_stands hread hq
  have htext : slice text q.span = f.text := hf.slice_eq
  rw [htext] at hn ⊢
  obtain ⟨m, v, rfl, written, hv⟩ := hn.form hf.valid
  obtain ⟨integer, rfl⟩ := hn.numeral written
  obtain ⟨hexact, hvalue⟩ := numberOf_of_isInteger integer hv
  have hascii : m.isAscii = true ↔ IsAscii m.spelling := by
    simp [Numeral.isAscii, IsAscii]
  refine ⟨v, ?_, ?_, hvalue⟩
  · obtain ⟨-, -, before, after, -, hnode⟩ := hf
    rw [Place.span, hnode]
    rfl
  · rw [hexact, ne_eq, hascii]
    rfl

/-- Ten to the 309th, which is beyond all floating point numbers. -/
def farText : List Char := '1' :: List.replicate 309 '0'

theorem integer_exact_iff_far : Denotes farText (10 ^ 309) ∧
    read farText = .ok (.scalar ⟨0, 310⟩ (.number (.int (10 ^ 309)))) := by
  have hvalue : (Number.digitsValue (Numeral.values farText) : Int) = 10 ^ 309 := by
    decide +kernel
  have hdenotes : Denotes farText (10 ^ 309) := by
    rw [← hvalue]
    exact .natural (List.cons_ne_nil _ _) (List.all_eq_true.mp (by decide +kernel))
  have hspan : (read farText).toOption.map Node.span = some ⟨0, 310⟩ := by decide +kernel
  have hslice : slice farText ⟨0, 310⟩ = farText := by decide +kernel
  have hfar : Binary64.firstInfinite ≤ (10 ^ 309 : Int).natAbs := by decide +kernel
  refine ⟨hdenotes, ?_⟩
  cases hread : read farText with
  | error e => rw [hread] at hspan; cases hspan
  | ok root =>
    have hroot : (Place.root root).span = ⟨0, 310⟩ := by
      rw [hread] at hspan
      exact Option.some.inj hspan
    have hplace : slice farText (Place.root root).span = farText := by rw [hroot, hslice]
    obtain ⟨v, hnode, hexact, -⟩ :=
      integer_exact_iff hread (Place.self_mem_walk (.root root)) (hplace.symm ▸ hdenotes)
    obtain rfl := hexact.mpr (.inr (.inl hfar))
    rw [hroot] at hnode
    exact congrArg Except.ok hnode

/-- The least integer beyond 64 bits is rounded, although its token denotes it. -/
theorem not_forall_integer_exact :
    ¬ ∀ (text : List Char) (root : Node) (q : Place) (n : Int), read text = .ok root →
      q ∈ (Place.root root).walk → Denotes (slice text q.span) n →
        q.node = .scalar q.span (.number (.int n)) := by
  intro h
  have hread : read "18446744073709551616".toList =
      .ok (.scalar ⟨0, 20⟩ (.number (.real (.finite false 0x10000000000000 12)))) := rfl
  have hdenotes : Denotes "18446744073709551616".toList 18446744073709551616 :=
    .natural (by decide) (List.all_eq_true.mp rfl)
  have hnode := h _ _ _ _ hread (Place.self_mem_walk _) hdenotes
  cases hnode

end ModAtlas.Document
