import Mathlib.Algebra.Group.Nat.Defs
import Mathlib.Data.Nat.Log
import ModAtlas.Document.Token
import ModAtlas.Proofs.Json.Numeral

/-!
# Integers of many digits

An integer that is written by the rules is at least as great as its number of digits says. One
with more digits than may be read is therefore beyond all floating point numbers, and no other
numeral is refused for its length.
-/

namespace ModAtlas.Json.Numeral
open ModAtlas.Text ModAtlas.Document

theorem le_digitsValue (ds : List Nat) (init : Nat) :
    init * 10 ^ ds.length ≤ ds.foldl (fun n d => n * 10 + d) init := by
  induction ds generalizing init with
  | nil => simp
  | cons d ds ih =>
      calc init * 10 ^ (d :: ds).length
          = init * 10 * 10 ^ ds.length := by
            rw [List.length_cons, Nat.pow_succ', Nat.mul_assoc]
        _ ≤ (init * 10 + d) * 10 ^ ds.length :=
            Nat.mul_le_mul_right _ (Nat.le_add_right _ d)
        _ ≤ _ := ih _

/-- The first of several digits is not zero. -/
theorem one_le_digitValue? {c : Char} (hc : '1' ≤ c ∧ c ≤ '9') :
    1 ≤ (digitValue? c).getD 0 := by
  have hlow : 49 ≤ c.toNat := hc.1
  have hhigh : c.toNat ≤ 57 := hc.2
  have hvalue : digitValue? c = some (c.toNat - 48) := by
    simp [digitValue?, digitZeros, show 48 ≤ c.toNat by omega, hhigh]
  rw [hvalue, Option.getD_some]
  omega

/-- A whole part of several digits is no less than the power of ten of its first digit. -/
theorem pow_le_digitsValue {n : Numeral} {digit : Char → Bool} (h : n.WellWritten digit)
    (hlength : 1 < n.whole.length) :
    10 ^ (n.whole.length - 1) ≤ Number.digitsValue (values n.whole) := by
  rcases h.whole with hw | ⟨c, ds, hw, hc, -⟩
  · simp [hw] at hlength
  · have hle := le_digitsValue (values ds) ((digitValue? c).getD 0)
    have hfirst := Nat.mul_le_mul_right (10 ^ (values ds).length) (one_le_digitValue? hc)
    simp only [hw, values, List.map_cons, Number.digitsValue, List.foldl_cons, Nat.zero_mul,
      Nat.zero_add, List.length_cons, Nat.add_sub_cancel, List.length_map, Nat.one_mul]
      at hle hfirst ⊢
    exact Nat.le_trans hfirst hle

/-- Ten to this power is beyond all floating point numbers. -/
def beyond : Nat := 400

theorem ofScientific_eq_infinite {negative : Bool} {m : Nat} (hm : 10 ^ beyond ≤ m) :
    Binary64.ofScientific negative m 0 = .infinite negative := by
  have hpos : m ≠ 0 := Nat.pos_iff_ne_zero.1 (Nat.lt_of_lt_of_le (Nat.pow_pos (by decide)) hm)
  have hlog : 3 * beyond ≤ m.log2 := by
    rw [Nat.le_log2 hpos, Nat.pow_mul]
    exact Nat.le_trans (Nat.pow_le_pow_left (by decide) _) hm
  have hleast : (310 : Int) < ((m.log2 * 3 / 10 : Nat) : Int) + 0 := by
    simp only [beyond] at hlog
    omega
  simp only [Binary64.ofScientific, if_neg hpos, if_pos hleast]

/-- An integer with more digits than may be read has no number of 64 bits. -/
theorem number?_eq_none {n : Numeral} {digit : Char → Bool} (h : n.WellWritten digit)
    (integer : n.isInteger = true) (long : Number.digitLimit < n.whole.length) :
    n.number? = none := by
  have hlong : 4300 < n.whole.length := long
  have hvalue : 10 ^ beyond ≤ Number.digitsValue (values n.whole) :=
    Nat.le_trans (Nat.pow_le_pow_right (by decide) (by simp only [beyond]; omega))
      (pow_le_digitsValue h (by omega))
  have hfraction : n.fraction = [] ∧ n.exponent = none := by
    simpa [isInteger] using integer
  have hfits : fits64 n.integer = false := by
    have hgreat : (0xffffffffffffffff : Int) < (Number.digitsValue (values n.whole) : Nat) := by
      have hfew : (0xffffffffffffffff : Nat) < 10 ^ 20 := by decide
      have hpower : 10 ^ 20 ≤ 10 ^ beyond := Nat.pow_le_pow_right (by decide) (by decide)
      omega
    unfold fits64 Numeral.integer
    dsimp only
    split <;> simp only [Bool.and_eq_false_iff, decide_eq_false_iff_not] <;> omega
  have hreal : n.real = .infinite n.negative := by
    rw [real, power, hfraction.1, hfraction.2, List.append_nil]
    exact ofScientific_eq_infinite hvalue
  rw [number?, hfits, hreal]
  simp [Binary64.isFinite]

/-- Only an integer with too many digits is refused. -/
theorem numberOf_eq_error_iff {n : Numeral} {digit : Char → Bool} (h : n.WellWritten digit)
    {e : Failure} : numberOf n = .error e ↔
      e = .numeralTooLong ∧ n.isInteger = true ∧ Number.digitLimit < n.whole.length := by
  unfold numberOf
  constructor
  · intro herror
    split at herror
    · cases herror
    · split at herror
      · cases herror
      · rename_i hinteger
        split at herror
        · rename_i hlong
          cases herror
          exact ⟨rfl, by simpa using hinteger, hlong⟩
        · cases herror
  · rintro ⟨rfl, integer, long⟩
    have hnone : (if n.isAscii then n.number? else none) = none := by
      split
      · exact number?_eq_none h integer long
      · rfl
    simp [hnone, integer, long]

end ModAtlas.Json.Numeral
