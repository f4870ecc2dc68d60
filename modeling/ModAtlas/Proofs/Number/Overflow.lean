import Mathlib.Algebra.Group.Nat.Defs
import Mathlib.Algebra.Order.Group.Nat
import ModAtlas.Number.Binary64

/-!
# Whole numbers beyond all floating point numbers

A whole number is rounded to infinity exactly from halfway above the greatest floating point
number on: the 53 binary digits of that number are ones, so halfway to 2^1024 is rounded up.
-/

namespace ModAtlas.Binary64

/-- The exponent of half the gap between the greatest floating point numbers. -/
def gapExponent : Nat := 970

/-- Half of the gap between the greatest floating point numbers. -/
def halfGap : Nat := 2 ^ gapExponent

/-- The least whole number that is rounded to infinity, 2^1024 - 2^970. -/
def firstInfinite : Nat := 0x3fffffffffffff * halfGap

theorem twoTo_natCast (k : Nat) : twoTo k = 2 ^ k := rfl

theorem twoTo_of_nonpos {e : Int} (h : e ≤ 0) : twoTo e = 1 := by
  rw [twoTo, Int.toNat_of_nonpos h]

theorem halfGap_pos : 0 < halfGap := Nat.two_pow_pos gapExponent

theorem halfGap_mul_le {k e : Nat} (h : gapExponent + k ≤ e) : halfGap * 2 ^ k ≤ 2 ^ e := by
  rw [halfGap, ← Nat.pow_add]
  exact Nat.pow_le_pow_right (by decide) h

theorem le_halfGap_mul {k e : Nat} (h : e ≤ gapExponent + k) : 2 ^ e ≤ halfGap * 2 ^ k := by
  rw [halfGap, ← Nat.pow_add]
  exact Nat.pow_le_pow_right (by decide) h

/-- The odd quotient below a whole one is left from halfway on. -/
theorem roundQuotient_eq_succ_iff {n half q : Nat} (hodd : q % 2 = 1)
    (hn : n < (q + 1) * (2 * half)) :
    roundQuotient n (2 * half) = q + 1 ↔ q * (2 * half) + half ≤ n := by
  have hpos : 0 < 2 * half := Nat.pos_of_lt_mul_left hn
  have hle : n / (2 * half) ≤ q := Nat.lt_succ_iff.mp ((Nat.div_lt_iff_lt_mul hpos).mpr hn)
  have hsplit := Nat.div_add_mod' n (2 * half)
  unfold roundQuotient
  dsimp only
  rcases Nat.lt_or_eq_of_le hle with hlt | heq
  · have hbelow : n < q * (2 * half) := (Nat.div_lt_iff_lt_mul hpos).mp hlt
    refine iff_of_false ?_ (by omega)
    split
    · omega
    · split
      · omega
      · split <;> omega
  · rw [heq] at hsplit ⊢
    split
    · omega
    · split
      · omega
      · rw [if_neg (by omega)]
        omega

/-! ## Rounding a whole number -/

/-- Divided by the first guess at its exponent, a whole number has a binary digit too many. -/
theorem mantissaLimit_le_scaleDown {n : Nat} (hn : n ≠ 0) :
    mantissaLimit ≤ (scaleDown n 1 ((n.log2 : Int) - 53)).1 /
      (scaleDown n 1 ((n.log2 : Int) - 53)).2 := by
  have hlow : 2 ^ n.log2 ≤ n := Nat.log2_self_le hn
  have hlimit : mantissaLimit = 2 ^ 53 := rfl
  rw [hlimit, scaleDown]
  rcases Nat.le_total 53 n.log2 with hle | hle
  · obtain ⟨k, hk⟩ := Nat.exists_eq_add_of_le hle
    have hneg : -((n.log2 : Int) - 53) ≤ 0 := by omega
    have hexp : (n.log2 : Int) - 53 = (k : Int) := by omega
    rw [twoTo_of_nonpos hneg, hexp, twoTo_natCast, Nat.mul_one, Nat.one_mul,
      Nat.le_div_iff_mul_le (Nat.two_pow_pos k), ← Nat.pow_add, ← hk]
    exact hlow
  · obtain ⟨k, hk⟩ := Nat.exists_eq_add_of_le hle
    have hneg : (n.log2 : Int) - 53 ≤ 0 := by omega
    have hexp : -((n.log2 : Int) - 53) = (k : Int) := by omega
    rw [twoTo_of_nonpos hneg, hexp, twoTo_natCast, Nat.mul_one, Nat.div_one, hk, Nat.pow_add]
    exact Nat.mul_le_mul_right _ hlow

/-- A mantissa and an exponent as a number: a mantissa that has reached the limit is halved. -/
def normalized (negative : Bool) (m : Nat) (e : Int) : Binary64 :=
  if m = mantissaLimit then
    if greatestExponent < e + 1 then .infinite negative
    else .finite negative leastFullMantissa (e + 1)
  else if greatestExponent < e then .infinite negative
  else .finite negative m e

/-- A whole number is rounded to 53 binary digits. -/
theorem ofRatio_whole {negative : Bool} {n : Nat} (hn : n ≠ 0) {e : Int}
    (he : e = (n.log2 : Int) - 52) :
    ofRatio negative n 1 =
      normalized negative (roundQuotient (n * twoTo (-e)) (twoTo e)) e := by
  have hguess : (n.log2 : Int) - ((Nat.log2 1 : Nat) : Int) - 53 = (n.log2 : Int) - 53 := by
    rw [show Nat.log2 1 = 0 by decide]
    omega
  have hexp : max leastExponent ((n.log2 : Int) - 53 + 1) = e := by
    have hleast : leastExponent = -1074 := rfl
    omega
  rw [ofRatio, if_neg hn]
  simp only [hguess, if_pos (mantissaLimit_le_scaleDown hn), hexp]
  simp only [scaleDown, Nat.one_mul, normalized]
  split <;> rfl

theorem isFinite_normalized {negative : Bool} {m : Nat} {e : Int} :
    (normalized negative m e).isFinite = true ↔
      (if m = mantissaLimit then e + 1 else e) ≤ greatestExponent := by
  unfold normalized
  split
  · split <;> simp [isFinite] <;> omega
  · split <;> simp [isFinite] <;> omega

/-- A whole number is rounded to infinity exactly from halfway above the greatest number on. -/
theorem isFinite_ofRatio_iff {negative : Bool} {n : Nat} :
    (ofRatio negative n 1).isFinite = true ↔ n < firstInfinite := by
  have hhalf := halfGap_pos
  by_cases hn : n = 0
  · rw [hn]
    refine iff_of_true rfl ?_
    rw [firstInfinite]
    omega
  have hlow : 2 ^ n.log2 ≤ n := Nat.log2_self_le hn
  have hhigh : n < 2 ^ (n.log2 + 1) := Nat.lt_log2_self
  have hgap : gapExponent = 970 := rfl
  have hgreatest : greatestExponent = 971 := rfl
  rw [ofRatio_whole hn rfl, isFinite_normalized, firstInfinite]
  rcases Nat.lt_trichotomy n.log2 1023 with hless | hequal | hgreater
  · -- one exponent more is still within the greatest one
    have hbound := le_halfGap_mul (k := 53) (e := n.log2 + 1) (by omega)
    refine iff_of_true ?_ ?_
    · split <;> omega
    · omega
  · -- the greatest exponent, so that the mantissa decides
    have hexp : (n.log2 : Int) - 52 = ((gapExponent + 1 : Nat) : Int) := by omega
    have htwo : twoTo ((gapExponent + 1 : Nat) : Int) = 2 * halfGap := by
      rw [twoTo_natCast, Nat.pow_succ', ← halfGap]
    have htop : n < (0x1fffffffffffff + 1) * (2 * halfGap) := by
      have hbound := le_halfGap_mul (k := 54) (e := n.log2 + 1) (by omega)
      omega
    have hround := roundQuotient_eq_succ_iff (by decide) htop
    have hlimit : mantissaLimit = 0x1fffffffffffff + 1 := rfl
    rw [hexp, htwo, twoTo_of_nonpos (by omega), Nat.mul_one, hlimit]
    split
    · rename_i hm
      have := hround.mp hm
      exact iff_of_false (by omega) (by omega)
    · rename_i hm
      have := mt hround.mpr hm
      exact iff_of_true (by omega) (by omega)
  · have hbound := halfGap_mul_le (k := 54) (e := n.log2) (by omega)
    refine iff_of_false ?_ ?_
    · split <;> omega
    · omega

/-- A whole number in decimal is rounded as the number is: what is infinite at first sight is
infinite. -/
theorem ofScientific_whole {negative : Bool} {n : Nat} :
    ofScientific negative n 0 =
      if n < firstInfinite then ofRatio negative n 1 else .infinite negative := by
  by_cases hn : n = 0
  · have hpos : 0 < firstInfinite := Nat.mul_pos (by decide) halfGap_pos
    rw [hn, if_pos hpos]
    rfl
  have hlow : 2 ^ n.log2 ≤ n := Nat.log2_self_le hn
  have hgap : gapExponent = 970 := rfl
  have hmost : ¬ (((n.log2 + 1) / 3 : Nat) : Int) + 1 + 0 < -326 := by omega
  have hone : n * tenTo 0 = n := Nat.mul_one n
  by_cases hleast : (310 : Int) < ((n.log2 * 3 / 10 : Nat) : Int) + 0
  · have hgreat : ¬ n < firstInfinite := by
      have hbound := halfGap_mul_le (k := 54) (e := n.log2) (by omega)
      rw [firstInfinite]
      omega
    simp only [ofScientific, if_neg hn, if_pos hleast, if_neg hgreat]
  · have hratio : ofScientific negative n 0 = ofRatio negative n 1 := by
      simp only [ofScientific, if_neg hn, if_neg hleast, if_neg hmost, hone]
      rfl
    rw [hratio]
    split
    · rfl
    · rename_i hgreat
      -- a finite number would be less
      have hinfinite : (ofRatio negative n 1).isFinite ≠ true := mt isFinite_ofRatio_iff.mp hgreat
      rw [ofRatio_whole hn rfl] at hinfinite ⊢
      unfold normalized at hinfinite ⊢
      split at hinfinite <;> split at hinfinite <;> simp_all [isFinite]

theorem isFinite_ofScientific_iff {negative : Bool} {n : Nat} :
    (ofScientific negative n 0).isFinite = true ↔ n < firstInfinite := by
  rw [ofScientific_whole]
  split
  · rename_i h
    exact iff_of_true (isFinite_ofRatio_iff.mpr h) h
  · rename_i h
    exact iff_of_false (by simp [isFinite]) h

end ModAtlas.Binary64
