import Mathlib.Algebra.BigOperators.Group.List.Defs
import Mathlib.Data.List.TakeWhile
import ModAtlas.Text.Piece

/-!
# Occurrences

The occurrences of a text come in the order of their offsets. A character that the sought text
lacks parts them into those before it and those after it, so a text can be searched piece by piece.
-/

namespace ModAtlas.Text
variable {needle line rest after text : List Char} {here o : Nat} {b c : Char}

theorem occurrences_cons : occurrences needle here (c :: rest) =
    ((List.isPrefixOf? needle (c :: rest)).map (here, ·)).toList ++
      occurrences needle (here + 1) rest := by
  rw [occurrences]
  cases List.isPrefixOf? needle (c :: rest) <;> rfl

theorem mem_occurrences_iff : (o, after) ∈ occurrences needle here text ↔
    ∃ front, text = front ++ (needle ++ after) ∧ o = here + front.length := by
  induction text generalizing here with
  | nil =>
      by_cases hneedle : needle = []
      · subst hneedle
        simp [occurrences, and_comm]
      · simp [occurrences, hneedle]
  | cons c rest ih =>
      have hhead : (o, after) ∈ ((List.isPrefixOf? needle (c :: rest)).map (here, ·)).toList ↔
          c :: rest = needle ++ after ∧ o = here := by
        rw [Option.mem_toList, Option.map_eq_some_iff]
        constructor
        · rintro ⟨tail, htail, hpair⟩
          obtain ⟨rfl, rfl⟩ := Prod.mk.inj hpair
          exact ⟨(List.isPrefixOf?_eq_some_iff_append_eq.mp htail).symm, rfl⟩
        · rintro ⟨hsplit, rfl⟩
          exact ⟨after, List.isPrefixOf?_eq_some_iff_append_eq.mpr hsplit.symm, rfl⟩
      rw [occurrences_cons, List.mem_append, hhead, ih]
      constructor
      · rintro (⟨hsplit, rfl⟩ | ⟨front, rfl, rfl⟩)
        · exact ⟨[], hsplit, rfl⟩
        · exact ⟨c :: front, rfl, by rw [List.length_cons]; omega⟩
      · rintro ⟨front, hsplit, rfl⟩
        cases front with
        | nil => exact .inl ⟨hsplit, rfl⟩
        | cons d front =>
            obtain ⟨rfl, rfl⟩ := List.cons.inj hsplit
            exact .inr ⟨front, rfl, by rw [List.length_cons]; omega⟩

/-- What occurs in a text begins the text from there on. -/
theorem mem_occurrences_zero_iff (h : needle ≠ []) : (o, after) ∈ occurrences needle 0 text ↔
    needle <+: text.drop o ∧ after = text.drop (o + needle.length) := by
  rw [mem_occurrences_iff]
  constructor
  · rintro ⟨front, rfl, rfl⟩
    rw [Nat.zero_add, List.drop_left, ← List.drop_drop, List.drop_left, List.drop_left]
    exact ⟨List.prefix_append needle after, rfl⟩
  · rintro ⟨⟨tail, htail⟩, rfl⟩
    have hlength : o ≤ text.length := by
      have hne : text.drop o ≠ [] := by simp [← htail, h]
      rw [Ne, List.drop_eq_nil_iff] at hne
      omega
    refine ⟨text.take o, ?_, by simp [hlength]⟩
    rw [← List.drop_drop, ← htail, List.drop_left, htail, List.take_append_drop]

theorem pairwise_occurrences :
    (occurrences needle here text).Pairwise fun x y => x.1 < y.1 := by
  induction text generalizing here with
  | nil =>
      rw [occurrences]
      split
      · exact List.pairwise_singleton ..
      · exact .nil
  | cons c rest ih =>
      rw [occurrences_cons, List.pairwise_append]
      refine ⟨?_, ih, ?_⟩
      · cases List.isPrefixOf? needle (c :: rest)
        · exact .nil
        · exact List.pairwise_singleton ..
      · rintro x hx ⟨o, after⟩ hy
        obtain ⟨after', -, rfl⟩ := Option.map_eq_some_iff.mp (Option.mem_toList.mp hx)
        obtain ⟨front, -, rfl⟩ := mem_occurrences_iff.mp hy
        dsimp only
        omega

theorem occurrences_add {k : Nat} : occurrences needle (here + k) text =
    (occurrences needle here text).map fun x => (x.1 + k, x.2) := by
  induction text generalizing here with
  | nil =>
      rw [occurrences, occurrences]
      split <;> rfl
  | cons c rest ih =>
      rw [occurrences_cons, occurrences_cons, List.map_append, ← ih, Nat.add_right_comm]
      cases List.isPrefixOf? needle (c :: rest) <;> rfl

theorem isPrefixOf?_cut (hb : b ∉ needle) : List.isPrefixOf? needle (line ++ b :: rest) =
    (List.isPrefixOf? needle line).map (· ++ b :: rest) := by
  induction needle generalizing line with
  | nil => rfl
  | cons d needle ih =>
      obtain ⟨hd, hneedle⟩ := not_or.mp (mt List.mem_cons.mpr hb)
      cases line with
      | nil => simp [List.isPrefixOf?, Ne.symm hd]
      | cons c line =>
          rw [List.cons_append, List.isPrefixOf?, List.isPrefixOf?, ih hneedle]
          split <;> rfl

/-- A character that the sought text lacks parts the occurrences. -/
theorem occurrences_cut (hb : b ∉ needle) (hne : needle ≠ []) :
    occurrences needle here (line ++ b :: rest) =
      (occurrences needle here line).map (fun x => (x.1, x.2 ++ b :: rest)) ++
        occurrences needle (here + (line.length + 1)) rest := by
  have hcut (line : List Char) : List.isPrefixOf? needle (line ++ b :: rest) =
      (List.isPrefixOf? needle line).map (· ++ b :: rest) := isPrefixOf?_cut hb
  induction line generalizing here with
  | nil =>
      have hnil : List.isPrefixOf? needle [] = none := by
        cases needle with
        | nil => exact absurd rfl hne
        | cons d needle => rfl
      have hfirst := hcut []
      rw [List.nil_append, hnil] at hfirst
      simp [occurrences, hfirst, hne]
  | cons c line ih =>
      rw [List.cons_append, occurrences_cons, occurrences_cons, ih, ← List.cons_append, hcut,
        List.map_append, List.append_assoc, List.length_cons]
      congr 1
      · cases List.isPrefixOf? needle (c :: line) <;> rfl
      · congr 2
        omega

end ModAtlas.Text
