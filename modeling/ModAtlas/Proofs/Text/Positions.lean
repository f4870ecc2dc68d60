import ModAtlas.Text.Lines

/-!
# Offsets and their positions

The line of an offset is the last one that starts at or before it, so the next line starts behind
it. Hence a position that was made from an offset of the text leads back to it.
-/

namespace ModAtlas.Text
variable {text : List Char} {o : Nat}

/-- The lines that start at or before an offset. -/
def startsUpTo (text : List Char) (o : Nat) : List Nat := (lineStarts text).takeWhile (· ≤ o)

theorem lineStarts_eq (text : List Char) (o : Nat) :
    lineStarts text = startsUpTo text o ++ (lineStarts text).dropWhile (· ≤ o) :=
  List.takeWhile_append_dropWhile.symm

/-- Every offset is on a line. -/
theorem exists_startsUpTo (text : List Char) (o : Nat) :
    ∃ before start, startsUpTo text o = before ++ [start] ∧ start ≤ o := by
  have hne : startsUpTo text o ≠ [] := by simp [startsUpTo, lineStarts]
  obtain ⟨before, start, hsplit⟩ := (List.eq_nil_or_concat (startsUpTo text o)).resolve_left hne
  rw [List.concat_eq_append] at hsplit
  have hmem : start ∈ startsUpTo text o := by simp [hsplit]
  exact ⟨before, start, hsplit, by simpa using List.all_eq_true.mp List.all_takeWhile start hmem⟩

/-- The next line starts behind the offset. -/
theorem lt_of_getElem?_lineStarts {next : Nat}
    (h : (lineStarts text)[(startsUpTo text o).length]? = some next) : o < next := by
  rw [lineStarts_eq text o, List.getElem?_append_right (Nat.le_refl _), Nat.sub_self,
    ← List.head?_eq_getElem?] at h
  have hnot := List.head?_dropWhile_not (· ≤ o) (lineStarts text)
  rw [h] at hnot
  simpa using hnot

/-- The position of an offset leads back to it. -/
theorem offsetAt_positionAt (h : o ≤ text.length) : offsetAt text (positionAt text o) = o := by
  obtain ⟨before, start, hsplit, hle⟩ := exists_startsUpTo text o
  have hposition : positionAt text o = ⟨before.length, (o : Int) - start⟩ := by
    have hclamp : clampOffset text o = o := Nat.min_eq_left h
    simp only [positionAt, hclamp]
    rw [← startsUpTo, hsplit]
    simp
  have hstart : (lineStarts text)[before.length]? = some start := by
    rw [lineStarts_eq text o, hsplit]
    simp
  have hstop : o ≤ (lineStarts text)[before.length + 1]?.getD text.length := by
    have hlength : (startsUpTo text o).length = before.length + 1 := by simp [hsplit]
    rw [← hlength]
    cases hnext : (lineStarts text)[(startsUpTo text o).length]? with
    | none => exact h
    | some next => exact Nat.le_of_lt (lt_of_getElem?_lineStarts hnext)
  rw [hposition]
  simp only [offsetAt]
  rw [if_neg (by omega), Int.toNat_natCast, hstart]
  dsimp only
  omega

end ModAtlas.Text
