import Mathlib.Data.Prod.Lex
import ModAtlas.Proofs.Text.Boundaries

/-!
# Lines of a text

A text is cut into lines behind every LF, CR and CRLF. Positions are in the order of their lines,
and on one line in that of their characters. Offsets of the text and positions on its lines then
correspond to one another in order, and whatever lies outside is brought to the nearest of them.
-/

namespace ModAtlas.Text

/-! ## The order of positions -/

namespace Position

/-- The line of a position, then its character. -/
def key (p : Position) : Int ×ₗ Int := toLex (p.line, p.character)

theorem key_injective : Function.Injective key := by
  rintro ⟨line, character⟩ ⟨line', character'⟩ h
  obtain ⟨rfl, rfl⟩ := Prod.mk.inj (toLex.injective h)
  rfl

instance : LinearOrder Position := LinearOrder.lift' key key_injective

theorem le_iff {p q : Position} :
    p ≤ q ↔ p.line < q.line ∨ p.line = q.line ∧ p.character ≤ q.character :=
  Prod.Lex.toLex_le_toLex

end Position

/-! ## Lines with their ends -/

/-- Characters of which line ends are made. -/
def endsLine (c : Char) : Bool := c == '\r' || c == '\n'

/-- What ends a line: LF, CR or CRLF. -/
def lineEnds : List (List Char) := [['\n'], ['\r'], ['\r', '\n']]

/-- A text is cut into lines, each with its end but for the last one, which has none. No CRLF is
parted. -/
inductive Lined : List Char → List (List Char) → Prop
  | last {line : List Char} (plain : IsLine endsLine line) : Lined line [line]
  | next {line mark rest : List Char} {lines : List (List Char)} (plain : IsLine endsLine line)
      (ends : mark ∈ lineEnds) (whole : CleanCut mark rest) (more : Lined rest lines) :
      Lined (line ++ (mark ++ rest)) ((line ++ mark) :: lines)

section Cutting
variable {c : Char} {text line mark rest : List Char} {lines : List (List Char)} {k : Nat}

theorem return_notMem_of_isLine (h : IsLine endsLine line) : '\r' ∉ line := fun hc =>
  absurd (h '\r' hc) (by decide)

theorem laterStarts_of_isLine (h : IsLine endsLine line) : laterStarts k line = [] := by
  refine laterStarts_line (return_notMem_of_isLine h) fun c hc => ?_
  have := h c hc
  rw [endsLine, Bool.or_eq_false_iff] at this
  exact this.2

/-- Behind a line with its end the next one starts. -/
theorem laterStarts_next (plain : IsLine endsLine line) (ends : mark ∈ lineEnds)
    (whole : CleanCut mark rest) : laterStarts k (line ++ (mark ++ rest)) =
      (k + (line ++ mark).length) :: laterStarts (k + (line ++ mark).length) rest := by
  have hmark (j : Nat) : laterStarts j mark = [j + mark.length] := by
    simp only [lineEnds, List.mem_cons, List.not_mem_nil, or_false] at ends
    rcases ends with rfl | rfl | rfl <;> rfl
  have hline : CleanCut line (mark ++ rest) :=
    .of_last fun hlast => return_notMem_of_isLine plain (List.mem_of_getLast? hlast)
  rw [laterStarts_append hline, laterStarts_of_isLine plain, laterStarts_append whole, hmark,
    List.length_append, Nat.add_assoc]
  rfl

/-- A character that ends no line stands before the first line. -/
theorem Lined.cons (h : Lined rest lines) (hc : endsLine c = false) :
    ∃ lines, Lined (c :: rest) lines := by
  cases h with
  | last plain => exact ⟨_, .last (List.forall_mem_cons.mpr ⟨hc, plain⟩)⟩
  | next plain ends whole more =>
      exact ⟨_, .next (List.forall_mem_cons.mpr ⟨hc, plain⟩) ends whole more⟩

/-- Every text can be cut into lines. -/
theorem exists_lined (text : List Char) : ∃ lines, Lined text lines := by
  induction text using newlineInduction with
  | nil => exact ⟨_, .last nofun⟩
  | crlf rest ih =>
      obtain ⟨lines, hrest⟩ := ih
      exact ⟨_, @Lined.next [] ['\r', '\n'] _ _ nofun (by decide) (.of_last (by decide)) hrest⟩
  | step c rest hcut ih =>
      obtain ⟨lines, hrest⟩ := ih
      cases hc : endsLine c with
      | false => exact hrest.cons hc
      | true =>
          refine ⟨_, @Lined.next [] [c] _ _ nofun ?_ ?_ hrest⟩
          · have hends : c = '\r' ∨ c = '\n' := by simpa [endsLine] using hc
            rcases hends with rfl | rfl <;> decide
          · intro hlast
            exact hcut (Option.some.inj hlast)

/-- Together the lines are the text. -/
theorem Lined.flatten_eq (h : Lined text lines) : lines.flatten = text := by
  induction h with
  | last plain => simp
  | next plain ends whole more ih => simp [ih]

theorem Lined.length_pos (h : Lined text lines) : 0 < lines.length := by
  cases h <;> exact Nat.succ_pos _

end Cutting

/-! ## Where lines start -/

/-- Where a line starts: behind all lines before it. -/
def lineStart (lines : List (List Char)) (k : Nat) : Nat := (lines.take k).flatten.length

section Starts
variable {text line : List Char} {lines : List (List Char)} {k j : Nat}

theorem lineStart_cons (line : List Char) (lines : List (List Char)) (k : Nat) :
    lineStart (line :: lines) (k + 1) = line.length + lineStart lines k := by
  rw [lineStart, lineStart, List.take_succ_cons, List.flatten_cons, List.length_append]

theorem lineStart_succ (h : lines[k]? = some line) :
    lineStart lines (k + 1) = lineStart lines k + line.length := by
  simp [lineStart, List.take_add_one, h]

theorem lineStart_mono (h : j ≤ k) : lineStart lines j ≤ lineStart lines k := by
  have hprefix : lines.take j <+: lines.take k := List.take_prefix_take_left h
  obtain ⟨between, hbetween⟩ := hprefix
  rw [lineStart, lineStart, ← hbetween, List.flatten_append, List.length_append]
  exact Nat.le_add_right _ _

theorem Lined.lineStart_of_length_le (h : Lined text lines) (hk : lines.length ≤ k) :
    lineStart lines k = text.length := by
  rw [lineStart, List.take_of_length_le hk, h.flatten_eq]

theorem Lined.lineStart_le (h : Lined text lines) (k : Nat) : lineStart lines k ≤ text.length := by
  rw [← h.lineStart_of_length_le (Nat.le_max_right k lines.length)]
  exact lineStart_mono (Nat.le_max_left _ _)

theorem Lined.getElem?_laterStarts (h : Lined text lines) (o k : Nat) : (laterStarts o text)[k]? =
    if k + 1 < lines.length then some (o + lineStart lines (k + 1)) else none := by
  induction h generalizing o k with
  | last plain => simp [laterStarts_of_isLine plain]
  | next plain ends whole more ih =>
      rw [laterStarts_next plain ends whole]
      cases k with
      | zero =>
          have := more.length_pos
          simp [lineStart, this]
      | succ k =>
          rw [List.getElem?_cons_succ, ih, lineStart_cons, Nat.add_assoc]
          simp only [List.length_cons, Nat.add_lt_add_iff_right]

/-- The starts of lines are where the lines before them end. -/
theorem Lined.getElem?_lineStarts (h : Lined text lines) (k : Nat) : (lineStarts text)[k]? =
    if k < lines.length then some (lineStart lines k) else none := by
  cases k with
  | zero => simp [lineStarts, lineStart, h.length_pos]
  | succ k => rw [lineStarts, List.getElem?_cons_succ, h.getElem?_laterStarts, Nat.zero_add]

theorem Lined.length_lineStarts (h : Lined text lines) :
    (lineStarts text).length = lines.length := by
  refine Nat.le_antisymm (List.getElem?_eq_none_iff.mp ?_) (Nat.le_of_not_lt fun hlt => ?_)
  · simp [h.getElem?_lineStarts]
  · have := h.getElem?_lineStarts (lineStarts text).length
    simp [hlt] at this

end Starts

/-! ## Positions on lines -/

/-- A position is on a line: before one of its characters, or at the end of the last line. -/
def Position.IsOn (lines : List (List Char)) (p : Position) : Prop :=
  ∃ (k i : Nat) (line : List Char), p = ⟨k, i⟩ ∧ lines[k]? = some line ∧
    (i < line.length ∨ i = line.length ∧ k + 1 = lines.length)

section Positions
variable {text line : List Char} {lines : List (List Char)}

/-- The offset of a position is that of its line and at most the length of the line more. -/
theorem Lined.offsetAt_eq (h : Lined text lines) (p : Position) : offsetAt text p =
    if p.line < 0 then 0
    else lineStart lines p.line.toNat +
      min p.character.toNat ((lines[p.line.toNat]?.getD []).length) := by
  rw [offsetAt]
  split
  · rfl
  · simp only [h.getElem?_lineStarts]
    by_cases hk : p.line.toNat < lines.length
    · obtain ⟨line, hline⟩ : ∃ line, lines[p.line.toNat]? = some line :=
        ⟨_, List.getElem?_eq_getElem hk⟩
      have hstop : (if p.line.toNat + 1 < lines.length
          then some (lineStart lines (p.line.toNat + 1)) else none).getD text.length =
            lineStart lines p.line.toNat + line.length := by
        rw [← lineStart_succ hline]
        split
        · rfl
        · rename_i hlast
          exact (h.lineStart_of_length_le (Nat.le_of_not_lt hlast)).symm
      simp only [if_pos hk, hstop, hline, Option.getD_some]
      omega
    · have hnone : lines[p.line.toNat]? = none := List.getElem?_eq_none (Nat.le_of_not_lt hk)
      simp only [if_neg hk, hnone, Option.getD_none, List.length_nil, Nat.min_zero, Nat.add_zero]
      exact (h.lineStart_of_length_le (Nat.le_of_not_lt hk)).symm

/-- An offset is not behind the start of the next line. -/
theorem Lined.offsetAt_le_lineStart (h : Lined text lines) {p : Position} (hline : 0 ≤ p.line) :
    offsetAt text p ≤ lineStart lines (p.line.toNat + 1) := by
  rw [h.offsetAt_eq, if_neg (Int.not_lt.mpr hline)]
  cases hget : lines[p.line.toNat]? with
  | none =>
      simp only [Option.getD_none, List.length_nil, Nat.min_zero, Nat.add_zero]
      exact lineStart_mono (Nat.le_succ _)
  | some line =>
      rw [lineStart_succ hget, Option.getD_some]
      exact Nat.add_le_add_left (Nat.min_le_right _ _) _

theorem Lined.lineStart_le_offsetAt (h : Lined text lines) {p : Position} (hline : 0 ≤ p.line) :
    lineStart lines p.line.toNat ≤ offsetAt text p := by
  rw [h.offsetAt_eq, if_neg (Int.not_lt.mpr hline)]
  exact Nat.le_add_right _ _

theorem offsetAt_le (text : List Char) (p : Position) : offsetAt text p ≤ text.length := by
  obtain ⟨lines, h⟩ := exists_lined text
  by_cases hline : 0 ≤ p.line
  · exact (h.offsetAt_le_lineStart hline).trans (h.lineStart_le _)
  · rw [h.offsetAt_eq, if_pos (Int.not_le.mp hline)]
    exact Nat.zero_le _

/-- A later position has no earlier offset. -/
theorem monotone_offsetAt (text : List Char) : Monotone (offsetAt text) := by
  obtain ⟨lines, h⟩ := exists_lined text
  intro p q hle
  by_cases hp : p.line < 0
  · rw [h.offsetAt_eq p, if_pos hp]
    exact Nat.zero_le _
  have hp : 0 ≤ p.line := Int.not_lt.mp hp
  rcases Position.le_iff.mp hle with hlt | ⟨heq, hcharacter⟩
  · -- the line of the later position starts where that of the earlier one ends, or behind it
    calc offsetAt text p
        ≤ lineStart lines (p.line.toNat + 1) := h.offsetAt_le_lineStart hp
      _ ≤ lineStart lines q.line.toNat := lineStart_mono (by omega)
      _ ≤ offsetAt text q := h.lineStart_le_offsetAt (by omega)
  · rw [h.offsetAt_eq, h.offsetAt_eq, ← heq]
    split
    · exact Nat.le_refl _
    · have hcharacter : p.character.toNat ≤ q.character.toNat := Int.toNat_le_toNat hcharacter
      omega

/-- Of an offset on a line, that line and those before it start at or before it. -/
theorem Lined.startsUpTo_eq (h : Lined text lines) {k i : Nat} (hline : lines[k]? = some line)
    (hon : i < line.length ∨ i = line.length ∧ k + 1 = lines.length) :
    startsUpTo text (lineStart lines k + i) = (lineStarts text).take (k + 1) := by
  have hnext := lineStart_succ hline
  rw [startsUpTo, ← List.take_append_drop (k + 1) (lineStarts text),
    List.takeWhile_append_of_pos]
  · rw [List.take_append_drop, List.append_right_eq_self]
    cases hdrop : (lineStarts text).drop (k + 1) with
    | nil => rfl
    | cons start rest =>
        have hstart : (lineStarts text)[k + 1]? = some start := by
          rw [← List.head?_drop, hdrop]
          rfl
        rw [h.getElem?_lineStarts, Option.ite_none_right_eq_some, Option.some.injEq] at hstart
        rw [List.takeWhile_cons_of_neg]
        rw [decide_eq_true_eq]
        omega
  · intro start hstart
    obtain ⟨j, hj, hget⟩ := List.mem_take_iff_getElem.mp hstart
    have hget : (lineStarts text)[j]? = some start := List.getElem?_eq_some_iff.mpr ⟨_, hget⟩
    rw [h.getElem?_lineStarts, Option.ite_none_right_eq_some, Option.some.injEq] at hget
    have hmono : lineStart lines j ≤ lineStart lines k := lineStart_mono (by omega)
    rw [decide_eq_true_eq]
    omega

/-- The position of an offset on a line. -/
theorem Lined.positionAt_eq (h : Lined text lines) {k i : Nat} (hline : lines[k]? = some line)
    (hon : i < line.length ∨ i = line.length ∧ k + 1 = lines.length) :
    positionAt text (lineStart lines k + i : Nat) = ⟨k, i⟩ := by
  have hk : k < lines.length := (List.getElem?_eq_some_iff.mp hline).1
  have hnext := lineStart_succ hline
  have hbound := h.lineStart_le (k + 1)
  have hreached := h.startsUpTo_eq hline hon
  rw [startsUpTo] at hreached
  have hclamp : clampOffset text (lineStart lines k + i : Nat) = lineStart lines k + i := by
    rw [clampOffset]
    omega
  have hlast : ((lineStarts text).take (k + 1)).getLast? = some (lineStart lines k) := by
    rw [List.getLast?_take, h.getElem?_lineStarts]
    simp [hk]
  simp only [positionAt, hclamp, hreached, hlast, List.length_take, h.length_lineStarts,
    Option.getD_some, Position.mk.injEq]
  omega

theorem positionAt_offsetAt (h : Lined text lines) {p : Position} (hon : p.IsOn lines) :
    positionAt text (offsetAt text p) = p := by
  obtain ⟨k, i, line, rfl, hline, hi⟩ := hon
  have hoffset : offsetAt text ⟨k, i⟩ = lineStart lines k + i := by
    rw [h.offsetAt_eq, if_neg (Int.not_lt.mpr (Int.natCast_nonneg k))]
    simp only [Int.toNat_natCast, hline, Option.getD_some]
    omega
  rw [hoffset]
  exact h.positionAt_eq hline hi

/-- Offsets outside the text are brought to its ends. -/
theorem offsetAt_positionAt_clamp (text : List Char) (o : Int) :
    (offsetAt text (positionAt text o) : Int) = max 0 (min o text.length) := by
  have hclamp : positionAt text o = positionAt text (clampOffset text o : Nat) := by
    have hsame : clampOffset text (clampOffset text o : Nat) = clampOffset text o := by
      simp only [clampOffset]
      omega
    simp only [positionAt, hsame]
  have hbound : clampOffset text o ≤ text.length := Nat.min_le_right _ _
  rw [hclamp, offsetAt_positionAt hbound, clampOffset]
  omega

end Positions

/-! ## Offsets and positions -/

/-- Between the offsets of a text and the positions on its lines `positionAt` and `offsetAt` are
inverse to one another and keep the order. An offset outside the text is brought to its nearer
end first, and a position outside all lines has an offset of the text, still in order. -/
theorem offsets_positions_correspond (text : List Char) :
    (∀ o : Int, (offsetAt text (positionAt text o) : Int) = max 0 (min o text.length)) ∧
      (∀ o o' : Int, 0 ≤ o → o < o' → o' ≤ text.length →
        positionAt text o < positionAt text o') ∧
      Monotone (offsetAt text) ∧ (∀ p, offsetAt text p ≤ text.length) ∧
      (∃ lines, Lined text lines) ∧
      ∀ lines, Lined text lines → ∀ p : Position, p.IsOn lines →
        positionAt text (offsetAt text p) = p := by
  refine ⟨offsetAt_positionAt_clamp text, ?_, monotone_offsetAt text, offsetAt_le text,
    exists_lined text, fun lines h p hon => positionAt_offsetAt h hon⟩
  -- positions out of order would lead back to offsets out of order
  intro o o' hlow hlt hhigh
  refine lt_of_not_ge fun hle => ?_
  have hback := Int.ofNat_le.mpr (monotone_offsetAt text hle)
  rw [offsetAt_positionAt_clamp, offsetAt_positionAt_clamp] at hback
  omega

/-- A text with line ends of all kinds. -/
def mixedText : List Char := ['a', '\r', '\n', '\r', 'b', '\n', 'c']

/-- The lines of that text. -/
def mixedLines : List (List Char) := [['a', '\r', '\n'], ['\r'], ['b', '\n'], ['c']]

theorem lined_mixedText : Lined mixedText mixedLines :=
  @Lined.next ['a'] ['\r', '\n'] _ _ (by decide) (by decide) (.of_last (by decide))
    (@Lined.next [] ['\r'] _ _ (by decide) (by decide) (.of_head (by decide))
      (@Lined.next ['b'] ['\n'] _ _ (by decide) (by decide) (.of_last (by decide))
        (.last (by decide))))

theorem offsets_positions_correspond_mixed :
    (Lined mixedText mixedLines ∧ Position.IsOn mixedLines ⟨0, 2⟩ ∧
      Position.IsOn mixedLines ⟨3, 1⟩) ∧
      positionAt mixedText (offsetAt mixedText ⟨0, 2⟩) = ⟨0, 2⟩ ∧
      positionAt mixedText (offsetAt mixedText ⟨3, 1⟩) = ⟨3, 1⟩ ∧
      positionAt mixedText 2 < positionAt mixedText 3 ∧
      offsetAt mixedText ⟨1, 9⟩ ≤ offsetAt mixedText ⟨2, -5⟩ := by
  obtain ⟨-, hstrict, hmono, -, -, hback⟩ := offsets_positions_correspond mixedText
  have hinside : Position.IsOn mixedLines ⟨0, 2⟩ := ⟨0, 2, _, rfl, rfl, .inl (by decide)⟩
  have hend : Position.IsOn mixedLines ⟨3, 1⟩ := ⟨3, 1, _, rfl, rfl, .inr (by decide)⟩
  refine ⟨⟨lined_mixedText, hinside, hend⟩, hback _ lined_mixedText _ hinside,
    hback _ lined_mixedText _ hend, ?_, ?_⟩
  · exact hstrict 2 3 (by decide) (by decide) (by decide)
  · exact hmono (Position.le_iff.mpr (by decide))

end ModAtlas.Text
