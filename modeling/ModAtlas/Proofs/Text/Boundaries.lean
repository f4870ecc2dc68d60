import Mathlib.Data.List.TakeWhile
import ModAtlas.Proofs.Text.Newlines
import ModAtlas.Proofs.Text.Positions

/-!
# Line boundaries

A text is cut into lines after the characters of a class. `placeBehind` is the position behind a
text for such a class, and `splitLines` cuts at the wide class of `isLineBoundary`. Offsets are
counted by line feeds, so a place by the wide class leads back to its offset just where no other
boundary stands before it.
-/

namespace ModAtlas.Text

/-! ## Lines -/

section Lines
variable {ends : Char → Bool} {line rest front text : List Char} {b : Char}

/-- No character ends a line. -/
def IsLine (ends : Char → Bool) (line : List Char) : Prop := ∀ c ∈ line, ends c = false

instance : Decidable (IsLine ends line) := List.decidableBAll (fun c => ends c = false) line

/-- A text is one line, or a line with its end and more text. -/
@[elab_as_elim]
theorem lineInduction (ends : Char → Bool) {motive : List Char → Prop}
    (last : ∀ line, IsLine ends line → motive line)
    (cut : ∀ line b rest, IsLine ends line → ends b = true → motive rest →
      motive (line ++ b :: rest))
    (text : List Char) : motive text := by
  induction hn : text.length using Nat.strongRecOn generalizing text with
  | ind n ih =>
      have hline : IsLine ends (text.takeWhile (!ends ·)) := fun c hc => by
        simpa using List.all_eq_true.mp List.all_takeWhile c hc
      have hsplit := (List.takeWhile_append_dropWhile (p := (!ends ·)) (l := text)).symm
      cases hrest : text.dropWhile (!ends ·) with
      | nil =>
          rw [hrest, List.append_nil] at hsplit
          rw [hsplit]
          exact last _ hline
      | cons b rest =>
          have hb : ends b = true := by
            have := List.head?_dropWhile_not (!ends ·) text
            simpa [hrest] using this
          rw [hrest] at hsplit
          have hlt : rest.length < n := by
            rw [← hn, hsplit, List.length_append, List.length_cons]
            omega
          rw [hsplit]
          exact cut _ b rest hline hb (ih rest.length hlt rest rfl)

theorem takeWhile_line (h : IsLine ends line) : line.takeWhile (!ends ·) = line := by
  rw [List.takeWhile_eq_self_iff]
  exact fun c hc => by simp [h c hc]

theorem takeWhile_cut (h : IsLine ends line) (hb : ends b = true) :
    (line ++ b :: rest).takeWhile (!ends ·) = line := by
  rw [List.takeWhile_append_of_pos fun c hc => by simp [h c hc],
    List.takeWhile_cons_of_neg (by simp [hb]), List.append_nil]

theorem IsLine.reverse (h : IsLine ends line) : IsLine ends line.reverse := fun c hc =>
  h c (List.mem_reverse.mp hc)

theorem IsLine.countP (h : IsLine ends line) : line.countP ends = 0 := by
  rw [List.countP_eq_zero]
  exact fun c hc => by simp [h c hc]

theorem splitLinesFrom_line {read : List Char} (h : IsLine isLineBoundary line) :
    splitLinesFrom read line =
      if read.isEmpty && line.isEmpty then [] else [read.reverse ++ line] := by
  induction line generalizing read with
  | nil => simp [splitLinesFrom]
  | cons c line ih =>
      have hc : isLineBoundary c = false := h c List.mem_cons_self
      have hline : IsLine isLineBoundary line := fun d hd => h d (List.mem_cons_of_mem _ hd)
      rw [splitLinesFrom, hc, if_neg Bool.false_ne_true, ih hline]
      · simp
      · rintro more rfl -
        exact absurd hc (by decide)

theorem splitLinesFrom_cut {read : List Char} (h : IsLine isLineBoundary line)
    (hb : isLineBoundary b = true) (hreturn : b ≠ '\r') :
    splitLinesFrom read (line ++ b :: rest) = (read.reverse ++ line) :: splitLines rest := by
  induction line generalizing read with
  | nil =>
      rw [List.nil_append, splitLinesFrom, if_pos hb, List.append_nil, splitLines]
      rintro more rfl -
      exact hreturn rfl
  | cons c line ih =>
      have hc : isLineBoundary c = false := h c List.mem_cons_self
      have hline : IsLine isLineBoundary line := fun d hd => h d (List.mem_cons_of_mem _ hd)
      rw [List.cons_append, splitLinesFrom, hc, if_neg Bool.false_ne_true, ih hline]
      · simp
      · rintro more rfl -
        exact absurd hc (by decide)

/-- A line with its end is the first one. -/
theorem splitLines_cut (h : IsLine isLineBoundary line) (hb : isLineBoundary b = true)
    (hreturn : b ≠ '\r') : splitLines (line ++ b :: rest) = line :: splitLines rest :=
  splitLinesFrom_cut h hb hreturn

/-- The line and the character on it that follow a text. -/
def placeBehind (ends : Char → Bool) (front : List Char) : Position :=
  ⟨front.countP ends, (front.reverse.takeWhile (!ends ·)).length⟩

theorem placeBehind_line (h : IsLine ends line) : placeBehind ends line = ⟨0, line.length⟩ := by
  rw [placeBehind, h.countP, takeWhile_line h.reverse, List.length_reverse]
  rfl

theorem placeBehind_cut (h : IsLine ends line) (hb : ends b = true) :
    placeBehind ends (line ++ b :: front) =
      ⟨(placeBehind ends front).line + 1, (placeBehind ends front).character⟩ := by
  have htake : (front.reverse ++ b :: line.reverse).takeWhile (!ends ·) =
      front.reverse.takeWhile (!ends ·) := by
    rw [List.takeWhile_append]
    split
    · rename_i hall
      rw [List.takeWhile_cons_of_neg (by simp [hb]), List.append_nil]
      exact ((List.takeWhile_prefix _).eq_of_length hall).symm
    · rfl
  simp [placeBehind, h.countP, htake, hb]

/-- More text is at another place. -/
theorem eq_nil_of_placeBehind_eq (h : placeBehind ends (front ++ rest) = placeBehind ends front) :
    rest = [] := by
  obtain ⟨hcount, hcolumn⟩ := Position.mk.inj h
  have hline : IsLine ends rest := by
    rw [List.countP_append] at hcount
    have hnone := List.countP_eq_zero.mp (show rest.countP ends = 0 by omega)
    exact fun c hc => Bool.eq_false_iff.mpr (hnone c hc)
  have htake : (front ++ rest).reverse.takeWhile (!ends ·) =
      rest.reverse ++ front.reverse.takeWhile (!ends ·) := by
    rw [List.reverse_append, List.takeWhile_append_of_pos]
    exact fun c hc => by simp [hline.reverse c hc]
  rw [htake, List.length_append, List.length_reverse] at hcolumn
  exact List.length_eq_zero_iff.mp (by omega)

/-- Different offsets have different places. -/
theorem placeBehind_take_inj {o i : Nat} (ho : o ≤ text.length) (hi : i ≤ text.length)
    (h : placeBehind ends (text.take o) = placeBehind ends (text.take i)) : o = i := by
  have hle {o i : Nat} (ho : o ≤ text.length) (hi : i ≤ text.length)
      (h : placeBehind ends (text.take o) = placeBehind ends (text.take i)) (hlt : o ≤ i) :
      i ≤ o := by
    have hlengths : (text.take o).length ≤ (text.take i).length := by
      rwa [List.length_take_of_le ho, List.length_take_of_le hi]
    obtain ⟨rest, hrest⟩ :=
      List.prefix_of_prefix_length_le (List.take_prefix o text) (List.take_prefix i text) hlengths
    rw [← hrest] at h
    rw [eq_nil_of_placeBehind_eq h.symm, List.append_nil] at hrest
    have := congrArg List.length hrest
    rw [List.length_take_of_le ho, List.length_take_of_le hi] at this
    exact Nat.le_of_eq this.symm
  rcases Nat.le_total o i with hoi | hio
  · exact Nat.le_antisymm hoi (hle ho hi h hoi)
  · exact Nat.le_antisymm (hle hi ho h.symm hio) hio

end Lines

/-! ## Places and offsets -/

section Places
variable {s r : List Char} {k : Nat}

/-- Line feeds are the only line boundaries. -/
def OnlyFeeds (s : List Char) : Prop := ∀ c ∈ s, isLineBoundary c = true → c = '\n'

instance : Decidable (OnlyFeeds s) :=
  List.decidableBAll (fun c => isLineBoundary c = true → c = '\n') s

theorem laterStarts_line (hreturn : '\r' ∉ s) (h : IsLine (· == '\n') s) :
    laterStarts k s = [] := by
  induction s generalizing k with
  | nil => rfl
  | cons c s ih =>
      obtain ⟨hc, hs⟩ := not_or.mp (mt List.mem_cons.mpr hreturn)
      have hfeed : c ≠ '\n' := by simpa using h c List.mem_cons_self
      rw [laterStarts_step fun heq => absurd heq.symm hc,
        ih hs fun d hd => h d (List.mem_cons_of_mem _ hd)]
      simp [hfeed, Ne.symm hc]

/-- The line that a text ends with, by its line feeds. -/
theorem lineBehind_eq_placeBehind (hreturn : '\r' ∉ s) :
    lineBehind k k s = placeBehind (· == '\n') s := by
  induction s using lineInduction (· == '\n') generalizing k with
  | last line hline =>
      rw [placeBehind_line hline]
      simp only [lineBehind, laterStarts_line hreturn hline, List.length_nil, List.getLast?_nil,
        Option.getD_none, Position.mk.injEq]
      omega
  | cut line b rest hline hb ih =>
      obtain rfl : b = '\n' := by simpa using hb
      have hreturns : '\r' ∉ line ∧ '\r' ∉ rest := by simpa using hreturn
      have hcut : CleanCut line ('\n' :: rest) :=
        .of_last fun hlast => hreturns.1 (List.mem_of_getLast? hlast)
      have hstarts : laterStarts k (line ++ '\n' :: rest) =
          (k + line.length + 1) :: laterStarts (k + line.length + 1) rest := by
        rw [laterStarts_append hcut, laterStarts_line hreturns.1 hline, List.nil_append,
          laterStarts_step fun h => absurd h (by decide)]
        simp
      have hrest := ih (k := k + line.length + 1) hreturns.2
      rw [placeBehind_cut hline hb, ← hrest]
      simp only [lineBehind, hstarts, List.length_cons, List.length_append, List.getLast?_cons,
        Option.getD_some, Position.mk.injEq]
      omega

theorem offsetAt_placeBehind (hreturn : '\r' ∉ s) :
    offsetAt (s ++ r) (placeBehind (· == '\n') s) = s.length := by
  have hcut : CleanCut s r := .of_last fun hlast => hreturn (List.mem_of_getLast? hlast)
  rw [← lineBehind_eq_placeBehind hreturn, ← positionAt_cut hcut]
  exact offsetAt_positionAt (by simp)

/-- What is on a later line than the end of a text stands behind it. -/
theorem lt_offsetAt (h : CleanCut s r) (hr : r ≠ []) {p : Position}
    (hline : ((laterStarts 0 s).length : Int) < p.line) : s.length < offsetAt (s ++ r) p := by
  have hstarts : lineStarts (s ++ r) = (0 :: laterStarts 0 s) ++ laterStarts s.length r := by
    rw [lineStarts, laterStarts_append h, Nat.zero_add, List.cons_append]
  rw [offsetAt, if_neg (by omega)]
  cases hget : (lineStarts (s ++ r))[p.line.toNat]? with
  | none =>
      have := List.length_pos_iff.mpr hr
      simpa using this
  | some start =>
      have hlength : (0 :: laterStarts 0 s).length ≤ p.line.toNat := by
        rw [List.length_cons]
        omega
      rw [hstarts, List.getElem?_append_right hlength] at hget
      have := (bounds_of_mem_laterStarts (List.mem_of_getElem? hget)).1
      dsimp only
      omega

theorem IsLine.feeds (h : IsLine isLineBoundary s) : IsLine (· == '\n') s := fun c hc => by
  rw [beq_eq_false_iff_ne]
  rintro rfl
  exact absurd (h '\n' hc) (by decide)

theorem placeBehind_of_onlyFeeds (h : OnlyFeeds s) :
    placeBehind isLineBoundary s = placeBehind (· == '\n') s := by
  induction s using lineInduction isLineBoundary with
  | last line hline => rw [placeBehind_line hline, placeBehind_line hline.feeds]
  | cut line b rest hline hb ih =>
      obtain rfl : b = '\n' := h b (by simp) hb
      have hrest : OnlyFeeds rest := fun c hc => h c (by simp [hc])
      rw [placeBehind_cut hline hb, placeBehind_cut hline.feeds rfl, ih hrest]

/-- Another boundary makes more lines than the line feeds. -/
theorem countP_lt_of_not_onlyFeeds (h : ¬ OnlyFeeds s) :
    s.countP (· == '\n') < s.countP isLineBoundary := by
  obtain ⟨c, hc, hboundary, hfeed⟩ : ∃ c ∈ s, isLineBoundary c = true ∧ c ≠ '\n' := by
    simpa [OnlyFeeds] using h
  obtain ⟨front, rest, rfl⟩ := List.append_of_mem hc
  have hle (u : List Char) : u.countP (· == '\n') ≤ u.countP isLineBoundary :=
    List.countP_mono_left fun d _ hd => by
      rw [beq_iff_eq.mp hd]
      rfl
  have := hle front
  have := hle rest
  simp only [List.countP_append, List.countP_cons, hboundary, beq_false_of_ne hfeed, if_true,
    Bool.false_eq_true, if_false]
  omega

/-- A place by the wide class of boundaries leads back to its offset just where line feeds are
the only boundaries before it. -/
theorem offsetAt_placeBehind_iff (hreturn : '\r' ∉ s) (hr : r ≠ []) :
    offsetAt (s ++ r) (placeBehind isLineBoundary s) = s.length ↔ OnlyFeeds s := by
  constructor
  · intro heq
    by_contra hother
    have hcut : CleanCut s r := .of_last fun hlast => hreturn (List.mem_of_getLast? hlast)
    have hcount : (laterStarts 0 s).length = s.countP (· == '\n') := by
      have := congrArg Position.line (lineBehind_eq_placeBehind (k := 0) hreturn)
      exact Int.ofNat.inj this
    have hlt := countP_lt_of_not_onlyFeeds hother
    have := lt_offsetAt (p := placeBehind isLineBoundary s) hcut hr (by
      rw [hcount, placeBehind]
      exact Int.ofNat_lt.mpr hlt)
    omega
  · intro h
    rw [placeBehind_of_onlyFeeds h, offsetAt_placeBehind hreturn]

end Places
end ModAtlas.Text
