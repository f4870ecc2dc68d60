import Mathlib.Data.List.Basic
import Mathlib.Data.List.Infix
import ModAtlas.Text.Lines

/-!
# Unified newlines

Writing every line end as a line feed makes a text shorter and leaves its lines as they are. An
offset that does not part a CRLF has the same line and the same character in both texts.
-/

namespace ModAtlas.Text

variable {c : Char} {s r : List Char}

/-! ## Texts by their line ends -/

/-- A text is empty, begins with a CRLF, or with a character that does not begin one. -/
@[elab_as_elim]
theorem newlineInduction {motive : List Char → Prop} (nil : motive [])
    (crlf : ∀ rest, motive rest → motive ('\r' :: '\n' :: rest))
    (step : ∀ c rest, (c = '\r' → rest.head? ≠ some '\n') → motive rest → motive (c :: rest))
    (s : List Char) : motive s := by
  induction s using unifyNewlines.induct with
  | case1 => exact nil
  | case2 rest ih => exact crlf rest ih
  | case3 c rest hcrlf ih =>
      refine step c rest (fun hc hhead => ?_) ih
      obtain ⟨more, rfl⟩ := List.head?_eq_some_iff.mp hhead
      exact hcrlf more hc rfl

theorem unifyNewlines_crlf : unifyNewlines ('\r' :: '\n' :: s) = '\n' :: unifyNewlines s := rfl

theorem unifyNewlines_step (h : c = '\r' → s.head? ≠ some '\n') :
    unifyNewlines (c :: s) = (if c = '\r' then '\n' else c) :: unifyNewlines s := by
  rw [unifyNewlines]
  rintro rest hc rfl
  exact h hc rfl

theorem unifyNewlines_cons (hc : c ≠ '\r') : unifyNewlines (c :: s) = c :: unifyNewlines s := by
  rw [unifyNewlines_step fun h => absurd h hc, if_neg hc]

/-- A carriage return becomes a line feed, alone or together with the line feed behind it. -/
theorem unifyNewlines_return (s : List Char) : unifyNewlines ('\r' :: s) =
    if s.head? = some '\n' then unifyNewlines s else '\n' :: unifyNewlines s := by
  split
  · rename_i h
    obtain ⟨rest, rfl⟩ := List.head?_eq_some_iff.mp h
    rw [unifyNewlines_crlf, unifyNewlines_cons (by decide)]
  · rename_i h
    rw [unifyNewlines_step fun _ => h, if_pos rfl]

theorem exists_unifyNewlines_return (s : List Char) :
    ∃ s', unifyNewlines ('\r' :: s) = '\n' :: s' := by
  by_cases h : s.head? = some '\n'
  · obtain ⟨rest, rfl⟩ := List.head?_eq_some_iff.mp h
    exact ⟨_, rfl⟩
  · exact ⟨_, by rw [unifyNewlines_return, if_neg h]⟩

theorem unifyNewlines_eq_nil : unifyNewlines s = [] ↔ s = [] := by
  induction s using newlineInduction with
  | nil => exact Iff.rfl
  | crlf rest ih => simp [unifyNewlines_crlf]
  | step c rest hc ih => simp [unifyNewlines_step hc]

theorem length_unifyNewlines_le (s : List Char) : (unifyNewlines s).length ≤ s.length := by
  induction s using newlineInduction with
  | nil => exact Nat.le_refl _
  | crlf rest ih =>
      simp only [unifyNewlines_crlf, List.length_cons]
      omega
  | step c rest hc ih =>
      simp only [unifyNewlines_step hc, List.length_cons]
      omega

theorem unifyNewlines_eq_self (h : '\r' ∉ s) : unifyNewlines s = s := by
  induction s with
  | nil => rfl
  | cons c s ih =>
      obtain ⟨hc, hs⟩ := not_or.mp (mt List.mem_cons.mpr h)
      rw [unifyNewlines_cons (Ne.symm hc), ih hs]

theorem return_notMem_unifyNewlines (s : List Char) : '\r' ∉ unifyNewlines s := by
  induction s using newlineInduction with
  | nil => exact List.not_mem_nil
  | crlf rest ih => simpa [unifyNewlines_crlf] using ih
  | step c rest hc ih =>
      rw [unifyNewlines_step hc, List.mem_cons, not_or]
      refine ⟨?_, ih⟩
      split
      · decide
      · rename_i hne
        exact Ne.symm hne

/-- What was read from the unified text without a line end stands in the text itself. -/
theorem exists_of_unifyNewlines_eq {w r' : List Char} (hw : '\n' ∉ w)
    (h : unifyNewlines s = w ++ r') : ∃ r, s = w ++ r ∧ unifyNewlines r = r' := by
  induction w generalizing s with
  | nil => exact ⟨s, rfl, h⟩
  | cons d w ih =>
      obtain ⟨hd, hrest⟩ := not_or.mp (mt List.mem_cons.mpr hw)
      cases s with
      | nil => cases h
      | cons c s =>
          by_cases hc : c = '\r'
          · subst hc
            obtain ⟨s', hs'⟩ := exists_unifyNewlines_return s
            rw [hs'] at h
            exact absurd (List.cons.inj h).1 hd
          · rw [unifyNewlines_cons hc] at h
            obtain ⟨rfl, htail⟩ := List.cons.inj h
            obtain ⟨r, rfl, hr⟩ := ih hrest htail
            exact ⟨r, rfl, hr⟩

/-- Of characters that are no line ends, the same one comes first. -/
theorem head?_unifyNewlines {d : Char} (hreturn : d ≠ '\r') (hfeed : d ≠ '\n') :
    (unifyNewlines s).head? = some d ↔ s.head? = some d := by
  cases s with
  | nil => rfl
  | cons c s =>
      by_cases hc : c = '\r'
      · subst hc
        obtain ⟨s', hs'⟩ := exists_unifyNewlines_return s
        simp [hs', hreturn.symm, hfeed.symm]
      · simp [unifyNewlines_cons hc]

/-! ## Clean cuts -/

/-- A text and what follows it do not part a CRLF. -/
def CleanCut (s r : List Char) : Prop := s.getLast? = some '\r' → r.head? ≠ some '\n'

theorem CleanCut.nil : CleanCut [] r := nofun

theorem CleanCut.of_head (h : r.head? ≠ some '\n') : CleanCut s r := fun _ => h

theorem CleanCut.of_last (h : s.getLast? ≠ some '\r') : CleanCut s r := fun hs => absurd hs h

theorem CleanCut.tail (h : CleanCut (c :: s) r) : CleanCut s r := by
  intro hs
  apply h
  rw [List.getLast?_cons, hs]
  rfl

/-- More text in front leaves a cut clean, unless the text was empty. -/
theorem CleanCut.append_left {u : List Char} (h : CleanCut s r) (hne : s ≠ []) :
    CleanCut (u ++ s) r := by
  intro hs
  rw [List.getLast?_append_of_ne_nil _ hne] at hs
  exact h hs

theorem CleanCut.of_append_right {u : List Char} (h : CleanCut s (r ++ u)) (hne : r ≠ []) :
    CleanCut s r := by
  intro hs
  rw [← List.head?_append_of_ne_nil r hne]
  exact h hs

/-- What follows a character that does not begin a CRLF does not make it one, at a clean cut. -/
theorem CleanCut.head?_append (h : CleanCut (c :: s) r) (hc : c = '\r' → s.head? ≠ some '\n') :
    c = '\r' → (s ++ r).head? ≠ some '\n' := by
  rintro rfl
  cases s with
  | nil => exact h rfl
  | cons d s => exact hc rfl

theorem cleanCut_unifyNewlines : CleanCut (unifyNewlines s) r :=
  .of_last fun h => return_notMem_unifyNewlines s (List.mem_of_getLast? h)

theorem unifyNewlines_append (h : CleanCut s r) :
    unifyNewlines (s ++ r) = unifyNewlines s ++ unifyNewlines r := by
  induction s using newlineInduction with
  | nil => rfl
  | crlf rest ih =>
      rw [List.cons_append, List.cons_append, unifyNewlines_crlf, unifyNewlines_crlf,
        ih h.tail.tail, List.cons_append]
  | step c rest hc ih =>
      rw [List.cons_append, unifyNewlines_step (h.head?_append hc), unifyNewlines_step hc,
        ih h.tail, List.cons_append]

theorem newline_mem_unifyNewlines (h : '\r' ∈ s) : '\n' ∈ unifyNewlines s := by
  obtain ⟨before, after, rfl⟩ := List.append_of_mem h
  obtain ⟨after', hafter⟩ := exists_unifyNewlines_return after
  rw [unifyNewlines_append (.of_head (by simp)), hafter]
  exact List.mem_append_right _ List.mem_cons_self

/-! ## Lines -/

theorem laterStarts_step {k : Nat} (h : c = '\r' → s.head? ≠ some '\n') :
    laterStarts k (c :: s) =
      (if c = '\r' ∨ c = '\n' then [k + 1] else []) ++ laterStarts (k + 1) s := by
  rw [laterStarts]
  · split <;> rfl
  · rintro rest hc rfl
    exact h hc rfl

theorem laterStarts_append {k : Nat} (h : CleanCut s r) :
    laterStarts k (s ++ r) = laterStarts k s ++ laterStarts (k + s.length) r := by
  induction s using newlineInduction generalizing k with
  | nil => rfl
  | crlf rest ih =>
      rw [List.cons_append, List.cons_append, laterStarts, laterStarts, ih h.tail.tail,
        List.cons_append, List.length_cons, List.length_cons]
      congr 3
      omega
  | step c rest hc ih =>
      rw [List.cons_append, laterStarts_step (h.head?_append hc), laterStarts_step hc,
        ih h.tail, List.append_assoc, List.length_cons]
      congr 3
      omega

theorem bounds_of_mem_laterStarts {k i : Nat} (h : i ∈ laterStarts k s) :
    k < i ∧ i ≤ k + s.length := by
  induction s using newlineInduction generalizing k with
  | nil => cases h
  | crlf rest ih =>
      simp only [List.length_cons]
      rcases List.mem_cons.mp h with rfl | h
      · omega
      · have := ih h
        omega
  | step c rest hc ih =>
      rw [laterStarts_step hc, List.mem_append] at h
      simp only [List.length_cons]
      rcases h with h | h
      · split at h
        · obtain rfl := List.mem_singleton.mp h
          omega
        · cases h
      · have := ih h
        omega

/-- How many lines a text starts, and how many characters stand behind the last start. `start` is
where the line begins that the text continues. -/
def lineBehind (start k : Nat) (s : List Char) : Position :=
  let starts := laterStarts k s
  ⟨starts.length, ((k + s.length : Nat) : Int) - (starts.getLast?.getD start : Nat)⟩

/-- Unified newlines change neither of the two. -/
theorem lineBehind_unifyNewlines {start start' k k' : Nat}
    (h : (k' : Int) - start' = k - start) :
    lineBehind start' k' (unifyNewlines s) = lineBehind start k s := by
  induction s using newlineInduction generalizing k k' start start' with
  | nil => simpa [unifyNewlines, lineBehind, laterStarts] using h
  | crlf rest ih =>
      have hcolumn : ((k' + 1 : Nat) : Int) - (k' + 1 : Nat) = (k + 2 : Nat) - (k + 2 : Nat) := by
        omega
      have hrest := ih hcolumn
      have hfeed : laterStarts k' ('\n' :: unifyNewlines rest) =
          (k' + 1) :: laterStarts (k' + 1) (unifyNewlines rest) :=
        laterStarts_step nofun
      simp only [lineBehind, Position.mk.injEq] at hrest
      simp only [unifyNewlines_crlf, lineBehind, hfeed, laterStarts, List.length_cons,
        List.getLast?_cons, Option.getD_some, Position.mk.injEq]
      omega
  | step c rest hc ih =>
      by_cases hend : c = '\r' ∨ c = '\n'
      · have hcolumn : ((k' + 1 : Nat) : Int) - (k' + 1 : Nat) = (k + 1 : Nat) - (k + 1 : Nat) := by
          omega
        have hrest := ih hcolumn
        have hfeed : (if c = '\r' then '\n' else c) = '\n' := by
          rcases hend with rfl | rfl <;> rfl
        have hstarts : laterStarts k' ('\n' :: unifyNewlines rest) =
            (k' + 1) :: laterStarts (k' + 1) (unifyNewlines rest) :=
          laterStarts_step nofun
        simp only [lineBehind, Position.mk.injEq] at hrest
        simp only [unifyNewlines_step hc, hfeed, lineBehind, hstarts, laterStarts_step hc,
          if_pos hend, List.singleton_append, List.length_cons, List.getLast?_cons,
          Option.getD_some, Position.mk.injEq]
        omega
      · have hreturn : c ≠ '\r' := fun h => hend (.inl h)
        have hcolumn : ((k' + 1 : Nat) : Int) - start' = (k + 1 : Nat) - start := by omega
        have hrest := ih hcolumn
        simp only [lineBehind, Position.mk.injEq] at hrest
        simp only [unifyNewlines_cons hreturn, lineBehind, laterStarts_step hc,
          laterStarts_step (fun h => absurd h hreturn), if_neg hend, List.nil_append,
          List.length_cons, Position.mk.injEq]
        omega

/-- A clean cut is on the line that the text before it ends with. -/
theorem positionAt_cut (h : CleanCut s r) :
    positionAt (s ++ r) s.length = lineBehind 0 0 s := by
  have hhere : clampOffset (s ++ r) s.length = s.length := by simp [clampOffset]
  have hreached : (lineStarts (s ++ r)).takeWhile (· ≤ s.length) = 0 :: laterStarts 0 s := by
    have hbefore (i : Nat) (hi : i ∈ 0 :: laterStarts 0 s) : decide (i ≤ s.length) = true := by
      rcases List.mem_cons.mp hi with rfl | hi
      · simp
      · simpa using (bounds_of_mem_laterStarts hi).2
    rw [lineStarts, laterStarts_append h, ← List.cons_append, List.takeWhile_append_of_pos hbefore]
    have hbehind : (laterStarts (0 + s.length) r).takeWhile (· ≤ s.length) = [] := by
      cases hr : laterStarts (0 + s.length) r with
      | nil => rfl
      | cons i rest =>
          have hi : i ∈ laterStarts (0 + s.length) r := hr ▸ List.mem_cons_self
          have := (bounds_of_mem_laterStarts hi).1
          rw [List.takeWhile_cons_of_neg]
          simp only [decide_eq_true_eq]
          omega
    rw [hbehind, List.append_nil]
  simp [positionAt, hhere, hreached, lineBehind, List.getLast?_cons]

/-! ## Corresponding offsets -/

/-- Offsets of a text and of its unified form that cut both at the same place. -/
def SameCut (text : List Char) (o o' : Nat) : Prop :=
  ∃ s r, text = s ++ r ∧ CleanCut s r ∧ o = s.length ∧ o' = (unifyNewlines s).length

namespace SameCut
variable {text : List Char} {o o' i i' : Nat}

theorem positionAt_eq (h : SameCut text o o') :
    positionAt text o = positionAt (unifyNewlines text) o' := by
  obtain ⟨s, r, rfl, hcut, rfl, rfl⟩ := h
  rw [unifyNewlines_append hcut, positionAt_cut hcut, positionAt_cut cleanCut_unifyNewlines,
    lineBehind_unifyNewlines rfl]

theorem mono (h : SameCut text o o') (hi : SameCut text i i') (hle : o ≤ i) : o' ≤ i' := by
  obtain ⟨s, r, rfl, hcut, rfl, rfl⟩ := h
  obtain ⟨u, v, htext, -, rfl, rfl⟩ := hi
  obtain ⟨m, rfl⟩ : s <+: u := List.prefix_of_prefix_length_le ⟨r, rfl⟩ ⟨v, htext.symm⟩ hle
  rw [List.append_assoc, List.append_cancel_left_eq] at htext
  subst htext
  by_cases hm : m = []
  · simp [hm]
  · rw [unifyNewlines_append (hcut.of_append_right hm), List.length_append]
    exact Nat.le_add_right _ _

/-- From one cut on up to another one, if it comes later. -/
theorem upTo (h : SameCut text o o') (hi : SameCut text i i') :
    SameCut text (o + (i - o)) (o' + (i' - o')) := by
  by_cases hle : o ≤ i
  · rwa [Nat.add_sub_cancel' hle, Nat.add_sub_cancel' (h.mono hi hle)]
  · have hle' := hi.mono h (Nat.le_of_not_le hle)
    rwa [Nat.sub_eq_zero_of_le (Nat.le_of_not_le hle), Nat.sub_eq_zero_of_le hle']

end SameCut

end ModAtlas.Text
