import Mathlib.Data.List.Basic
import Mathlib.Data.List.Infix
import ModAtlas.Document.Token

/-!
# Gaps between tokens

A gap is a run of blanks and comments. `Cursor.skip` passes over a gap and stops at the first
character that cannot continue one; only behind the last token of a text may a line comment lack
its line feed.
-/

namespace ModAtlas.Document

/-- Blanks and comments as they stand between two tokens. -/
inductive Gap : List Char → Prop
  | nil : Gap []
  | blank {c : Char} {s : List Char} (isBlank : isLayout c = true) (rest : Gap s) : Gap (c :: s)
  | line {body s : List Char} (oneLine : '\n' ∉ body) (rest : Gap s) :
      Gap ('/' :: '/' :: (body ++ '\n' :: s))
  | block {body s : List Char} (noEnd : ¬ ['*', '/'] <:+: body) (rest : Gap s) :
      Gap ('/' :: '*' :: (body ++ '*' :: '/' :: s))

/-- What may follow the last token: a gap, and a line comment that ends with the text. -/
inductive LastGap : List Char → Prop
  | gap {s : List Char} (inner : Gap s) : LastGap s
  | line {s body : List Char} (inner : Gap s) (oneLine : '\n' ∉ body) :
      LastGap (s ++ '/' :: '/' :: body)

theorem Gap.append {s t : List Char} (hs : Gap s) (ht : Gap t) : Gap (s ++ t) := by
  induction hs with
  | nil => exact ht
  | blank isBlank rest ih => exact .blank isBlank ih
  | line oneLine rest ih => simpa using Gap.line oneLine ih
  | block noEnd rest ih => simpa using Gap.block noEnd ih

/-- No gap begins here. -/
def NoGap (r : List Char) : Prop :=
  ∀ c ∈ r.head?, isLayout c = false ∧ c ≠ '/'

theorem noGap_cons {c : Char} {r : List Char} (blank : isLayout c = false) (slash : c ≠ '/') :
    NoGap (c :: r) := by
  intro d hd
  obtain rfl : c = d := by simpa using hd
  exact ⟨blank, slash⟩

theorem noGap_nil : NoGap [] := by
  intro c hc
  cases hc

/-- Neither a blank nor a comment begins here. -/
def Still (r : List Char) : Prop :=
  (∀ c ∈ r.head?, isLayout c = false) ∧ ¬ ['/', '/'] <+: r ∧ ¬ ['/', '*'] <+: r

theorem still_nil : Still [] := ⟨nofun, by simp, by simp⟩

theorem NoGap.still {r : List Char} (h : NoGap r) : Still r := by
  have hslash {s : List Char} : ¬ '/' :: s <+: r := by
    rintro ⟨u, rfl⟩
    exact (h '/' rfl).2 rfl
  exact ⟨fun c hc => (h c hc).1, hslash, hslash⟩

/-- A comment does not end inside its text. -/
theorem noEnd_append {c : Char} {body : List Char} (noEnd : ¬ ['*', '/'] <:+: c :: body)
    (r : List Char) : ∀ u, c = '*' → body ++ '*' :: r ≠ '/' :: u := by
  rintro u rfl hu
  cases body with
  | nil => cases hu
  | cons d body =>
      obtain ⟨rfl, -⟩ := List.cons.inj hu
      exact noEnd ⟨[], body, rfl⟩

theorem noEnd_tail {c : Char} {body : List Char} (noEnd : ¬ ['*', '/'] <:+: c :: body) :
    ¬ ['*', '/'] <:+: body :=
  fun h => noEnd (h.trans (List.suffix_cons c body).isInfix)

/-! ## Passing over gaps -/

section Skipping
variable {o start : Nat} {c : Char} {body s r : List Char}

theorem skipFrom_slashes : skipFrom .open o ('/' :: '/' :: r) = skipFrom .line (o + 2) r :=
  rfl

theorem skipFrom_slashStar : skipFrom .open o ('/' :: '*' :: r) = skipFrom (.block o) (o + 2) r :=
  rfl

theorem skipFrom_starSlash :
    skipFrom (.block start) o ('*' :: '/' :: r) = skipFrom .open (o + 2) r :=
  rfl

theorem skipFrom_inLine :
    skipFrom .line o (c :: r) = skipFrom (if c = '\n' then .open else .line) (o + 1) r :=
  rfl

theorem skipFrom_inBlock (noEnd : ∀ u, c = '*' → r ≠ '/' :: u) :
    skipFrom (.block start) o (c :: r) = skipFrom (.block start) (o + 1) r := by
  rw [skipFrom]
  exact noEnd

theorem skipFrom_open (noLine : ∀ u, c = '/' → r ≠ '/' :: u)
    (noBlock : ∀ u, c = '/' → r ≠ '*' :: u) :
    skipFrom .open o (c :: r) =
      if isLayout c then skipFrom .open (o + 1) r else .ok ⟨o, c :: r⟩ := by
  rw [skipFrom]
  · exact noLine
  · exact noBlock

theorem skipFrom_line (oneLine : '\n' ∉ body) :
    skipFrom .line o (body ++ '\n' :: r) = skipFrom .open (o + body.length + 1) r := by
  induction body generalizing o with
  | nil => rfl
  | cons c body ih =>
      obtain ⟨hc, hbody⟩ := not_or.mp (mt List.mem_cons.mpr oneLine)
      rw [List.cons_append, skipFrom_inLine, if_neg (Ne.symm hc), ih hbody, List.length_cons]
      congr 1
      omega

theorem skipFrom_line_end (oneLine : '\n' ∉ body) :
    skipFrom .line o body = .ok ⟨o + body.length, []⟩ := by
  induction body generalizing o with
  | nil => rfl
  | cons c body ih =>
      obtain ⟨hc, hbody⟩ := not_or.mp (mt List.mem_cons.mpr oneLine)
      rw [skipFrom_inLine, if_neg (Ne.symm hc), ih hbody, List.length_cons]
      congr 2
      omega

theorem skipFrom_block (noEnd : ¬ ['*', '/'] <:+: body) :
    skipFrom (.block start) o (body ++ '*' :: '/' :: r) =
      skipFrom .open (o + body.length + 2) r := by
  induction body generalizing o with
  | nil => rfl
  | cons c body ih =>
      rw [List.cons_append, skipFrom_inBlock (noEnd_append noEnd _), ih (noEnd_tail noEnd),
        List.length_cons]
      congr 1
      omega

theorem skipFrom_blank (isBlank : isLayout c = true) :
    skipFrom .open o (c :: r) = skipFrom .open (o + 1) r := by
  have hslash : c ≠ '/' := by
    rintro rfl
    cases isBlank
  rw [skipFrom_open (fun _ h => absurd h hslash) (fun _ h => absurd h hslash), if_pos isBlank]

theorem skipFrom_gap (h : Gap s) :
    skipFrom .open o (s ++ r) = skipFrom .open (o + s.length) r := by
  induction h generalizing o with
  | nil => rfl
  | blank isBlank rest ih =>
      rw [List.cons_append, skipFrom_blank isBlank, ih, List.length_cons]
      congr 1
      omega
  | line oneLine rest ih =>
      rw [List.cons_append, List.cons_append, List.append_assoc, List.cons_append,
        skipFrom_slashes, skipFrom_line oneLine, ih]
      simp only [List.length_cons, List.length_append]
      congr 1
      omega
  | block noEnd rest ih =>
      rw [List.cons_append, List.cons_append, List.append_assoc, List.cons_append,
        List.cons_append, skipFrom_slashStar, skipFrom_block noEnd, ih]
      simp only [List.length_cons, List.length_append]
      congr 1
      omega

theorem skipFrom_still (h : Still r) : skipFrom .open o r = .ok ⟨o, r⟩ := by
  obtain ⟨hblank, hline, hblock⟩ := h
  cases r with
  | nil => rfl
  | cons c r =>
      rw [skipFrom_open, if_neg (by simp [hblank c rfl])]
      · rintro u rfl rfl
        exact hline ⟨u, rfl⟩
      · rintro u rfl rfl
        exact hblock ⟨u, rfl⟩

/-- Without an end in the text a comment is not closed. -/
theorem skipFrom_block_end (noEnd : ¬ ['*', '/'] <:+: body) :
    skipFrom (.block start) o body = stop .unclosedComment start := by
  induction body generalizing o with
  | nil => rfl
  | cons c body ih =>
      rw [skipFrom_inBlock, ih (noEnd_tail noEnd)]
      rintro u rfl rfl
      exact noEnd ⟨[], u, rfl⟩

/-- Skipping passes over a gap that is followed by something else. -/
theorem skip_gap (h : Gap s) (hr : NoGap r) :
    Cursor.skip ⟨o, s ++ r⟩ = .ok ⟨o + s.length, r⟩ := by
  rw [Cursor.skip, skipFrom_gap h, skipFrom_still hr.still]

theorem skip_lastGap (h : LastGap s) : Cursor.skip ⟨o, s⟩ = .ok ⟨o + s.length, []⟩ := by
  cases h with
  | gap inner => simpa using skip_gap (o := o) inner noGap_nil
  | line inner oneLine =>
      rw [Cursor.skip, skipFrom_gap inner, skipFrom_slashes, skipFrom_line_end oneLine]
      simp only [List.length_cons, List.length_append]
      congr 2
      omega

end Skipping

/-! ## What was passed over -/

theorem eq_of_skipFrom_line {o : Nat} {t : List Char} {x : Except Failure Cursor}
    (h : skipFrom .line o t = x) :
    ∃ body, '\n' ∉ body ∧ (t = body ∧ x = .ok ⟨o + body.length, []⟩ ∨
      ∃ rest, t = body ++ '\n' :: rest ∧ skipFrom .open (o + body.length + 1) rest = x) := by
  by_cases hline : '\n' ∈ t
  · obtain ⟨body, rest, rfl, oneLine⟩ := List.eq_append_cons_of_mem hline
    rw [skipFrom_line oneLine] at h
    exact ⟨body, oneLine, .inr ⟨rest, rfl, h⟩⟩
  · rw [skipFrom_line_end hline] at h
    exact ⟨t, hline, .inl ⟨rfl, h.symm⟩⟩

theorem eq_of_skipFrom_block {o start : Nat} {t : List Char} {x : Except Failure Cursor}
    (h : skipFrom (.block start) o t = x) :
    ¬ ['*', '/'] <:+: t ∧ x = stop .unclosedComment start ∨
      ∃ body rest, ¬ ['*', '/'] <:+: body ∧ t = body ++ '*' :: '/' :: rest ∧
        skipFrom .open (o + body.length + 2) rest = x := by
  induction t generalizing o with
  | nil => exact .inl ⟨by simp, h.symm⟩
  | cons d t ih =>
      by_cases hend : ∃ rest, d = '*' ∧ t = '/' :: rest
      · obtain ⟨rest, rfl, rfl⟩ := hend
        rw [skipFrom_starSlash] at h
        exact .inr ⟨[], rest, by simp, rfl, h⟩
      · have hcons {u more : List Char} (ht : t = u ++ more) (hu : ¬ ['*', '/'] <:+: u) :
            ¬ ['*', '/'] <:+: d :: u := by
          rw [List.infix_cons_iff]
          rintro (⟨v, hv⟩ | hinner)
          · obtain ⟨rfl, rfl⟩ := List.cons.inj hv
            exact hend ⟨v ++ more, rfl, ht⟩
          · exact hu hinner
        rw [skipFrom_inBlock fun rest hd ht => hend ⟨rest, hd, ht⟩] at h
        rcases ih h with ⟨hnone, hstop⟩ | ⟨body, rest, hbody, rfl, hc⟩
        · exact .inl ⟨hcons (List.append_nil t).symm hnone, hstop⟩
        refine .inr ⟨d :: body, rest, hcons rfl hbody, rfl, ?_⟩
        rw [← hc, List.length_cons]
        congr 1
        omega

/-- A cursor stands behind a stretch of the text that was passed over, and there is nothing more to
skip. Only at the end of the text may the stretch end in a comment without a line feed. -/
structure Skipped (o : Nat) (t : List Char) (c : Cursor) (s : List Char) : Prop where
  text : t = s ++ c.rest
  offset : c.offset = o + s.length
  last : LastGap s
  inner : c.rest ≠ [] → Gap s
  still : Still c.rest

theorem Skipped.stays {o : Nat} {t : List Char} {c : Cursor} {s : List Char}
    (h : Skipped o t c s) : c.skip = .ok c := skipFrom_still h.still

theorem Skipped.after {o : Nat} {t : List Char} {c : Cursor} {g s : List Char} (hg : Gap g)
    (h : Skipped (o + g.length) t c s) : Skipped o (g ++ t) c (g ++ s) where
  text := by rw [h.text, List.append_assoc]
  offset := by rw [h.offset, List.length_append, Nat.add_assoc]
  last := by
    cases h.last with
    | gap inner => exact .gap (hg.append inner)
    | line inner oneLine =>
        rw [← List.append_assoc]
        exact .line (hg.append inner) oneLine
  inner := fun hne => hg.append (h.inner hne)
  still := h.still

theorem Skipped.stay {o : Nat} {r : List Char} (h : Still r) : Skipped o r ⟨o, r⟩ [] :=
  ⟨rfl, rfl, .gap .nil, fun _ => .nil, h⟩

/-- Skipping stops in the middle of a text only at a comment that is never closed. -/
structure Unclosed (o : Nat) (t : List Char) (x : Except Failure Cursor) (s : List Char) :
    Prop where
  comment : ∃ body, t = s ++ '/' :: '*' :: body ∧ ¬ ['*', '/'] <:+: body
  gap : Gap s
  fault : x = stop .unclosedComment (o + s.length)

theorem Unclosed.after {o : Nat} {t : List Char} {x : Except Failure Cursor} {g s : List Char}
    (hg : Gap g) (h : Unclosed (o + g.length) t x s) : Unclosed o (g ++ t) x (g ++ s) where
  comment := by
    obtain ⟨body, rfl, noEnd⟩ := h.comment
    exact ⟨body, (List.append_assoc g s _).symm, noEnd⟩
  gap := hg.append h.gap
  fault := by rw [h.fault, List.length_append, Nat.add_assoc]

/-- One turn of skipping: it is at its end, or passes over the blank or comment that begins here. -/
inductive SkipTurn (o : Nat) : List Char → Except Failure Cursor → Prop
  | stay {t : List Char} (still : Still t) : SkipTurn o t (.ok ⟨o, t⟩)
  | last {body : List Char} (oneLine : '\n' ∉ body) :
      SkipTurn o ('/' :: '/' :: body) (.ok ⟨o + 2 + body.length, []⟩)
  | unclosed {body : List Char} (noEnd : ¬ ['*', '/'] <:+: body) :
      SkipTurn o ('/' :: '*' :: body) (stop .unclosedComment o)
  | pass {g r : List Char} {x : Except Failure Cursor} (gap : Gap g) (advances : g ≠ [])
      (rest : skipFrom .open (o + g.length) r = x) : SkipTurn o (g ++ r) x

theorem still_cons {d : Char} {t : List Char} (hblank : isLayout d ≠ true)
    (hline : ¬ ∃ u, d = '/' ∧ t = '/' :: u) (hblock : ¬ ∃ u, d = '/' ∧ t = '*' :: u) :
    Still (d :: t) := by
  refine ⟨?_, ?_, ?_⟩
  · intro c hc
    obtain rfl := Option.some.inj hc
    exact Bool.eq_false_iff.mpr hblank
  · rintro ⟨u, hu⟩
    obtain ⟨rfl, rfl⟩ := List.cons.inj hu
    exact hline ⟨u, rfl, rfl⟩
  · rintro ⟨u, hu⟩
    obtain ⟨rfl, rfl⟩ := List.cons.inj hu
    exact hblock ⟨u, rfl, rfl⟩

theorem skipTurn {o : Nat} {t : List Char} {x : Except Failure Cursor}
    (h : skipFrom .open o t = x) : SkipTurn o t x := by
  cases t with
  | nil =>
      subst h
      exact .stay still_nil
  | cons d t =>
      by_cases hblank : isLayout d = true
      · rw [skipFrom_blank hblank] at h
        exact .pass (g := [d]) (.blank hblank .nil) (List.cons_ne_nil _ _) h
      by_cases hline : ∃ u, d = '/' ∧ t = '/' :: u
      · obtain ⟨u, rfl, rfl⟩ := hline
        rw [skipFrom_slashes] at h
        obtain ⟨body, oneLine, ⟨rfl, rfl⟩ | ⟨rest, rfl, hx⟩⟩ := eq_of_skipFrom_line h
        · exact .last oneLine
        · have hpass : SkipTurn o ('/' :: '/' :: (body ++ ['\n']) ++ rest) x := by
            refine .pass (.line oneLine .nil) (List.cons_ne_nil _ _) ?_
            rw [← hx]
            simp only [List.length_cons, List.length_append, List.length_nil]
            congr 1
            omega
          simpa using hpass
      by_cases hblock : ∃ u, d = '/' ∧ t = '*' :: u
      · obtain ⟨u, rfl, rfl⟩ := hblock
        rw [skipFrom_slashStar] at h
        rcases eq_of_skipFrom_block h with ⟨noEnd, rfl⟩ | ⟨body, rest, noEnd, rfl, hx⟩
        · exact .unclosed noEnd
        · have hpass : SkipTurn o ('/' :: '*' :: (body ++ ['*', '/']) ++ rest) x := by
            refine .pass (.block noEnd .nil) (List.cons_ne_nil _ _) ?_
            rw [← hx]
            simp only [List.length_cons, List.length_append, List.length_nil]
            congr 1
            omega
          simpa using hpass
      · have hstill := still_cons hblank hline hblock
        rw [skipFrom_still hstill] at h
        subst h
        exact .stay hstill

/-- Whatever skipping passes over is a gap. -/
theorem skipped_or_unclosed {o : Nat} {t : List Char} {x : Except Failure Cursor}
    (h : skipFrom .open o t = x) :
    (∃ c s, x = .ok c ∧ Skipped o t c s) ∨ ∃ s, Unclosed o t x s := by
  induction hlength : t.length using Nat.strong_induction_on generalizing o t with
  | _ n ih =>
      subst hlength
      cases skipTurn h with
      | stay still => exact .inl ⟨_, [], rfl, .stay still⟩
      | @last body oneLine =>
          exact .inl ⟨_, '/' :: '/' :: body, rfl, by simp, by simp; omega, .line .nil oneLine,
            fun hne => absurd rfl hne, still_nil⟩
      | @unclosed body noEnd => exact .inr ⟨[], ⟨body, rfl, noEnd⟩, .nil, rfl⟩
      | @pass g r x gap advances rest =>
          -- behind the gap skipping starts anew, with less of the text left
          have hshort : r.length < (g ++ r).length := by
            have := List.length_pos_iff.mpr advances
            rw [List.length_append]
            omega
          rcases ih r.length hshort rest rfl with ⟨c, s, hc, hs⟩ | ⟨s, hs⟩
          · exact .inl ⟨c, g ++ s, hc, hs.after gap⟩
          · exact .inr ⟨g ++ s, hs.after gap⟩

theorem exists_skipped {o : Nat} {t : List Char} {c : Cursor} (h : skipFrom .open o t = .ok c) :
    ∃ s, Skipped o t c s := by
  rcases skipped_or_unclosed h with ⟨c', s, hc, hs⟩ | ⟨s, hs⟩
  · cases hc
    exact ⟨s, hs⟩
  · cases hs.fault

end ModAtlas.Document
