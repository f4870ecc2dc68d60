import ModAtlas.Proofs.Document.Gap
import ModAtlas.Proofs.Document.Rewriting
import ModAtlas.Proofs.Json.Newlines

/-!
# Gaps and newlines

A gap stays one when newlines are unified, as long as its line comments end where they ended: a
carriage return alone does not end a line comment, and the line feed that it becomes does.
-/

namespace ModAtlas.Document
open ModAtlas.Json ModAtlas.Text

/-! ## Comments without a carriage return -/

/-- Gaps, tokens and the marks between them, one after the other. -/
inductive Lexed : List Char → Prop
  | nil : Lexed []
  | gap {g s : List Char} (gap : Gap g) (rest : Lexed s) : Lexed (g ++ s)
  | token {u s : List Char} {v : Scalar} (token : Token u v) (rest : Lexed s) : Lexed (u ++ s)
  | mark {c : Char} {s : List Char} (isMark : c ∈ marks) (rest : Lexed s) : Lexed (c :: s)

theorem ne_newline_of_mark {c : Char} (h : c ∈ marks) : c ≠ '\r' ∧ c ≠ '\n' := by
  constructor <;>
  · rintro rfl
    revert h
    decide

theorem Lexed.of_gap {g : List Char} (h : Gap g) : Lexed g := by
  simpa using Lexed.gap h .nil

theorem Lexed.append {s r : List Char} (hs : Lexed s) (hr : Lexed r) : Lexed (s ++ r) := by
  induction hs with
  | nil => exact hr
  | gap gap rest ih =>
      rw [List.append_assoc]
      exact .gap gap ih
  | token token rest ih =>
      rw [List.append_assoc]
      exact .token token ih
  | mark isMark rest ih => exact .mark isMark ih

/-- In a line comment a carriage return stands before the line feed that ends the comment, and
nowhere else. -/
def CleanComments (text : List Char) : Prop :=
  ∀ before body after, Lexed before →
    text = before ++ '/' :: '/' :: (body ++ '\r' :: after) → '\n' ∉ body → after.head? = some '\n'

theorem cleanComments_nil : CleanComments [] := by
  intro before body after _ h _
  simp at h

theorem CleanComments.behind {s r : List Char} (h : CleanComments (s ++ r)) (hs : Lexed s) :
    CleanComments r := by
  rintro before body after hbefore rfl hbody
  exact h (s ++ before) body after (hs.append hbefore) (List.append_assoc s before _).symm hbody

/-- Where all line ends are CRLF or a line feed, no comment holds a carriage return alone. -/
theorem cleanComments_of_pairs (h : ∀ i < text.length, text[i]? = some '\r' →
    text[i + 1]? = some '\n') : CleanComments text := by
  rintro before body after - rfl -
  have hsplit : before ++ '/' :: '/' :: (body ++ '\r' :: after) =
      (before ++ '/' :: '/' :: body) ++ '\r' :: after := by simp
  rw [hsplit] at h
  have hreturn : ((before ++ '/' :: '/' :: body) ++ '\r' :: after)[
      (before ++ '/' :: '/' :: body).length]? = some '\r' := by
    rw [List.getElem?_append_right (Nat.le_refl _), Nat.sub_self]
    rfl
  have hfeed := h _ (List.getElem?_eq_some_iff.mp hreturn).1 hreturn
  rw [List.getElem?_append_right (Nat.le_succ _), Nat.succ_sub (Nat.le_refl _), Nat.sub_self,
    List.getElem?_cons_succ] at hfeed
  rwa [List.head?_eq_getElem?]

/-! ## Gaps -/

section Gaps
variable {a b c : Char} {s r body : List Char}

theorem pair_begins_iff : [a, b] <+: c :: s ↔ a = c ∧ s.head? = some b := by
  rw [List.cons_prefix_cons]
  cases s with
  | nil => simp
  | cons d s => simp [List.cons_prefix_cons, eq_comm]

theorem noEnd_unifyNewlines (h : ¬ ['*', '/'] <:+: body) :
    ¬ ['*', '/'] <:+: unifyNewlines body := by
  induction body with
  | nil => exact h
  | cons c body ih =>
      have hbody := ih (noEnd_tail h)
      have hfeed : ¬ ['*', '/'] <:+: '\n' :: unifyNewlines body := by
        rw [List.infix_cons_iff, pair_begins_iff]
        exact fun hinner => hinner.elim (fun hstart => absurd hstart.1 (by decide)) hbody
      by_cases hc : c = '\r'
      · rw [hc, unifyNewlines_return]
        split
        · exact hbody
        · exact hfeed
      · rw [unifyNewlines_cons hc, List.infix_cons_iff, pair_begins_iff,
          head?_unifyNewlines (by decide) (by decide), ← pair_begins_iff]
        rintro (hstart | hinner)
        · exact h hstart.isInfix
        · exact hbody hinner

/-- Up to its line feed a line comment stays one, whatever follows. -/
theorem line_unifyNewlines {more : List Char} (oneLine : '\n' ∉ body)
    (hclean : CleanComments ('/' :: '/' :: (body ++ '\n' :: more))) (r : List Char) :
    ∃ body', '\n' ∉ body' ∧
      unifyNewlines (body ++ '\n' :: r) = body' ++ '\n' :: unifyNewlines r := by
  by_cases hreturn : '\r' ∈ body
  · obtain ⟨inner, after, rfl, hinner⟩ := List.eq_append_cons_of_mem hreturn
    rw [List.mem_append, List.mem_cons, not_or, not_or] at oneLine
    have hhead := hclean [] inner (after ++ '\n' :: more) .nil (by simp) oneLine.1
    cases after with
    | nil =>
        refine ⟨inner, oneLine.1, ?_⟩
        rw [List.append_assoc, unifyNewlines_append (.of_head (by simp)),
          unifyNewlines_eq_self hinner]
        rfl
    | cons d after =>
        obtain rfl := Option.some.inj hhead
        exact absurd List.mem_cons_self oneLine.2.2
  · refine ⟨body, oneLine, ?_⟩
    have hlast : body.getLast? ≠ some '\r' := fun h => hreturn (List.mem_of_getLast? h)
    rw [unifyNewlines_append (.of_last hlast), unifyNewlines_eq_self hreturn,
      unifyNewlines_cons (by decide)]

theorem gap_unifyNewlines (h : Gap s) (hclean : CleanComments (s ++ r)) :
    Gap (unifyNewlines s) := by
  induction h with
  | nil => exact .nil
  | @blank c s isBlank rest ih =>
      have hrest := ih (CleanComments.behind (s := [c]) hclean (.of_gap (.blank isBlank .nil)))
      by_cases hc : c = '\r'
      · rw [hc, unifyNewlines_return]
        split
        · exact hrest
        · exact .blank (by decide) hrest
      · rw [unifyNewlines_cons hc]
        exact .blank isBlank hrest
  | @line body s oneLine rest ih =>
      have hrest := ih (CleanComments.behind (s := '/' :: '/' :: (body ++ ['\n']))
        (by simpa using hclean) (.of_gap (.line oneLine .nil)))
      have hcomment : CleanComments ('/' :: '/' :: (body ++ '\n' :: (s ++ r))) := by
        simpa using hclean
      obtain ⟨body', oneLine', heq⟩ := line_unifyNewlines oneLine hcomment s
      rw [unifyNewlines_cons (by decide), unifyNewlines_cons (by decide), heq]
      exact .line oneLine' hrest
  | @block body s noEnd rest ih =>
      have hrest := ih (CleanComments.behind (s := '/' :: '*' :: (body ++ ['*', '/']))
        (by simpa using hclean) (.of_gap (.block noEnd .nil)))
      rw [unifyNewlines_cons (by decide), unifyNewlines_cons (by decide),
        unifyNewlines_append (.of_head (by simp)), unifyNewlines_cons (by decide),
        unifyNewlines_cons (by decide)]
      exact .block (noEnd_unifyNewlines noEnd) hrest

theorem lastGap_unifyNewlines (h : LastGap s) (hclean : CleanComments s) :
    LastGap (unifyNewlines s) := by
  cases h with
  | gap inner =>
      exact .gap (gap_unifyNewlines (r := []) inner (by simpa using hclean))
  | @line s body inner oneLine =>
      have hbody : '\r' ∉ body := by
        intro hreturn
        obtain ⟨before, after, rfl⟩ := List.append_of_mem hreturn
        rw [List.mem_append, List.mem_cons, not_or, not_or] at oneLine
        have hhead := hclean s before after (.of_gap inner) rfl oneLine.1
        exact oneLine.2.2 (List.mem_of_mem_head? hhead)
      rw [unifyNewlines_append (.of_head (by simp)), unifyNewlines_cons (by decide),
        unifyNewlines_cons (by decide), unifyNewlines_eq_self hbody]
      exact .line (gap_unifyNewlines inner hclean) oneLine

theorem still_unifyNewlines (h : Still r) : Still (unifyNewlines r) := by
  cases r with
  | nil => exact h
  | cons c r =>
      obtain ⟨hblank, hline, hblock⟩ := h
      have hc : c ≠ '\r' := by
        rintro rfl
        exact absurd (hblank _ rfl) (by decide)
      rw [unifyNewlines_cons hc]
      refine ⟨hblank, ?_, ?_⟩
      · rwa [pair_begins_iff, head?_unifyNewlines (by decide) (by decide), ← pair_begins_iff]
      · rwa [pair_begins_iff, head?_unifyNewlines (by decide) (by decide), ← pair_begins_iff]

end Gaps

end ModAtlas.Document
