import ModAtlas.Proofs.Document.Comments
import ModAtlas.Proofs.Document.Walk

/-!
# Readings that are alike

Two cursors are abreast when they stand at the same cut of a text and of its unified form. Two
readings are alike when they give results that are the same but for such offsets, or stop at such
offsets. Trees that are alike stand for the same value and have the same lines and characters.
-/

namespace ModAtlas.Document
open ModAtlas.Json ModAtlas.Text

/-! ## Readings in step -/

variable {text : List Char}

/-- Two cursors stand at the same cut of a text and of its unified form, between tokens. -/
structure Abreast (text : List Char) (c c' : Cursor) : Prop where
  cut : ∃ before, text = before ++ c.rest ∧ CleanCut before c.rest ∧ c.offset = before.length ∧
    c'.offset = (unifyNewlines before).length
  rest : c'.rest = unifyNewlines c.rest
  comments : CleanComments c.rest

/-- Two faults are the same, except for a string that escapes a CRLF. -/
def SameFault (text : List Char) (k : Nat) (f f' : Fault) : Prop :=
  f = f' ∨ (f = .unclosedString ∧ f' = .badEscape ∧
    ∃ u, text.drop k = '"' :: u ∧ EscapesNewline u)

/-- Two readings give related results or stop at the same place. -/
inductive Alike {α : Type} (text : List Char) (related : α → α → Prop) :
    Except Failure α → Except Failure α → Prop
  | ok {a a' : α} (result : related a a') : Alike text related (.ok a) (.ok a')
  | fault {f f' : Fault} {k k' : Nat} (place : SameCut text k k') (same : SameFault text k f f') :
      Alike text related (.error (.fault f k)) (.error (.fault f' k'))
  | tooLong : Alike text related (.error .numeralTooLong) (.error .numeralTooLong)

section Steps
variable {α β : Type} {c c' : Cursor} {o o' : Nat} {r s : List Char}

theorem Abreast.sameCut (h : Abreast text c c') : SameCut text c.offset c'.offset := by
  obtain ⟨before, htext, hcut, ho, ho'⟩ := h.cut
  exact ⟨before, c.rest, htext, hcut, ho, ho'⟩

/-- Cursors stay abreast when both pass over the same stretch. -/
theorem Abreast.advance (h : Abreast text ⟨o, s ++ r⟩ c') (hcut : CleanCut s r)
    (hclean : CleanComments r) :
    Abreast text ⟨o + s.length, r⟩ ⟨c'.offset + (unifyNewlines s).length, unifyNewlines r⟩ := by
  obtain ⟨before, htext, hbefore, ho, ho'⟩ := h.cut
  refine ⟨⟨before ++ s, ?_, ?_, ?_, ?_⟩, rfl, hclean⟩
  · rw [htext, List.append_assoc]
  · by_cases hne : s = []
    · subst hne
      simpa using hbefore
    · exact hcut.append_left hne
  · rw [List.length_append, ← ho]
  · have hs : CleanCut before s := by
      by_cases hne : s = []
      · exact .of_head (by simp [hne])
      · exact hbefore.of_append_right hne
    rw [unifyNewlines_append hs, List.length_append, ← ho']

theorem Alike.bind {first : α → α → Prop} {second : β → β → Prop} {x x' : Except Failure α}
    {f f' : α → Except Failure β} (h : Alike text first x x')
    (hnext : ∀ a a', first a a' → Alike text second (f a) (f' a')) :
    Alike text second (x >>= f) (x' >>= f') := by
  cases h with
  | ok result => exact hnext _ _ result
  | fault place same => exact .fault place same
  | tooLong => exact .tooLong

theorem Alike.stop {related : α → α → Prop} {k k' : Nat} (h : SameCut text k k') (f : Fault) :
    Alike text related (Document.stop f k) (Document.stop f k') :=
  .fault h (.inl rfl)

theorem Still.cleanCut (h : Still r) : CleanCut s r := by
  apply CleanCut.of_head
  intro hhead
  exact absurd (h.1 _ hhead) (by decide)

theorem skip_unifyNewlines {t : List Char} {i : Nat} (hs : Skipped o t c s)
    (hclean : CleanComments t) :
    Cursor.skip ⟨i, unifyNewlines t⟩ =
      .ok ⟨i + (unifyNewlines s).length, unifyNewlines c.rest⟩ := by
  rw [hs.text] at hclean ⊢
  rw [unifyNewlines_append hs.still.cleanCut]
  by_cases hrest : c.rest = []
  · rw [hrest, List.append_nil] at hclean
    rw [hrest, unifyNewlines, List.append_nil, skip_lastGap (lastGap_unifyNewlines hs.last hclean)]
  · have hgap := gap_unifyNewlines (hs.inner hrest) hclean
    rw [Cursor.skip, skipFrom_gap hgap, skipFrom_still (still_unifyNewlines hs.still)]

/-- Both skip the same gap, or stop at the same comment that is never closed. -/
theorem alike_skip (h : Abreast text c c') : Alike text (Abreast text) c.skip c'.skip := by
  obtain ⟨o, t⟩ := c
  obtain ⟨o', t'⟩ := c'
  obtain rfl : t' = unifyNewlines t := h.rest
  have hclean : CleanComments t := h.comments
  rcases skipped_or_unclosed (x := Cursor.skip ⟨o, t⟩) rfl with ⟨⟨i, r⟩, s, hskip, hs⟩ | ⟨s, hs⟩
  · obtain rfl : t = s ++ r := hs.text
    obtain rfl : i = o + s.length := hs.offset
    have hrest : CleanComments r := by
      by_cases hr : r = []
      · exact hr ▸ cleanComments_nil
      · exact hclean.behind (.of_gap (hs.inner hr))
    rw [hskip, skip_unifyNewlines hs hclean]
    exact .ok (h.advance hs.still.cleanCut hrest)
  · obtain ⟨body, rfl, noEnd⟩ := hs.comment
    have hgap := gap_unifyNewlines hs.gap hclean
    have hcut : CleanCut s ('/' :: '*' :: body) := .of_head (by simp)
    have hskip : Cursor.skip ⟨o', unifyNewlines (s ++ '/' :: '*' :: body)⟩ =
        stop .unclosedComment (o' + (unifyNewlines s).length) := by
      rw [unifyNewlines_append hcut, unifyNewlines_cons (by decide), unifyNewlines_cons (by decide),
        Cursor.skip, skipFrom_gap hgap, skipFrom_slashStar,
        skipFrom_block_end (noEnd_unifyNewlines noEnd)]
    rw [hs.fault, hskip]
    exact .stop (h.advance hcut (hclean.behind (.of_gap hs.gap))).sameCut _

end Steps

/-! ## Trees that are alike -/

/-- Ranges between the same cuts of a text and of its unified form. -/
def Span.Alike (text : List Char) (s s' : Span) : Prop :=
  SameCut text s.start s'.start ∧ SameCut text s.stop s'.stop

mutual

/-- Trees that are the same but for their ranges, which are alike. -/
def Node.Alike (text : List Char) : Node → Node → Prop
  | .scalar s v, .scalar s' v' => s.Alike text s' ∧ v = v'
  | .array s items, .array s' items' => s.Alike text s' ∧ Node.AllAlike text items items'
  | .object s properties, .object s' properties' =>
    s.Alike text s' ∧ Node.AllAlike text properties properties'
  | .property s key colon value, .property s' key' colon' value' =>
    s.Alike text s' ∧ key.Alike text key' ∧ SameCut text colon colon' ∧ value.Alike text value'
  | _, _ => False

/-- Trees that are alike one by one. -/
def Node.AllAlike (text : List Char) : List Node → List Node → Prop
  | [], [] => True
  | n :: rest, n' :: rest' => n.Alike text n' ∧ Node.AllAlike text rest rest'
  | _, _ => False

end

theorem Node.Alike.span {n n' : Node} (h : n.Alike text n') : n.span.Alike text n'.span := by
  cases n <;> cases n' <;> first | exact h.1 | exact h.elim

/-- The lines and characters between which the node at a place stands. -/
def Place.rangeIn (text : List Char) (p : Place) : Range :=
  rangeBetween text p.span.start p.span.stop

/-- The ranges of all nodes of a tree, in the order of the walk. -/
def rangesIn (text : List Char) (n : Node) : List Range :=
  (Place.root n).walk.map (Place.rangeIn text)

section Trees
variable {n n' : Node}

theorem Node.Alike.rangeIn_eq (h : n.Alike text n') (way way' : List Step) :
    Place.rangeIn text ⟨n, way⟩ = Place.rangeIn (unifyNewlines text) ⟨n', way'⟩ := by
  obtain ⟨hstart, hstop⟩ := h.span
  simp only [Place.rangeIn, Place.span, rangeBetween, hstart.positionAt_eq, hstop.positionAt_eq]

theorem Node.Alike.text?_eq (h : n.Alike text n') : n.text? = n'.text? := by
  cases n with
  | scalar s v =>
      cases n' with
      | scalar s' v' =>
          obtain rfl : v = v' := h.2
          cases v <;> rfl
      | _ => exact h.elim
  | _ => cases n' <;> first | exact h.elim | rfl

theorem Node.Alike.name?_eq (h : n.Alike text n') : n.name? = n'.name? := by
  cases n with
  | property s key colon value =>
      cases n' with
      | property s' key' colon' value' =>
          have hkey : key.Alike text key' := h.2.1
          exact hkey.text?_eq
      | _ => exact h.elim
  | _ => cases n' <;> first | exact h.elim | rfl

mutual

/-- Trees that are alike stand for the same value. -/
theorem Node.Alike.toValue_eq : ∀ {n n' : Node}, n.Alike text n' → n.toValue = n'.toValue
  | .scalar _ _, n', h => by
      cases n' with
      | scalar => rw [Node.toValue, Node.toValue, h.2]
      | _ => exact h.elim
  | .array _ items, n', h => by
      cases n' with
      | array => rw [Node.toValue, Node.toValue, Node.AllAlike.toValues_eq h.2]
      | _ => exact h.elim
  | .object _ properties, n', h => by
      cases n' with
      | object => rw [Node.toValue, Node.toValue, Node.AllAlike.toMembers_eq h.2]
      | _ => exact h.elim
  | .property _ _ _ value, n', h => by
      cases n' with
      | property => rw [Node.toValue, Node.toValue, Node.Alike.toValue_eq h.2.2.2]
      | _ => exact h.elim

theorem Node.AllAlike.toValues_eq : ∀ {nodes nodes' : List Node},
    Node.AllAlike text nodes nodes' → Node.toValues nodes = Node.toValues nodes'
  | [], nodes', h => by
      cases nodes' with
      | nil => rfl
      | cons => exact h.elim
  | n :: rest, nodes', h => by
      cases nodes' with
      | nil => exact h.elim
      | cons =>
          rw [Node.toValues, Node.toValues, Node.Alike.toValue_eq h.1,
            Node.AllAlike.toValues_eq h.2]

theorem Node.AllAlike.toMembers_eq : ∀ {nodes nodes' : List Node},
    Node.AllAlike text nodes nodes' → Node.toMembers nodes = Node.toMembers nodes'
  | [], nodes', h => by
      cases nodes' with
      | nil => rfl
      | cons => exact h.elim
  | n :: rest, nodes', h => by
      cases nodes' with
      | nil => exact h.elim
      | cons =>
          rw [Node.toMembers, Node.toMembers, h.1.name?_eq, Node.Alike.toValue_eq h.1,
            Node.AllAlike.toMembers_eq h.2]

end

mutual

/-- Trees that are alike have the same ranges, whatever is above them. -/
theorem Node.Alike.walk_eq (way way' : List Step) : ∀ {n n' : Node}, n.Alike text n' →
    (walkNode way n).map (Place.rangeIn text) =
      (walkNode way' n').map (Place.rangeIn (unifyNewlines text))
  | .scalar _ _, n', h => by
      cases n' with
      | scalar =>
          simp only [walkNode, List.map_cons, List.map_nil, h.rangeIn_eq way way']
      | _ => exact h.elim
  | .array _ items, n', h => by
      cases n' with
      | array =>
          simp only [walkNode, List.map_cons, h.rangeIn_eq way way']
          rw [Node.AllAlike.walk_eq _ _ way way' 0 0 h.2]
      | _ => exact h.elim
  | .object _ properties, n', h => by
      cases n' with
      | object =>
          simp only [walkNode, List.map_cons, h.rangeIn_eq way way']
          rw [Node.AllAlike.walk_eq _ _ way way' 0 0 h.2]
      | _ => exact h.elim
  | .property _ key _ value, n', h => by
      cases n' with
      | property =>
          simp only [walkNode, List.map_cons, List.map_append, h.rangeIn_eq way way']
          rw [Node.Alike.walk_eq _ _ h.2.1, Node.Alike.walk_eq _ _ h.2.2.2]
      | _ => exact h.elim

theorem Node.AllAlike.walk_eq (above above' : Node) (way way' : List Step) (index index' : Nat) :
    ∀ {nodes nodes' : List Node}, Node.AllAlike text nodes nodes' →
      (walkNodes above way index nodes).map (Place.rangeIn text) =
        (walkNodes above' way' index' nodes').map (Place.rangeIn (unifyNewlines text))
  | [], nodes', h => by
      cases nodes' with
      | nil => rfl
      | cons => exact h.elim
  | n :: rest, nodes', h => by
      cases nodes' with
      | nil => exact h.elim
      | cons =>
          rw [walkNodes, walkNodes, List.map_append, List.map_append, Node.Alike.walk_eq _ _ h.1,
            Node.AllAlike.walk_eq _ _ way way' (index + 1) (index' + 1) h.2]

end

theorem Node.Alike.rangesIn_eq (h : n.Alike text n') :
    rangesIn text n = rangesIn (unifyNewlines text) n' := h.walk_eq [] []

end Trees

end ModAtlas.Document
