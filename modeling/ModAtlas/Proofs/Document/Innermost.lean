import ModAtlas.Proofs.Document.Ranges

/-!
# The innermost node around an offset

Children lie within their parent, and one behind the other with a gap in between. So no offset is
in two of them, not even when ranges hold their ends, and the way down to an offset never has to
be taken back: it ends at the only node that holds the offset while none of its children does.
-/

namespace ModAtlas.Document

namespace Span
variable {s t : Span} {withEnd : Bool} {offset : Int}

theorem bounds_of_holds (h : s.holds withEnd offset = true) :
    (s.start : Int) ≤ offset ∧ offset ≤ s.stop := by
  cases withEnd with
  | true => simpa [holds] using h
  | false =>
      have hbounds : (s.start : Int) ≤ offset ∧ offset < s.stop := by simpa [holds] using h
      exact ⟨hbounds.1, Int.le_of_lt hbounds.2⟩

/-- A range around another one holds what that one holds. -/
theorem holds_of_covers (hcovers : s.covers t = true) (h : t.holds withEnd offset = true) :
    s.holds withEnd offset = true := by
  obtain ⟨hstart, hstop⟩ := Place.covers_iff.mp hcovers
  cases withEnd with
  | true =>
      have hbounds : (t.start : Int) ≤ offset ∧ offset ≤ t.stop := by simpa [holds] using h
      simp only [holds, if_true, Bool.and_eq_true, decide_eq_true_eq]
      omega
  | false =>
      have hbounds : (t.start : Int) ≤ offset ∧ offset < t.stop := by simpa [holds] using h
      simp only [holds, Bool.false_eq_true, if_false, Bool.and_eq_true, decide_eq_true_eq]
      omega

end Span

namespace Place

/-- A place holds an offset, and none of its children does. -/
structure IsInnermost (offset : Int) (withEnd : Bool) (p : Place) : Prop where
  holds : p.span.holds withEnd offset = true
  narrow : ∀ c ∈ p.children, c.span.holds withEnd offset = false

variable {text : List Char} {p q r c : Place} {offset : Int} {withEnd : Bool}

theorem at?_eq_none_iff :
    p.at? offset withEnd = none ↔ p.span.holds withEnd offset = false := by
  rw [at?_eq]
  split
  · rename_i h
    simp [h]
  · rename_i h
    simpa using h

/-- The search ends at a place that is innermost. -/
theorem isInnermost_of_at? (h : p.at? offset withEnd = some q) : q.IsInnermost offset withEnd := by
  induction p using induction with
  | step p ih =>
      rw [at?_eq, Option.ite_none_right_eq_some, Option.some.injEq] at h
      obtain ⟨holds, h⟩ := h
      cases hinner : p.children.findSome? (·.at? offset withEnd) with
      | none =>
          rw [hinner] at h
          obtain rfl : p = q := h
          exact ⟨holds, fun c hc => at?_eq_none_iff.mp (List.findSome?_eq_none_iff.mp hinner c hc)⟩
      | some inner =>
          rw [hinner] at h
          obtain ⟨c, hc, hsome⟩ := List.exists_of_findSome?_eq_some hinner
          exact ih c hc (h ▸ hsome)

section Faithful
variable (h : ∀ q ∈ p.walk, q.Faithful text)
include h

/-- Below an innermost place nothing holds the offset. -/
theorem IsInnermost.eq_of_mem_walk (hq : p.IsInnermost offset withEnd) (hr : r ∈ p.walk)
    (holds : r.span.holds withEnd offset = true) : r = p := by
  rcases mem_walk_iff.mp hr with rfl | ⟨c, hc, hrc⟩
  · rfl
  · have hbelow : ∀ q ∈ c.walk, q.Faithful text := fun q hq =>
      h q (mem_walk_iff.mpr (.inr ⟨c, hc, hq⟩))
    have hchild := Span.holds_of_covers (covers_of_mem_walk hbelow hrc) holds
    rw [hq.narrow c hc] at hchild
    cases hchild

/-- There is one innermost place at most. -/
theorem IsInnermost.unique (hq : q ∈ p.walk) (hr : r ∈ p.walk)
    (innermost : q.IsInnermost offset withEnd) (innermost' : r.IsInnermost offset withEnd) :
    r = q := by
  have hbelow (s : Place) (hs : s ∈ p.walk) : ∀ u ∈ s.walk, u.Faithful text := fun u hu =>
    h u (walk_trans hs hu)
  rcases below_or_apart h hq hr with hrq | hqr | hapart
  · exact innermost.eq_of_mem_walk (hbelow q hq) hrq innermost'.holds
  · exact (innermost'.eq_of_mem_walk (hbelow r hr) hqr innermost.holds).symm
  · have hbounds := Span.bounds_of_holds innermost.holds
    have hbounds' := Span.bounds_of_holds innermost'.holds
    rw [Apart] at hapart
    omega

/-- An innermost place is found. -/
theorem at?_of_isInnermost (hq : q ∈ p.walk) (innermost : q.IsInnermost offset withEnd) :
    p.at? offset withEnd = some q := by
  have holds := Span.holds_of_covers (covers_of_mem_walk h hq) innermost.holds
  cases hfound : p.at? offset withEnd with
  | none =>
      rw [at?_eq_none_iff.mp hfound] at holds
      cases holds
  | some r =>
      exact congrArg some
        (innermost.unique h hq (mem_walk_of_at? hfound) (isInnermost_of_at? hfound))

/-- Once a child holds the offset, what is found in the child is found at all. -/
theorem at?_of_mem_children (hc : c ∈ p.children) (holds : c.span.holds withEnd offset = true) :
    p.at? offset withEnd = c.at? offset withEnd := by
  cases hfound : c.at? offset withEnd with
  | none =>
      rw [at?_eq_none_iff.mp hfound] at holds
      cases holds
  | some q =>
      exact at?_of_isInnermost h (mem_walk_iff.mpr (.inr ⟨c, hc, mem_walk_of_at? hfound⟩))
        (isInnermost_of_at? hfound)

end Faithful

/-- No two children hold the same offset. -/
theorem Faithful.eq_of_holds (h : p.Faithful text) {d : Place} (hc : c ∈ p.children)
    (hd : d ∈ p.children) (holds : c.span.holds withEnd offset = true)
    (holds' : d.span.holds withEnd offset = true) : d = c := by
  by_contra hne
  have hchildren : p.children.Pairwise Apart := h.apart.imp .inl
  have hapart : c.Apart d := hchildren.forall hc hd (Ne.symm hne)
  have hbounds := Span.bounds_of_holds holds
  have hbounds' := Span.bounds_of_holds holds'
  rw [Apart] at hapart
  omega

end Place

/-- In a document nothing is found around an offset exactly when the range of the whole document
does not hold it. What is found holds the offset while none of its children does, and is the only
node of the document like that. Of the children of a node one at most holds the offset, and what is
found in that one is what is found in the node, so that no other child need be looked at. -/
theorem at?_eq_innermost {text : List Char} {root : Node} (h : read text = .ok root)
    (offset : Int) (withEnd : Bool) :
    ((Place.root root).at? offset withEnd = none ↔ root.span.holds withEnd offset = false) ∧
      (∀ q, (Place.root root).at? offset withEnd = some q →
        q ∈ (Place.root root).walk ∧ q.IsInnermost offset withEnd ∧
          ∀ r ∈ (Place.root root).walk, r.IsInnermost offset withEnd → r = q) ∧
      ∀ p ∈ (Place.root root).walk, ∀ c ∈ p.children, c.span.holds withEnd offset = true →
        (∀ d ∈ p.children, d.span.holds withEnd offset = true → d = c) ∧
          p.at? offset withEnd = c.at? offset withEnd := by
  have hfaithful (p : Place) (hp : p ∈ (Place.root root).walk) : p.Faithful text :=
    faithful_of_mem_walk h hp
  refine ⟨Place.at?_eq_none_iff, fun q hq => ?_, fun p hp c hc holds => ⟨fun d hd holds' => ?_, ?_⟩⟩
  · have hmem := Place.mem_walk_of_at? hq
    have innermost := Place.isInnermost_of_at? hq
    exact ⟨hmem, innermost, fun r hr innermost' => innermost.unique hfaithful hmem hr innermost'⟩
  · exact (hfaithful p hp).eq_of_holds hc hd holds holds'
  · exact Place.at?_of_mem_children (fun q hq => hfaithful q (Place.walk_trans hp hq)) hc holds

/-- A document in which ranges share their ends. -/
def touchingText : List Char := ['\x7b', '"', 'a', '"', ':', '[', '1', ',', '2', ']', '\x7d']

/-- The tree of that document. -/
def touchingRoot : Node := ((read touchingText).toOption).getD default

/-- Behind the key stands the colon, behind the first item the comma; with their ends, both are
found there. -/
theorem at?_eq_innermost_touching :
    read touchingText = .ok touchingRoot ∧
      ((Place.root touchingRoot).at? 4 true).map (·.span) = some ⟨1, 3⟩ ∧
      ∃ q ∈ (Place.root touchingRoot).walk, q.span = ⟨6, 1⟩ ∧ q.IsInnermost 7 true ∧
        (∀ r ∈ (Place.root touchingRoot).walk, r.IsInnermost 7 true → r = q) ∧
        (Place.root touchingRoot).at? 7 false ≠ some q := by
  have hread : read touchingText = .ok touchingRoot := rfl
  obtain ⟨-, hfound, -⟩ := at?_eq_innermost hread 7 true
  obtain ⟨q, hq, hspan⟩ : ∃ q, (Place.root touchingRoot).at? 7 true = some q ∧ q.span = ⟨6, 1⟩ :=
    Option.map_eq_some_iff.mp (show ((Place.root touchingRoot).at? 7 true).map (·.span) = _ from
      by decide +kernel)
  obtain ⟨hmem, innermost, hunique⟩ := hfound q hq
  refine ⟨hread, by decide +kernel, q, hmem, hspan, innermost, hunique, fun hopen => ?_⟩
  have holds := (Place.isInnermost_of_at? hopen).holds
  rw [hspan] at holds
  revert holds
  decide

end ModAtlas.Document
