import ModAtlas.Proofs.Document.Innermost
import ModAtlas.Proofs.Document.Insertion
import ModAtlas.Proofs.Reference.Acceptance

/-!
# Accepting a completion in an empty array

A completion of an array is inserted at the cursor. In an empty array its label becomes the only
item when the cursor is behind the bracket and in no comment. An array is also completed with the
cursor on its bracket, where the label stands before the bracket and the text is no document any
more, and with the cursor in a comment, where the label is not read as a string.
-/

namespace ModAtlas.Reference
open ModAtlas.Document ModAtlas.Workspace ModAtlas.Text

namespace Analysis
variable {a : Analysis} {members : MemberStore} {offset : Int} {p : Place} {c : Completion}
  {span : Span} {items : List Node}

/-- A place that is completed holds the offset. -/
theorem holds_of_completionTarget (h : a.completionTarget offset = some p) :
    (p.span.start : Int) ≤ offset ∧ offset < p.span.stop := by
  have hat : a.place.at? offset false = some p := by
    unfold completionTarget at h
    split at h
    · cases h
    · rename_i q hq
      split at h
      · split at h
        · cases h
          exact hq
        · cases h
      · cases h
        exact hq
      · cases h
  simpa [Span.holds] using (Place.isInnermost_of_at? hat).holds

/-- What the completions of an array write and where. -/
theorem completion_of_array (htarget : a.completionTarget offset = some p)
    (harray : p.node = .array span items) (hc : c ∈ a.completions members offset) :
    c.insertText = Json.quote c.label ∧ c.range = rangeBetween a.text offset offset := by
  have hrange : a.completionRange p offset = rangeBetween a.text offset offset := by
    rw [completionRange, harray]
  rw [completions, htarget] at hc
  dsimp only at hc
  split at hc
  · cases hc
  · obtain ⟨label, -, rfl⟩ := List.mem_map.mp hc
    exact ⟨rfl, hrange⟩

/-- A completion of an empty array is inserted at the cursor, which is on the opening bracket or
behind it. The text is then read with the label as the only item of the array, and with nothing else
different but what has moved, exactly if the cursor is behind the bracket with only blanks and whole
comments between them. On the bracket the text is not read at all. -/
theorem read_inserted_iff {a : Analysis} {members : MemberStore} {offset : Int} {p : Place}
    {c : Completion} {span : Span} (hread : read a.text = .ok a.root)
    (htarget : a.completionTarget offset = some p) (hempty : p.node = .array span [])
    (hc : c ∈ a.completions members offset) :
    let cursor := offsetAt a.text c.range.start
    let length := c.insertText.length
    let inserted :=
      replaceRange a.text cursor (offsetAt a.text c.range.stop) c.insertText.toList
    (p ∈ a.place.walk ∧ (cursor : Int) = offset ∧ offsetAt a.text c.range.stop = cursor ∧
        span.start ≤ cursor ∧ cursor < span.stop) ∧
      (read inserted = .ok ((a.root.moved (shiftedFrom cursor length)).set p.address.reverse
          (span.holding cursor length c.label)) ↔
        span.start < cursor ∧ Gap (slice a.text ⟨span.start + 1, cursor - (span.start + 1)⟩)) ∧
      (cursor = span.start → ∀ n, read inserted ≠ .ok n) := by
  have hp := mem_walk_of_completionTarget htarget
  have hwithin := (faithful_of_mem_walk hread hp).within
  have hspan : p.span = span := by rw [Place.span, hempty, Node.span]
  obtain ⟨hstart, hstop⟩ := holds_of_completionTarget htarget
  obtain ⟨hinsert, hrange⟩ := completion_of_array htarget hempty hc
  rw [hspan] at hwithin hstart hstop
  obtain ⟨cursor, rfl⟩ := Int.eq_ofNat_of_zero_le ((Int.natCast_nonneg _).trans hstart)
  have hend : cursor < span.stop := Int.ofNat_lt.mp hstop
  have hback : offsetAt a.text (positionAt a.text cursor) = cursor :=
    offsetAt_positionAt (hend.le.trans hwithin)
  have hget := Place.get?_of_mem_walk hp
  rw [hempty] at hget
  rw [hrange, rangeBetween, hback, hinsert, ← String.length_toList]
  dsimp only
  refine ⟨⟨hp, rfl, rfl, Int.ofNat_le.mp hstart, hend⟩, ?_, ?_⟩
  · exact read_insert_iff hread hget (token_quote c.label) (hend.le.trans hwithin) hend
  · rintro rfl n
    exact read_insert_before hread hget (token_quote c.label) n

/-! ## A unit without skins -/

/-- A document that lists no skins, with a comment in their place. -/
def bareText : List Char := "\x7b\"skins\": [ /* a */ ], \"x\": \"x\"\x7d".toList

/-- The document under a schema that tags `skins`. -/
def bare : Analysis where
  text := bareText
  root := ((read bareText).toOption).getD default
  schema := some ⟨.obj [], [⟨"", "skins", .unitSkin⟩], "unit-schema.json"⟩
  found := [⟨"", [], .root (((read bareText).toOption).getD default)⟩]

/-- The completion `y` at a column of the document. -/
def firstSkin (column : Int) : Completion :=
  ⟨"y", .reference, "\"y\"", Category.label .unitSkin, ⟨⟨0, column⟩, ⟨0, column⟩⟩⟩

theorem read_bare : read bare.text = .ok bare.root := by
  rfl

theorem firstSkin_mem_completions :
    firstSkin 19 ∈ bare.completions (withMember .empty .unitSkin "y") 19 := by
  decide +kernel

/-- Behind the comment the skin becomes the only one of the unit. -/
theorem read_inserted_iff_bare :
    read bare.text = .ok bare.root ∧
      (∃ p, bare.completionTarget 19 = some p ∧ p.node = .array ⟨10, 11⟩ []) ∧
      firstSkin 19 ∈ bare.completions (withMember .empty .unitSkin "y") 19 ∧
      ∃ root, read "\x7b\"skins\": [ /* a */\"y\" ], \"x\": \"x\"\x7d".toList = .ok root ∧
        (Place.root root).walk.map (fun q => (q.span, q.node.text?)) =
          [(⟨0, 35⟩, none), (⟨1, 23⟩, none), (⟨1, 7⟩, some "skins"), (⟨10, 14⟩, none),
            (⟨19, 3⟩, some "y"), (⟨26, 8⟩, none), (⟨26, 3⟩, some "x"), (⟨31, 3⟩, some "x")] := by
  obtain ⟨p, htarget, hnode, haddress⟩ : ∃ p, bare.completionTarget 19 = some p ∧
      p.node = .array ⟨10, 11⟩ [] ∧ p.address = [1, 0] := ⟨_, rfl, rfl, rfl⟩
  obtain ⟨⟨-, hcursor, hstop, -, -⟩, hiff, -⟩ :=
    read_inserted_iff read_bare htarget hnode firstSkin_mem_completions
  obtain hcursor : offsetAt bare.text (firstSkin 19).range.start = 19 := Int.ofNat_inj.mp hcursor
  rw [hstop, hcursor, haddress] at hiff
  have hgap : Gap (slice bare.text ⟨11, 8⟩) := by
    have hslice : slice bare.text ⟨11, 8⟩ = ' ' :: '/' :: '*' :: ([' ', 'a', ' '] ++ ['*', '/']) := by
      rfl
    rw [hslice]
    exact .blank (by decide) (.block (by decide) .nil)
  exact ⟨read_bare, ⟨p, htarget, hnode⟩, firstSkin_mem_completions, _,
    hiff.mpr ⟨by decide, hgap⟩, by decide +kernel⟩

/-- With the cursor on the bracket of an array a completion cannot be accepted. -/
theorem not_forall_inserted :
    ¬ ∀ (a : Analysis) (members : MemberStore) (offset : Int) (p : Place) (span : Span)
      (c : Completion), read a.text = .ok a.root → a.completionTarget offset = some p →
      p.node = .array span [] → c ∈ a.completions members offset →
      ∃ n, read (replaceRange a.text (offsetAt a.text c.range.start) (offsetAt a.text c.range.stop)
        c.insertText.toList) = .ok n := by
  intro h
  obtain ⟨p, htarget, hnode⟩ : ∃ p, bare.completionTarget 10 = some p ∧
      p.node = .array ⟨10, 11⟩ [] := ⟨_, rfl, rfl⟩
  have hc : firstSkin 10 ∈ bare.completions (withMember .empty .unitSkin "y") 10 := by
    decide +kernel
  obtain ⟨n, hread⟩ := h bare _ 10 p _ _ read_bare htarget hnode hc
  have hrefused : (read (replaceRange bare.text (offsetAt bare.text (firstSkin 10).range.start)
      (offsetAt bare.text (firstSkin 10).range.stop) (firstSkin 10).insertText.toList)).toOption =
        none := by
    rfl
  rw [hread] at hrefused
  cases hrefused

end Analysis
end ModAtlas.Reference
