import ModAtlas.Proofs.Document.Exchange
import ModAtlas.Proofs.Reference.References
import ModAtlas.Proofs.Text.Positions
import ModAtlas.Reference.Completion

/-!
# Accepting a completion

A completion of a string replaces the string by its label, written as a JSON string. Its range leads
back to the string, and what is written is a token, whatever the label: so the text stays a document
whose tree has the label in the place of the string.
-/

namespace ModAtlas.Reference
open ModAtlas.Document ModAtlas.Workspace ModAtlas.Text

/-- A string that is written as JSON is a token for itself. -/
theorem token_quote (s : String) : Token (Json.quote s).toList (.string s) := by
  rw [Json.quote, String.toList_ofList]
  exact .string (Json.quoted_encode s.toList)

namespace Analysis
variable {a : Analysis} {members : MemberStore} {offset : Int} {p : Place} {c : Completion}

theorem mem_walk_of_completionTarget (h : a.completionTarget offset = some p) :
    p ∈ a.place.walk := by
  unfold completionTarget at h
  split at h
  · cases h
  · rename_i q hq
    have hmem := Place.mem_walk_of_at? hq
    split at h
    · split at h
      · cases h
        exact hmem
      · cases h
    · cases h
      exact hmem
    · cases h

/-- What the completions of a string write and where. -/
theorem completion_of_isString (htarget : a.completionTarget offset = some p)
    (hstring : p.IsString) (hc : c ∈ a.completions members offset) :
    c.insertText = Json.quote c.label ∧ c.range = a.rangeOf p := by
  have hrange : a.completionRange p offset = a.rangeOf p := by
    obtain ⟨span, s, hnode⟩ := hstring
    rw [completionRange, hnode]
  rw [completions, htarget] at hc
  dsimp only at hc
  split at hc
  · cases hc
  · obtain ⟨label, -, rfl⟩ := List.mem_map.mp hc
    exact ⟨rfl, hrange⟩

/-- The range of a place leads back to its span. -/
theorem offsetAt_rangeOf (hread : read a.text = .ok a.root) (hp : p ∈ a.place.walk) :
    offsetAt a.text (a.rangeOf p).start = p.span.start ∧
      offsetAt a.text (a.rangeOf p).stop = p.span.stop := by
  have hwithin := (faithful_of_mem_walk hread hp).within
  have hstart : p.span.start ≤ p.span.stop := Nat.le_add_right _ _
  exact ⟨offsetAt_positionAt (hstart.trans hwithin), offsetAt_positionAt hwithin⟩

/-- Where the ranges of a document come to when a string gets another length. -/
theorem moved_of_mem_walk (hread : read a.text = .ok a.root) (hp : p ∈ a.place.walk)
    (hstring : p.IsString) {q : Place} (hq : q ∈ a.place.walk) (length : Nat) :
    q.span.moved (p.span.shiftedBy length) = p.span.adjusted length q.span := by
  have hfaithful (r : Place) (hr : r ∈ a.place.walk) : r.Faithful a.text :=
    faithful_of_mem_walk hread hr
  have hpos : 0 < p.span.length := by
    obtain ⟨f, hvalid, -, before, after, -, hnode⟩ := exists_stands hread hp
    rw [Place.span, hnode, Form.span_node]
    exact List.length_pos_of_ne_nil (Form.text_ne_nil hvalid)
  apply Span.moved_shiftedBy hpos
  rcases Place.below_or_apart hfaithful hq hp with hpq | hqp | hapart
  · exact .inl (Place.covers_of_mem_walk (fun r hr => hfaithful r (Place.walk_trans hq hr)) hpq)
  · -- nothing lies below a string but the string itself
    obtain ⟨node, way⟩ := p
    obtain ⟨span, s, rfl⟩ := hstring
    obtain rfl := List.mem_singleton.mp hqp
    exact .inl (Place.covers_iff.mpr ⟨Nat.le_refl _, Nat.le_refl _⟩)
  · exact .inr hapart

end Analysis

/-- A completion of a string can be accepted: with what it writes in its range the text is a
document again. The range is that of the string. In the tree the label stands in its place, the
nodes around it have grown, the nodes behind it have moved, and nothing else is different. -/
theorem Analysis.read_accepted {a : Analysis} {members : MemberStore} {offset : Int} {p : Place}
    {c : Completion} (hread : read a.text = .ok a.root)
    (htarget : a.completionTarget offset = some p) (hstring : p.IsString)
    (hc : c ∈ a.completions members offset) :
    let start := offsetAt a.text c.range.start
    let stop := offsetAt a.text c.range.stop
    let length := c.insertText.length
    let move := p.span.shiftedBy length
    (p ∈ a.place.walk ∧ start = p.span.start ∧ stop = p.span.stop) ∧
      read (replaceRange a.text start stop c.insertText.toList) =
        .ok ((a.root.moved move).set p.address.reverse
          (.scalar ⟨p.span.start, length⟩ (.string c.label))) ∧
      ∀ q ∈ a.place.walk, q.span.moved move = p.span.adjusted length q.span := by
  have hp := mem_walk_of_completionTarget htarget
  obtain ⟨hinsert, hrange⟩ := completion_of_isString htarget hstring hc
  obtain ⟨hstart, hstop⟩ := offsetAt_rangeOf hread hp
  rw [hrange, hstart, hstop, hinsert]
  refine ⟨⟨hp, rfl, rfl⟩, ?_, fun q hq => moved_of_mem_walk hread hp hstring hq _⟩
  obtain ⟨span, s, hnode⟩ := hstring
  have hget := Place.get?_of_mem_walk hp
  rw [hnode] at hget
  have hspan : p.span = span := by rw [Place.span, hnode, Node.span]
  rw [← String.length_toList, hspan]
  exact read_replaceRange hread hget (token_quote c.label)

/-- A completion whose label has a quote, for the first of the skins. -/
def quotedSkin : Completion :=
  ⟨"a\"b", .reference, "\"a\\\"b\"", Category.label .unitSkin, ⟨⟨0, 11⟩, ⟨0, 14⟩⟩⟩

/-- With the completion the first skin has another name, and all that is behind it moves. -/
theorem Analysis.read_accepted_skins :
    read skins.text = .ok skins.root ∧
      (∃ p, skins.completionTarget 11 = some p ∧ p.IsString) ∧
      quotedSkin ∈ skins.completions (withMember .empty .unitSkin "a\"b") 11 ∧
      ∃ root,
        read "\x7b\"skins\": [\"a\\\"b\", [\"y\", \"x\"]], \"x\": \"x\"\x7d".toList = .ok root ∧
        (Place.root root).walk.map (fun q => (q.span, q.node.text?)) =
          [(⟨0, 41⟩, none), (⟨1, 29⟩, none), (⟨1, 7⟩, some "skins"), (⟨10, 20⟩, none),
            (⟨11, 6⟩, some "a\"b"), (⟨19, 10⟩, none), (⟨20, 3⟩, some "y"), (⟨25, 3⟩, some "x"),
            (⟨32, 8⟩, none), (⟨32, 3⟩, some "x"), (⟨37, 3⟩, some "x")] := by
  obtain ⟨p, htarget, hstring, hspan, haddress⟩ : ∃ p, skins.completionTarget 11 = some p ∧
      p.IsString ∧ p.span = ⟨11, 3⟩ ∧ p.address = [0, 1, 0] := ⟨_, rfl, ⟨_, _, rfl⟩, rfl, rfl⟩
  have hc : quotedSkin ∈ skins.completions (withMember .empty .unitSkin "a\"b") 11 := by
    decide +kernel
  obtain ⟨⟨-, hstart, hstop⟩, haccepted, -⟩ := read_accepted read_skins htarget hstring hc
  rw [hstart, hstop, hspan, haddress] at haccepted
  refine ⟨read_skins, ⟨p, htarget, hstring⟩, hc, _, haccepted, ?_⟩
  decide +kernel

end ModAtlas.Reference
