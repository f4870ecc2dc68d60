import ModAtlas.Proofs.Document.Due
import ModAtlas.Proofs.Document.Exchange

/-!
# Inserting a string into an empty array

A string can be written inside an empty array where neither its brackets nor a comment in it would
be torn apart: behind the opening bracket, with nothing but blanks and whole comments between them.
There, and nowhere else, it becomes the only item of the array.
-/

namespace ModAtlas.Document
open ModAtlas.Json

/-! ## Gaps that are taken apart -/

/-- What follows a gap inside a gap is a gap. -/
theorem Gap.of_append {g s : List Char} (h : Gap (g ++ s)) (hg : Gap g) : Gap s := by
  have hstop : NoGap [']'] := noGap_cons (by decide) (by decide)
  have hskip := skip_gap (o := 0) h hstop
  rw [Cursor.skip, List.append_assoc, skipFrom_gap hg] at hskip
  obtain ⟨s', hs', heq, -⟩ := exists_gap hskip (List.cons_ne_nil _ _)
  rwa [List.append_cancel_right heq]

/-! ## Nodes at the end of a way down -/

namespace Node

/-- A tree whose offsets move has its nodes at the same addresses. -/
theorem get?_moved (move : Nat → Nat) (path : List Nat) (n : Node) :
    (n.moved move).get? path = (n.get? path).map (Node.moved move) := by
  induction path generalizing n with
  | nil => rfl
  | cons i path ih =>
      rw [get?, get?, children_moved, List.getElem?_map]
      cases n.children[i]? with
      | none => rfl
      | some child => exact ih child

theorem getElem?_children_setChild {i : Nat} {n child : Node} (h : i < n.children.length)
    (new : Node) (hchild : n.children[i]? = some child) :
    (n.setChild i new).children[i]? = some new := by
  cases n with
  | scalar => cases hchild
  | array span items => exact List.getElem?_set_self h
  | object span properties => exact List.getElem?_set_self h
  | property span key colon value =>
      match i, h with
      | 0, _ => rfl
      | 1, _ => rfl

/-- The node that was put in is found at its address. -/
theorem get?_set {path : List Nat} {n m : Node} (h : n.get? path = some m) (new : Node) :
    (n.set path new).get? path = some new := by
  induction path generalizing n with
  | nil => rfl
  | cons i path ih =>
      obtain ⟨child, hchild, hget⟩ := Option.bind_eq_some_iff.mp h
      have hi := (List.getElem?_eq_some_iff.mp hchild).1
      rw [set, hchild]
      dsimp only
      rw [get?, getElem?_children_setChild hi _ hchild]
      exact ih hget

end Node

/-! ## Arrays with one item or none -/

theorem Parts.nodes_ne_nil (o : Nat) (parts : Parts) : parts.nodes o ≠ [] := by
  cases parts <;> exact List.cons_ne_nil _ _

/-- The text of an array begins with its bracket. -/
theorem Form.bracket_of_node {f : Form} {o : Nat} {span : Span} {items : List Node}
    (h : f.node o = .array span items) :
    ∃ rest, f.text = '[' :: rest ∧ f.isProperty = false ∧ span.start = o := by
  cases f with
  | emptyArray gap =>
      cases h
      exact ⟨_, rfl, rfl, rfl⟩
  | array items =>
      cases h
      exact ⟨_, rfl, rfl, rfl⟩
  | _ => cases h

/-- An array without items is brackets around a gap. -/
theorem Form.exists_emptyArray {f : Form} {o : Nat} {span : Span}
    (h : f.node o = .array span []) : ∃ gap, f = .emptyArray gap ∧ span = ⟨o, gap.length + 2⟩ := by
  cases f with
  | emptyArray gap =>
      cases h
      exact ⟨gap, rfl, rfl⟩
  | array items => exact absurd (Node.array.inj h).2 (items.nodes_ne_nil _)
  | _ => cases h

/-- An array of one item has it between two gaps. -/
theorem Form.exists_single {f : Form} {o : Nat} {span : Span} {n : Node}
    (h : f.node o = .array span [n]) :
    ∃ before part after, f = .array (.last before part after) ∧ span.start = o ∧
      n = part.node (o + 1 + before.length) := by
  cases f with
  | array items =>
      obtain ⟨rfl, hnodes⟩ := Node.array.inj h
      cases items with
      | last before part after =>
          exact ⟨before, part, after, rfl, rfl, (List.cons.inj hnodes).1.symm⟩
      | next before part after rest =>
          exact absurd (List.cons.inj hnodes).2 (rest.nodes_ne_nil _)
  | _ => cases h

/-! ## Insertion -/

/-- Where an offset is after so many characters were inserted at another one. -/
def shiftedFrom (offset length o : Nat) : Nat := if o < offset then o else o + length

theorem shiftedFrom_of_lt {offset length o : Nat} (h : o < offset) :
    shiftedFrom offset length o = o := if_pos h

theorem shiftedFrom_of_le {offset length o : Nat} (h : offset ≤ o) :
    shiftedFrom offset length o = o + length := if_neg (Nat.not_lt.mpr h)

/-- An insertion strictly inside a form makes room for a form that is longer by as much. -/
theorem makesRoom_shiftedFrom {o offset length : Nat} {before after : List Char} {g g' : Form}
    (hlow : o + before.length < offset) (hhigh : offset ≤ o + before.length + g.text.length)
    (hlength : g'.text.length = g.text.length + length) :
    MakesRoom (shiftedFrom offset length) o before g g' after := by
  constructor
  · intro j hj
    exact shiftedFrom_of_lt (by omega)
  · intro j _
    rw [shiftedFrom_of_le (by omega)]
    omega

/-- An empty array with a string in it, inserted at an offset. -/
def Span.holding (span : Span) (offset length : Nat) (s : String) : Node :=
  .array ⟨span.start, span.length + length⟩ [.scalar ⟨offset, length⟩ (.string s)]

/-- What stands behind a bracket inside a text. -/
theorem slice_behind (lead before part back : List Char) (c : Char) :
    slice (lead ++ (before ++ c :: (part ++ back)))
      ⟨lead.length + before.length + 1, part.length⟩ = part := by
  have hfront : (lead ++ (before ++ [c])).length = lead.length + before.length + 1 := by
    simp only [List.length_append, List.length_singleton, Nat.add_assoc]
  have hsplit : lead ++ (before ++ c :: (part ++ back)) =
      (lead ++ (before ++ [c])) ++ (part ++ back) := by simp
  rw [slice, hsplit, ← hfront, List.drop_left, List.take_left]

theorem replaceRange_between (front new back : List Char) :
    replaceRange (front ++ back) front.length front.length new = front ++ (new ++ back) :=
  replaceRange_append front [] new back

/-- Before an insertion nothing is different. -/
theorem slice_replaceRange {text new : List Char} {offset : Nat} {t : Span}
    (ht : t.stop ≤ offset) (hoffset : offset ≤ text.length) :
    slice (replaceRange text offset offset new) t = slice text t := by
  have hfront : (replaceRange text offset offset new).take t.stop = text.take t.stop := by
    rw [replaceRange, List.take_append_of_le_length (by rw [List.length_take]; omega),
      List.take_take, Nat.min_eq_left ht]
  rw [Span.stop] at hfront
  rw [slice, slice, List.take_drop, List.take_drop, hfront]

section Holding
variable {token left right : List Char} {o offset : Nat} {s : String}

theorem node_holding (hoffset : offset = o + 1 + left.length) :
    (Form.array (.last left (.scalar token (.string s)) right)).node o =
      Span.holding ⟨o, (left ++ right).length + 2⟩ offset token.length s := by
  simp only [Form.node, Parts.nodes, Parts.text, Form.text, Span.holding, ← hoffset,
    List.length_append]
  congr 2
  omega

theorem makesRoom_holding {before after : List Char}
    (hoffset : offset = o + before.length + 1 + left.length) :
    MakesRoom (shiftedFrom offset token.length) o before (.emptyArray (left ++ right))
      (.array (.last left (.scalar token (.string s)) right)) after := by
  apply makesRoom_shiftedFrom
  · omega
  · simp only [Form.text, List.length_append, List.length_cons, List.length_nil]
    omega
  · simp only [Form.text, Parts.text, List.length_append, List.length_cons, List.length_nil]
    omega

end Holding

section Insertion
variable {text token : List Char} {root : Node} {path : List Nat} {span : Span} {s : String}
  {offset : Nat}

/-- A string that is read as the only item of an array stands behind a gap there. -/
theorem gap_of_read_holding {length : Nat} (hread : read text = .ok root)
    (hget : root.get? path = some (span.holding offset length s)) :
    span.start < offset ∧
      Gap (slice text ⟨span.start + 1, offset - (span.start + 1)⟩) := by
  obtain ⟨lead, f, tail, hwritten, -, rfl⟩ := exists_written hread
  obtain ⟨before, g, after, hnode, ⟨hvalid, htext, -⟩⟩ := f.exchange_below hwritten.form hget
  obtain ⟨gap, part, behind, rfl, hstart, hitem⟩ := Form.exists_single hnode.symm
  have hoffset : offset = span.start + 1 + gap.length := by
    have hspan := congrArg Node.span hitem
    rw [Form.span_node] at hspan
    rw [show span.start = lead.length + before.length from hstart]
    exact congrArg Span.start hspan
  have hsplit : text =
      lead ++ (before ++ '[' :: (gap ++ (part.text ++ (behind ++ ']' :: (after ++ tail))))) := by
    simp [hwritten.text, htext, Form.text, Parts.text]
  have hlength : offset - (span.start + 1) = gap.length := by omega
  refine ⟨by omega, ?_⟩
  rw [hlength, hstart, hsplit, slice_behind]
  exact hvalid.1

theorem read_insert_of_gap (hread : read text = .ok root)
    (hget : root.get? path = some (.array span [])) (htoken : Token token (.string s))
    (hstart : span.start < offset) (hstop : offset < span.stop)
    (hgap : Gap (slice text ⟨span.start + 1, offset - (span.start + 1)⟩)) :
    read (replaceRange text offset offset token) =
      .ok ((root.moved (shiftedFrom offset token.length)).set path
        (span.holding offset token.length s)) := by
  obtain ⟨lead, f, tail, hwritten, hdepth, rfl⟩ := exists_written hread
  obtain ⟨before, g, after, hnode, ⟨hvalid, htext, hexchange⟩⟩ :=
    f.exchange_below hwritten.form hget
  obtain ⟨gap, rfl, rfl⟩ := Form.exists_emptyArray hnode.symm
  dsimp only at hstart hgap
  -- the gap is cut at the offset, and what is left of it is a gap again
  obtain ⟨left, right, rfl, hlength⟩ : ∃ left right, gap = left ++ right ∧
      left.length = offset - (lead.length + before.length + 1) :=
    ⟨_, _, (List.take_append_drop _ _).symm, List.length_take_of_le (by
      simp only [Span.stop] at hstop
      omega)⟩
  have hoffset : offset = lead.length + before.length + 1 + left.length := by omega
  have hsplit : text = lead ++ (before ++ '[' :: (left ++ (right ++ ']' :: (after ++ tail)))) := by
    simp [hwritten.text, htext, Form.text]
  have hleft : Gap left := by rwa [← hlength, hsplit, slice_behind] at hgap
  have hright : Gap right := Gap.of_append hvalid hleft
  obtain ⟨f', hf', htext', hnode'⟩ :=
    hexchange (.array (.last left (.scalar token (.string s)) right))
      ⟨⟨hleft, htoken, hright, rfl⟩, rfl, rfl, by rintro _ _ ⟨⟩⟩
  have hnew : replaceRange text offset offset token = lead ++ (f'.text ++ tail) := by
    have hfront : offset = (lead ++ (before ++ '[' :: left)).length := by
      simp only [hoffset, List.length_append, List.length_cons]
      omega
    have hsplit' : text =
        (lead ++ (before ++ '[' :: left)) ++ (right ++ ']' :: (after ++ tail)) := by
      simp [hsplit]
    rw [hfront, hsplit', replaceRange_between, htext']
    simp [Form.text, Parts.text]
  have hwritten' : Written (lead ++ (f'.text ++ tail)) lead f' tail :=
    ⟨rfl, hwritten.lead, hf'.valid, hf'.kind.trans hwritten.kind, hwritten.tail⟩
  rw [hnew]
  refine read_eq_ok_iff.mpr ⟨lead, f', tail, hwritten', hf'.depth.le.trans hdepth, ?_⟩
  rw [hnode' _ (makesRoom_holding hoffset), node_holding hoffset]

/-- A string that is inserted into an empty array is its only item exactly behind the opening
bracket and outside all comments. -/
theorem read_insert_iff (hread : read text = .ok root)
    (hget : root.get? path = some (.array span [])) (htoken : Token token (.string s))
    (hstop : offset ≤ text.length) (hend : offset < span.stop) :
    read (replaceRange text offset offset token) =
        .ok ((root.moved (shiftedFrom offset token.length)).set path
          (span.holding offset token.length s)) ↔
      span.start < offset ∧
        Gap (slice text ⟨span.start + 1, offset - (span.start + 1)⟩) := by
  constructor
  · intro h
    have hmoved : (root.moved (shiftedFrom offset token.length)).get? path =
        some ((Node.array span []).moved (shiftedFrom offset token.length)) := by
      rw [Node.get?_moved, hget, Option.map_some]
    obtain ⟨hlt, hgap⟩ := gap_of_read_holding h (Node.get?_set hmoved _)
    rw [slice_replaceRange (by simp only [Span.stop]; omega) hstop] at hgap
    exact ⟨hlt, hgap⟩
  · rintro ⟨hlt, hgap⟩
    exact read_insert_of_gap hread hget htoken hlt hend hgap

end Insertion

/-! ## In front of the bracket -/

section Due
variable {budget o : Nat} {s : List Char}

/-- A form is due behind a text: a value, or a property behind the gap before it. -/
def FormDue : Bool → Nat → List Char → Prop
  | false, budget, s => Due budget s
  | true, budget, s => ∃ outer gap, PartDue true budget outer ∧ Gap gap ∧ s = outer ++ gap

theorem PartDue.formDue {properties : Bool} {gap : List Char} (h : PartDue properties budget s)
    (hgap : Gap gap) : FormDue properties budget (s ++ gap) := by
  cases properties with
  | true => exact ⟨s, gap, h, hgap, rfl⟩
  | false => exact h.lead (.item hgap)

/-- A form stands inside a text, at an offset and behind what makes it due. -/
structure StandsDue (s text : List Char) (o : Nat) (budget : Nat) (front : List Char) (f : Form)
    (n : Node) : Prop where
  valid : f.Valid Gap Token
  depth : f.depth ≤ budget
  due : FormDue f.isProperty budget (s ++ front)
  text : ∃ rest, text = front ++ (f.text ++ rest)
  node : n = f.node (o + front.length)

/-- A part of a container is due behind the bracket and the parts before it. -/
theorem Parts.standsDue {properties : Bool} {n : Node} :
    ∀ {parts : Parts} {o i : Nat} {s : List Char}, parts.Valid Gap Token properties →
      parts.depth ≤ budget → PartDue properties budget s → (parts.nodes o)[i]? = some n →
      ∃ front part, StandsDue s parts.text o budget front part n
  | .last before part after, o, 0, s, ⟨hbefore, hpart, _, hkind⟩, hdepth, hdue, h => by
      obtain rfl := Option.some.inj h
      exact ⟨before, part, hpart, hdepth, by rw [hkind]; exact hdue.formDue hbefore, ⟨after, rfl⟩,
        rfl⟩
  | .next before part after rest, o, 0, s, ⟨⟨hbefore, hpart, _, hkind⟩, _⟩, hdepth, hdue, h => by
      obtain rfl := Option.some.inj h
      exact ⟨before, part, hpart, (Nat.max_le.mp hdepth).1,
        by rw [hkind]; exact hdue.formDue hbefore, ⟨after ++ ',' :: rest.text, rfl⟩, rfl⟩
  | .next before part after rest, o, i + 1, s, ⟨⟨hbefore, hpart, hafter, hkind⟩, hrest⟩, hdepth,
      hdue, h => by
      obtain ⟨hfirst, hdepth⟩ := Nat.max_le.mp hdepth
      obtain ⟨front, part', hvalid, hdepth', hdue', ⟨rest', htext⟩, rfl⟩ :=
        Parts.standsDue hrest hdepth (hdue.part hbefore hpart hkind hfirst hafter) h
      refine ⟨before ++ (part.text ++ (after ++ ',' :: front)), part', hvalid, hdepth',
        by simpa using hdue', ⟨rest', by simp [Parts.text, htext]⟩, ?_⟩
      congr 1
      simp only [List.length_append, List.length_cons]
      omega

/-- What lies directly below a form that is due is due behind the text before it, but for keys. -/
theorem StandsDue.child {text front : List Char} {f : Form} {n c : Node} {i : Nat}
    (h : StandsDue s text o budget front f n) (hc : n.children[i]? = some c)
    (hscalar : ∀ span value, c ≠ .scalar span value) :
    ∃ budget' front' g, StandsDue s text o budget' front' g c := by
  obtain ⟨hvalid, hdepth, hdue, ⟨rest, rfl⟩, rfl⟩ := h
  -- a container of items or of properties
  have hpart (properties : Bool) {parts : Parts} {close : Char} {budget : Nat}
      (hdue : Due (budget + 1) (s ++ front)) (hvalid : parts.Valid Gap Token properties)
      (hdepth : parts.depth ≤ budget) (hc : (parts.nodes (o + front.length + 1))[i]? = some c) :
      ∃ budget' front' g, StandsDue s
        (front ++ (bracket properties :: (parts.text ++ [close]) ++ rest)) o budget' front' g c := by
    obtain ⟨front', g, hg, hdepth', hdue', ⟨rest', htext⟩, rfl⟩ :=
      Parts.standsDue hvalid hdepth ⟨s ++ front, [], hdue, .nil, rfl⟩ hc
    refine ⟨budget, front ++ bracket properties :: front', g, hg, hdepth', by simpa using hdue',
      ⟨rest' ++ close :: rest, by simp [htext]⟩, ?_⟩
    congr 1
    simp only [List.length_append, List.length_cons]
    omega
  cases f with
  | array parts =>
      obtain ⟨budget, rfl⟩ := Nat.exists_eq_add_of_le' (Nat.le_of_add_left_le hdepth)
      exact hpart false hdue hvalid (Nat.le_of_succ_le_succ hdepth) hc
  | object parts =>
      obtain ⟨budget, rfl⟩ := Nat.exists_eq_add_of_le' (Nat.le_of_add_left_le hdepth)
      exact hpart true hdue hvalid (Nat.le_of_succ_le_succ hdepth) hc
  | property key name left right value =>
      obtain ⟨hkey, hleft, hright, hkind, hvalue⟩ := hvalid
      obtain ⟨outer, gap, hopen, hgap, heq⟩ := hdue
      match i, hc with
      | 0, hc => exact absurd (Option.some.inj hc).symm (hscalar _ _)
      | 1, hc =>
        obtain rfl := Option.some.inj hc
        have hdue := hopen.lead (.property hgap ⟨name, hkey⟩ hleft hright)
        rw [← List.append_assoc, ← heq] at hdue
        refine ⟨budget, front ++ (key ++ (left ++ ':' :: right)), value, hvalue, hdepth, ?_,
          ⟨rest, by simp [Form.text]⟩, ?_⟩
        · rw [hkind]
          change Due budget _
          simpa using hdue
        · congr 1
          simp only [List.length_append, List.length_cons]
          omega
  | _ => cases hc

/-- Before an array in a document a value is due. -/
theorem StandsDue.below {path : List Nat} {text front : List Char} {f : Form} {n : Node}
    {span : Span} {items : List Node} (h : StandsDue s text o budget front f n)
    (hget : n.get? path = some (.array span items)) :
    ∃ budget' front' g, StandsDue s text o budget' front' g (.array span items) := by
  induction path generalizing budget front f n with
  | nil =>
      obtain rfl := Option.some.inj hget
      exact ⟨budget, front, f, h⟩
  | cons i path ih =>
      obtain ⟨child, hchild, hget⟩ := Option.bind_eq_some_iff.mp hget
      obtain ⟨budget', front', g, hg⟩ := h.child hchild (by
        rintro span' value rfl
        cases path <;> cases hget)
      exact ih hg hget

end Due

/-- A string is read wherever a value is. -/
theorem value_string {token r : List Char} {s : String} (h : Token token (.string s))
    (budget o : Nat) : value budget ⟨o, token ++ r⟩ =
      .ok (.scalar ⟨o, token.length⟩ (.string s), ⟨o + token.length, r⟩) := by
  obtain ⟨body, quoted, rfl⟩ := h.quoted
  have hlength : ('"' :: (body ++ ['"'])).length = body.length + 2 := by simp
  rw [hlength, List.cons_append, List.append_assoc]
  unfold value
  exact string_quoted quoted

/-- No bracket can follow a string that stands where a value is due. -/
theorem read_ne_ok_of_due {budget : Nat} {front token r : List Char} {s : String}
    (hdue : Due budget front) (htoken : Token token (.string s)) (n : Node) :
    read (front ++ (token ++ '[' :: r)) ≠ .ok n := by
  obtain ⟨c, v, hcv, hc⟩ := htoken.head
  have hu : Begun (token ++ '[' :: r) := ⟨c, v ++ '[' :: r, by rw [hcv]; rfl, hc⟩
  have hbracket (o : Nat) : Cursor.skip ⟨o, '[' :: r⟩ = .ok ⟨o, '[' :: r⟩ :=
    skip_gap .nil (noGap_cons (by decide) (by decide))
  cases hdue with
  | document gap =>
      rw [read_eq, skip_gap gap hu.noGap, ok_bind, value_string htoken, ok_bind]
      dsimp only
      rw [hbracket, ok_bind]
      rintro ⟨⟩
  | @inside properties budget outer front lead hdue hfront next =>
      have hobstructs : Obstructs (fun _ => True) (partReader properties (value budget))
          (lead ++ (token ++ '[' :: r)) := by
        intro close missing unfinished hclose o
        obtain ⟨make, hmake⟩ := partReader_eq next hu.noGap (value budget) o
        rw [value_string htoken] at hmake
        refine ⟨.fault unfinished (o + lead.length + token.length), trivial, fun fuel hfuel => ?_⟩
        obtain ⟨fuel, rfl⟩ := Nat.exists_eq_add_of_le' hfuel
        have hclose' : '[' ≠ close := by
          rintro rfl
          revert hclose
          decide
        simp only [series, hmake, Except.map, ok_bind, hbracket, if_neg hclose']
        rfl
      obtain ⟨e, -, herror⟩ := read_of_due hdue (begun_bracket properties _)
        (bracket_refuses hfront next hu hobstructs)
      intro hok
      have happend : outer ++ bracket properties :: (front ++ lead) ++ (token ++ '[' :: r) =
          outer ++ bracket properties :: (front ++ (lead ++ (token ++ '[' :: r))) := by simp
      rw [happend, herror] at hok
      cases hok

/-- With a string before the bracket of an array the text is no document any more. -/
theorem read_insert_before {text token : List Char} {root : Node} {path : List Nat} {span : Span}
    {items : List Node} {s : String} (hread : read text = .ok root)
    (hget : root.get? path = some (.array span items)) (htoken : Token token (.string s))
    (n : Node) : read (replaceRange text span.start span.start token) ≠ .ok n := by
  obtain ⟨lead, f, tail, hwritten, hdepth, rfl⟩ := exists_written hread
  have hroot : StandsDue lead f.text lead.length nestingLimit [] f (f.node lead.length) := by
    refine ⟨hwritten.form, hdepth, ?_, ⟨[], (List.append_nil _).symm⟩, rfl⟩
    rw [hwritten.kind, List.append_nil]
    exact Due.document hwritten.lead
  obtain ⟨budget, front, g, -, -, hdue, ⟨rest, htext⟩, hnode⟩ := hroot.below hget
  obtain ⟨inner, hg, hkind, hstart⟩ := Form.bracket_of_node hnode.symm
  rw [hkind] at hdue
  have hfront : span.start = (lead ++ front).length := by rw [hstart, List.length_append]
  have hsplit : text = (lead ++ front) ++ '[' :: (inner ++ (rest ++ tail)) := by
    simp [hwritten.text, htext, hg]
  rw [hfront, hsplit, replaceRange_between]
  exact read_ne_ok_of_due hdue htoken n

end ModAtlas.Document
