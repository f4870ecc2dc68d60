import ModAtlas.Proofs.Document.Ranges

/-!
# Exchanging a part of a document

A form inside another one can be exchanged: what stands before it stays, what stands after it
moves along with its end, and so the tree changes in the place of the form alone. A string can be
exchanged for any other string, whatever it stands in.
-/

namespace ModAtlas.Document
open ModAtlas.Json

/-! ## Trees whose offsets move -/

/-- A range whose ends move. -/
def Span.moved (move : Nat → Nat) (s : Span) : Span := ⟨move s.start, move s.stop - move s.start⟩

mutual

/-- A tree whose offsets move. -/
def Node.moved (move : Nat → Nat) : Node → Node
  | .scalar span value => .scalar (span.moved move) value
  | .array span items => .array (span.moved move) (Node.movedAll move items)
  | .object span properties => .object (span.moved move) (Node.movedAll move properties)
  | .property span key colon value =>
    .property (span.moved move) (key.moved move) (move colon) (value.moved move)

/-- Trees whose offsets move. -/
def Node.movedAll (move : Nat → Nat) : List Node → List Node
  | [] => []
  | n :: rest => n.moved move :: Node.movedAll move rest

end

/-- The offsets of a stretch of a text move together. -/
def Carries (move : Nat → Nat) (o length o' : Nat) : Prop := ∀ j ≤ length, move (o + j) = o' + j

section Moving
variable {move : Nat → Nat} {o o' length : Nat}

theorem Carries.part (h : Carries move o length o') {a m : Nat} (hle : a + m ≤ length) :
    Carries move (o + a) m (o' + a) := by
  intro j hj
  rw [Nat.add_assoc, h (a + j) (by omega), Nat.add_assoc]

theorem Carries.span (h : Carries move o length o') :
    Span.moved move ⟨o, length⟩ = ⟨o', length⟩ := by
  have hstart := h 0 (Nat.zero_le _)
  have hstop := h length (Nat.le_refl _)
  simp only [Nat.add_zero] at hstart
  rw [Span.moved, Span.stop, hstart, hstop, Nat.add_sub_cancel_left]

mutual

/-- The tree of a form whose text moves as a whole is the tree of the form where it moves to. -/
theorem Form.moved_node {o o' : Nat} : ∀ {f : Form}, Carries move o f.text.length o' →
    (f.node o).moved move = f.node o'
  | .scalar token value, h => congrArg (Node.scalar · value) h.span
  | .emptyArray gap, h => by
      have hspan : Span.moved move ⟨o, gap.length + 2⟩ = ⟨o', gap.length + 2⟩ := by
        simpa [Form.text] using h.span
      simp only [Form.node, Node.moved, Node.movedAll, hspan]
  | .emptyObject gap, h => by
      have hspan : Span.moved move ⟨o, gap.length + 2⟩ = ⟨o', gap.length + 2⟩ := by
        simpa [Form.text] using h.span
      simp only [Form.node, Node.moved, Node.movedAll, hspan]
  | .array items, h => by
      have hspan : Span.moved move ⟨o, items.text.length + 2⟩ = ⟨o', items.text.length + 2⟩ := by
        simpa [Form.text] using h.span
      have hitems : Carries move (o + 1) items.text.length (o' + 1) :=
        h.part (by simp only [Form.text, List.length_cons, List.length_append]; omega)
      simp only [Form.node, Node.moved, hspan, Parts.moved_nodes hitems]
  | .object members, h => by
      have hspan : Span.moved move ⟨o, members.text.length + 2⟩ =
          ⟨o', members.text.length + 2⟩ := by
        simpa [Form.text] using h.span
      have hmembers : Carries move (o + 1) members.text.length (o' + 1) :=
        h.part (by simp only [Form.text, List.length_cons, List.length_append]; omega)
      simp only [Form.node, Node.moved, hspan, Parts.moved_nodes hmembers]
  | .property key name left right value, h => by
      have hlength : (Form.property key name left right value).text.length =
          key.length + left.length + 1 + right.length + value.text.length := by
        simp only [Form.text, List.length_append, List.length_cons]
        omega
      rw [hlength] at h
      have hkey : Carries move o key.length o' := by
        simpa using h.part (a := 0) (m := key.length) (by omega)
      have hcolon := h (key.length + left.length) (by omega)
      have hvalue := h.part (a := key.length + left.length + 1 + right.length)
        (m := value.text.length) (by omega)
      simp only [← Nat.add_assoc] at hcolon hvalue
      simp only [Form.node, Node.moved, h.span, hkey.span, hcolon, Form.moved_node hvalue]

theorem Parts.moved_nodes {o o' : Nat} : ∀ {parts : Parts}, Carries move o parts.text.length o' →
    Node.movedAll move (parts.nodes o) = parts.nodes o'
  | .last before part after, h => by
      simp only [Parts.text, List.length_append] at h
      have hpart := h.part (a := before.length) (m := part.text.length) (by omega)
      simp only [Parts.nodes, Node.movedAll, Form.moved_node hpart]
  | .next before part after rest, h => by
      simp only [Parts.text, List.length_append, List.length_cons] at h
      have hpart := h.part (a := before.length) (m := part.text.length) (by omega)
      have hrest := h.part (a := before.length + part.text.length + after.length + 1)
        (m := rest.text.length) (by omega)
      simp only [← Nat.add_assoc] at hrest
      simp only [Parts.nodes, Node.movedAll, Form.moved_node hpart, Parts.moved_nodes hrest]

end

end Moving

theorem Node.movedAll_eq_map (move : Nat → Nat) (nodes : List Node) :
    Node.movedAll move nodes = nodes.map (Node.moved move) := by
  induction nodes with
  | nil => rfl
  | cons n rest ih => rw [Node.movedAll, ih, List.map_cons]

theorem Node.children_moved (move : Nat → Nat) (n : Node) :
    (n.moved move).children = n.children.map (Node.moved move) := by
  cases n <;> simp [Node.moved, Node.children, Node.movedAll_eq_map]

/-! ## Nodes at the end of a way down -/

namespace Node

/-- The node at the end of a way down, given by the indices of the children taken. -/
def get? : List Nat → Node → Option Node
  | [], n => some n
  | i :: path, n => n.children[i]?.bind (get? path)

/-- A node with another child at an index. -/
def setChild (i : Nat) (n child : Node) : Node :=
  match n with
  | .array span items => .array span (items.set i child)
  | .object span properties => .object span (properties.set i child)
  | .property span key colon value =>
    if i = 0 then .property span child colon value else .property span key colon child
  | n => n

/-- A tree with another node at the end of a way down. -/
def set : List Nat → Node → Node → Node
  | [], _, new => new
  | i :: path, n, new =>
    match n.children[i]? with
    | none => n
    | some child => n.setChild i (set path child new)

end Node

/-- A place is found by its address. -/
theorem Place.get?_address {p q : Place} (h : q ∈ p.walk) :
    ∃ path, q.address = path.reverse ++ p.address ∧ p.node.get? path = some q.node := by
  induction p using Place.induction with
  | step p ih =>
      rcases Place.mem_walk_iff.mp h with rfl | ⟨c, hc, hqc⟩
      · exact ⟨[], rfl, rfl⟩
      · obtain ⟨path, haddress, hget⟩ := ih c hc hqc
        obtain ⟨i, n, hn, rfl⟩ := Place.mem_children.mp hc
        refine ⟨i :: path, ?_, ?_⟩
        · rw [haddress]
          simp [Place.address]
        · simp only [Node.get?, hn, Option.bind_some, hget]

theorem Place.get?_of_mem_walk {n : Node} {q : Place} (h : q ∈ (Place.root n).walk) :
    n.get? q.address.reverse = some q.node := by
  obtain ⟨path, haddress, hget⟩ := Place.get?_address h
  have hpath : q.address = path.reverse := by simpa [Place.root, Place.address] using haddress
  rw [hpath, List.reverse_reverse]
  exact hget

/-! ## Exchanging a form inside another one -/

/-- A form that can take the place of another one. Only strings take the place of a string. -/
structure Form.Replaces (f' f : Form) : Prop where
  valid : f'.Valid Gap Token
  kind : f'.isProperty = f.isProperty
  depth : f'.depth = f.depth
  string : ∀ token s, f = .scalar token (.string s) →
    ∃ token' s', f' = .scalar token' (.string s')

/-- What stands before a form stays, and what stands after it moves along with its end when another
one takes its place. -/
structure MakesRoom (move : Nat → Nat) (o : Nat) (before : List Char) (g g' : Form)
    (after : List Char) : Prop where
  stays : Carries move o before.length o
  follows : Carries move (o + before.length + g.text.length) after.length
    (o + before.length + g'.text.length)

/-- Inside a form stands another one between two texts, and can be exchanged: in the tree, whose
offsets move, another node is put in. -/
structure Exchangeable (f : Form) (o : Nat) (before : List Char) (g : Form) (after : List Char)
    (put : Node → Node → Node) : Prop where
  valid : g.Valid Gap Token
  text : f.text = before ++ (g.text ++ after)
  exchange : ∀ g' : Form, g'.Replaces g → ∃ f' : Form, f'.Replaces f ∧
    f'.text = before ++ (g'.text ++ after) ∧
    ∀ move, MakesRoom move o before g g' after →
      f'.node o = put ((f.node o).moved move) (g'.node (o + before.length))

/-- What makes room in a text makes room in a part of it. -/
theorem MakesRoom.inner {move : Nat → Nat} {o : Nat} {front before after back rest : List Char}
    {g g' : Form} (h : MakesRoom move o (front ++ before) g g' rest)
    (hrest : rest = after ++ back) : MakesRoom move (o + front.length) before g g' after := by
  subst hrest
  obtain ⟨hstays, hfollows⟩ := h
  simp only [List.length_append, ← Nat.add_assoc] at hstays hfollows
  refine ⟨hstays.part (Nat.le_refl _), ?_⟩
  simpa using hfollows.part (a := 0) (m := after.length) (by omega)

/-- Parts can be exchanged. -/
theorem Parts.exchange {properties : Bool} {c : Node} : ∀ {parts : Parts} {o i : Nat},
    parts.Valid Gap Token properties → (parts.nodes o)[i]? = some c →
    ∃ before g after, Form.Valid Gap Token g ∧ parts.text = before ++ (g.text ++ after) ∧
      c = g.node (o + before.length) ∧
      ∀ g' : Form, g'.Replaces g → ∃ parts' : Parts, parts'.Valid Gap Token properties ∧
        parts'.depth = parts.depth ∧ parts'.text = before ++ (g'.text ++ after) ∧
        ∀ move, MakesRoom move o before g g' after →
          parts'.nodes o = (Node.movedAll move (parts.nodes o)).set i (g'.node (o + before.length))
  | .last before part after, o, i, ⟨hbefore, hpart, hafter, hkind⟩, h => by
      obtain ⟨rfl, rfl⟩ : i = 0 ∧ part.node (o + before.length) = c := by
        cases i with
        | zero => exact ⟨rfl, Option.some.inj h⟩
        | succ i => cases h
      refine ⟨before, part, after, hpart, rfl, rfl, fun g' hg' => ?_⟩
      exact ⟨.last before g' after, ⟨hbefore, hg'.valid, hafter, hg'.kind.trans hkind⟩, hg'.depth,
        rfl, fun _ _ => rfl⟩
  | .next before part after rest, o, 0, ⟨⟨hbefore, hpart, hafter, hkind⟩, hrest⟩, h => by
      obtain rfl := Option.some.inj h
      refine ⟨before, part, after ++ ',' :: rest.text, hpart, rfl, rfl, fun g' hg' => ?_⟩
      refine ⟨.next before g' after rest,
        ⟨⟨hbefore, hg'.valid, hafter, hg'.kind.trans hkind⟩, hrest⟩, ?_, rfl, fun move hroom => ?_⟩
      · rw [Parts.depth, Parts.depth, hg'.depth]
      · -- the parts behind the one that is exchanged move along
        have hmoved := hroom.follows.part (a := after.length + 1) (m := rest.text.length)
          (by simp only [List.length_append, List.length_cons]; omega)
        simp only [← Nat.add_assoc] at hmoved
        rw [Parts.nodes, Parts.nodes, Node.movedAll, Parts.moved_nodes hmoved]
        rfl
  | .next before part after rest, o, i + 1, ⟨⟨hbefore, hpart, hafter, hkind⟩, hrest⟩, h => by
      obtain ⟨inner, g, outer, hg, htext, rfl, hexchange⟩ := rest.exchange hrest h
      have hfront : o + (before ++ (part.text ++ (after ++ [',']))).length =
          o + before.length + part.text.length + after.length + 1 := by
        simp only [List.length_append, List.length_cons, List.length_nil]
        omega
      refine ⟨before ++ (part.text ++ (after ++ [','])) ++ inner, g, outer, hg, ?_, ?_,
        fun g' hg' => ?_⟩
      · simp [Parts.text, htext]
      · rw [List.length_append, ← Nat.add_assoc, hfront]
      · obtain ⟨rest', hvalid, hdepth, htext', hnodes⟩ := hexchange g' hg'
        refine ⟨.next before part after rest', ⟨⟨hbefore, hpart, hafter, hkind⟩, hvalid⟩, ?_, ?_,
          fun move hroom => ?_⟩
        · rw [Parts.depth, Parts.depth, hdepth]
        · simp [Parts.text, htext']
        · -- the part before the one that is exchanged stays
          have hstays := hroom.stays.part (a := before.length) (m := part.text.length)
            (by simp only [List.length_append]; omega)
          have hinner := hroom.inner (List.append_nil _).symm
          rw [hfront] at hinner
          rw [Parts.nodes, Parts.nodes, Node.movedAll, Form.moved_node hstays, hnodes move hinner,
            List.set_cons_succ, List.length_append, ← Nat.add_assoc, hfront]

/-- What makes room for a form makes room for what it stands in. -/
theorem MakesRoom.outer {move : Nat → Nat} {o : Nat} {front before after back : List Char}
    {f f' g g' : Form} (h : MakesRoom move o (front ++ before) g g' (after ++ back))
    (htext : f.text = before ++ (g.text ++ after))
    (htext' : f'.text = before ++ (g'.text ++ after)) : MakesRoom move o front f f' back := by
  obtain ⟨hstays, hfollows⟩ := h
  constructor
  · simpa using hstays.part (a := 0) (m := front.length) (by simp only [List.length_append]; omega)
  · have hback := hfollows.part (a := after.length) (m := back.length)
      (by simp only [List.length_append]; omega)
    simpa only [htext, htext', List.length_append, ← Nat.add_assoc] using hback

/-- The range of a form in which another one is exchanged ends where the new form does. -/
theorem MakesRoom.span {move : Nat → Nat} {o n n' : Nat} {before after : List Char} {g g' : Form}
    (h : MakesRoom move o before g g' after)
    (hn : n = before.length + g.text.length + after.length)
    (hn' : n' = before.length + g'.text.length + after.length) :
    Span.moved move ⟨o, n⟩ = ⟨o, n'⟩ := by
  have hstart := h.stays 0 (Nat.zero_le _)
  have hstop := h.follows after.length (Nat.le_refl _)
  rw [Nat.add_zero] at hstart
  rw [Span.moved, Span.stop, hn, hn', hstart, ← Nat.add_assoc, ← Nat.add_assoc, hstop]
  congr 1
  omega

/-- Parts between brackets can be exchanged. -/
theorem Parts.exchange_between {properties : Bool} {c : Node} {parts : Parts} {o i : Nat}
    (hvalid : parts.Valid Gap Token properties) (h : (parts.nodes (o + 1))[i]? = some c)
    (first last : Char) :
    ∃ before g after, c = g.node (o + before.length) ∧ Form.Valid Gap Token g ∧
      first :: (parts.text ++ [last]) = before ++ (g.text ++ after) ∧
      ∀ g' : Form, g'.Replaces g → ∃ parts' : Parts, parts'.Valid Gap Token properties ∧
        parts'.depth = parts.depth ∧
        first :: (parts'.text ++ [last]) = before ++ (g'.text ++ after) ∧
        ∀ move, MakesRoom move o before g g' after →
          Span.moved move ⟨o, parts.text.length + 2⟩ = ⟨o, parts'.text.length + 2⟩ ∧
          parts'.nodes (o + 1) =
            (Node.movedAll move (parts.nodes (o + 1))).set i (g'.node (o + before.length)) := by
  obtain ⟨before, g, after, hg, htext, rfl, hexchange⟩ := parts.exchange hvalid h
  have hlength : o + (first :: before).length = o + 1 + before.length := by
    rw [List.length_cons]
    omega
  refine ⟨first :: before, g, after ++ [last], by rw [hlength], hg, by simp [htext],
    fun g' hg' => ?_⟩
  obtain ⟨parts', hvalid', hdepth, htext', hnodes⟩ := hexchange g' hg'
  refine ⟨parts', hvalid', hdepth, by simp [htext'], fun move hroom => ⟨?_, ?_⟩⟩
  · apply hroom.span
    · simp only [htext, List.length_append, List.length_cons, List.length_nil]
      omega
    · simp only [htext', List.length_append, List.length_cons, List.length_nil]
      omega
  · have hroom' : MakesRoom move o ([first] ++ before) g g' (after ++ [last]) := hroom
    rw [hlength]
    exact hnodes move (hroom'.inner rfl)

section Property
variable {key left right : List Char} {name : String} {value : Form} {o : Nat}

/-- The key of a property can be exchanged for another string. -/
theorem Form.exchange_key (hvalid : (Form.property key name left right value).Valid Gap Token) :
    Exchangeable (.property key name left right value) o [] (.scalar key (.string name))
      (left ++ ':' :: (right ++ value.text)) (Node.setChild 0) := by
  obtain ⟨hkey, hleft, hright, hkind, hvalue⟩ := hvalid
  refine ⟨hkey, rfl, fun g' hg' => ?_⟩
  obtain ⟨key', name', rfl⟩ := hg'.string key name rfl
  refine ⟨.property key' name' left right value,
    ⟨⟨hg'.valid, hleft, hright, hkind, hvalue⟩, rfl, rfl, nofun⟩, rfl, fun move hroom => ?_⟩
  have hlength : (left ++ ':' :: (right ++ value.text)).length =
      left.length + 1 + right.length + value.text.length := by
    simp only [List.length_append, List.length_cons]
    omega
  have hspan : Span.moved move
        ⟨o, key.length + left.length + 1 + right.length + value.text.length⟩ =
      ⟨o, key'.length + left.length + 1 + right.length + value.text.length⟩ := by
    apply hroom.span <;>
    · simp only [hlength, Form.text, List.length_nil]
      omega
  -- the colon and the value move along with the end of the key
  have hcolon := hroom.follows left.length (by omega)
  have hmoved := hroom.follows.part (a := left.length + 1 + right.length)
    (m := value.text.length) (by omega)
  simp only [Form.text, List.length_nil, Nat.add_zero, ← Nat.add_assoc] at hcolon hmoved
  simp only [Form.node, Node.moved, Node.setChild, hspan, hcolon, Form.moved_node hmoved,
    List.length_nil, Nat.add_zero, if_true]

/-- The value of a property can be exchanged. -/
theorem Form.exchange_value (hvalid : (Form.property key name left right value).Valid Gap Token) :
    Exchangeable (.property key name left right value) o (key ++ (left ++ ':' :: right)) value []
      (Node.setChild 1) := by
  obtain ⟨hkey, hleft, hright, hkind, hvalue⟩ := hvalid
  refine ⟨hvalue, by simp [Form.text], fun g' hg' => ?_⟩
  refine ⟨.property key name left right g',
    ⟨⟨hkey, hleft, hright, hg'.kind.trans hkind, hg'.valid⟩, rfl, hg'.depth, nofun⟩,
    by simp [Form.text], fun move hroom => ?_⟩
  have hlength : o + (key ++ (left ++ ':' :: right)).length =
      o + key.length + left.length + 1 + right.length := by
    simp only [List.length_append, List.length_cons]
    omega
  have hspan : Span.moved move
        ⟨o, key.length + left.length + 1 + right.length + value.text.length⟩ =
      ⟨o, key.length + left.length + 1 + right.length + g'.text.length⟩ := by
    apply hroom.span <;>
    · simp only [List.length_append, List.length_cons, List.length_nil]
      omega
  -- the key and the colon stay
  have hkey' : Carries move o key.length o := by
    simpa using hroom.stays.part (a := 0) (m := key.length)
      (by simp only [List.length_append]; omega)
  have hcolon := hroom.stays (key.length + left.length)
    (by simp only [List.length_append]; omega)
  rw [← Nat.add_assoc] at hcolon
  simp only [Form.node, Node.moved, Node.setChild, hspan, hkey'.span, hcolon, hlength,
    Nat.one_ne_zero, if_false]

end Property

/-- What lies directly below a form can be exchanged. -/
theorem Form.exchange {f : Form} {o i : Nat} {c : Node} (hvalid : f.Valid Gap Token)
    (h : (f.node o).children[i]? = some c) :
    ∃ before g after, c = g.node (o + before.length) ∧
      Exchangeable f o before g after (Node.setChild i) := by
  cases f with
  | array items =>
      obtain ⟨before, g, after, hc, hg, htext, hexchange⟩ :=
        items.exchange_between hvalid h '[' ']'
      refine ⟨before, g, after, hc, ⟨hg, htext, fun g' hg' => ?_⟩⟩
      obtain ⟨items', hvalid', hdepth, htext', hnodes⟩ := hexchange g' hg'
      refine ⟨.array items', ⟨hvalid', rfl, congrArg (· + 1) hdepth, nofun⟩, htext',
        fun move hroom => ?_⟩
      simp only [Form.node, Node.moved, Node.setChild, hnodes move hroom]
  | object members =>
      obtain ⟨before, g, after, hc, hg, htext, hexchange⟩ :=
        members.exchange_between hvalid h '\x7b' '\x7d'
      refine ⟨before, g, after, hc, ⟨hg, htext, fun g' hg' => ?_⟩⟩
      obtain ⟨members', hvalid', hdepth, htext', hnodes⟩ := hexchange g' hg'
      refine ⟨.object members', ⟨hvalid', rfl, congrArg (· + 1) hdepth, nofun⟩, htext',
        fun move hroom => ?_⟩
      simp only [Form.node, Node.moved, Node.setChild, hnodes move hroom]
  | property key name left right value =>
      match i, h with
      | 0, h =>
        obtain rfl := Option.some.inj h
        exact ⟨_, _, _, rfl, Form.exchange_key hvalid⟩
      | 1, h =>
        obtain rfl := Option.some.inj h
        refine ⟨_, _, _, ?_, Form.exchange_value hvalid⟩
        congr 1
        simp only [List.length_append, List.length_cons]
        omega
  | _ => cases h

/-- What stands anywhere inside a form can be exchanged. -/
theorem Form.exchange_below {path : List Nat} {f : Form} {o : Nat} {n : Node}
    (hvalid : f.Valid Gap Token) (h : (f.node o).get? path = some n) :
    ∃ before g after, n = g.node (o + before.length) ∧
      Exchangeable f o before g after (Node.set path) := by
  induction path generalizing f o with
  | nil =>
      obtain rfl := Option.some.inj h
      exact ⟨[], f, [], rfl, ⟨hvalid, by simp, fun f' hf' => ⟨f', hf', by simp, fun _ _ => rfl⟩⟩⟩
  | cons i path ih =>
      obtain ⟨c, hc, hget⟩ := Option.bind_eq_some_iff.mp h
      obtain ⟨front, child, back, rfl, houter⟩ := f.exchange hvalid hc
      obtain ⟨before, g, after, rfl, hinner⟩ := ih houter.valid hget
      refine ⟨front ++ before, g, after ++ back, ?_, ⟨hinner.valid, ?_, fun g' hg' => ?_⟩⟩
      · rw [List.length_append, Nat.add_assoc]
      · simp [houter.text, hinner.text]
      · obtain ⟨child', hchild', htext', hnode'⟩ := hinner.exchange g' hg'
        obtain ⟨f', hf', htext, hnode⟩ := houter.exchange child' hchild'
        refine ⟨f', hf', by simp [htext, htext'], fun move hroom => ?_⟩
        have hchildren : ((f.node o).moved move).children[i]? =
            some ((child.node (o + front.length)).moved move) := by
          rw [Node.children_moved, List.getElem?_map, hc, Option.map_some]
        rw [hnode move ?_, hnode' move (hroom.inner rfl)]
        · simp only [Node.set, hchildren, List.length_append, Nat.add_assoc]
        · exact hroom.outer hinner.text htext'

/-! ## Exchanging a string of a document -/

/-- Where an offset is after a text of another length took the place of a range. -/
def Span.shiftedBy (s : Span) (length offset : Nat) : Nat :=
  if s.stop ≤ offset then offset - s.length + length else offset

/-- A range after another one got another length: it moves if it lies behind, and grows if it lies
around. -/
def Span.adjusted (s : Span) (length : Nat) (t : Span) : Span :=
  if s.stop ≤ t.start then ⟨t.start - s.length + length, t.length⟩
  else if t.covers s then ⟨t.start, t.length - s.length + length⟩
  else t

/-- A text with something else in the place of a range. -/
def replaceRange (text : List Char) (start stop : Nat) (new : List Char) : List Char :=
  text.take start ++ (new ++ text.drop stop)

theorem Span.shiftedBy_of_lt {s : Span} {length offset : Nat} (h : offset < s.stop) :
    s.shiftedBy length offset = offset := if_neg (Nat.not_le.mpr h)

theorem Span.shiftedBy_of_le {s : Span} {length offset : Nat} (h : s.stop ≤ offset) :
    s.shiftedBy length offset = offset - s.length + length := if_pos h

theorem Span.moved_shiftedBy {s t : Span} {length : Nat} (hs : 0 < s.length)
    (h : t.covers s = true ∨ t.stop < s.start ∨ s.stop < t.start) :
    t.moved (s.shiftedBy length) = s.adjusted length t := by
  have hcovers := Place.covers_iff (s := t) (t := s)
  simp only [Span.stop] at h hcovers
  unfold Span.adjusted
  rcases h with haround | hbefore | hbehind
  · have hinside := hcovers.mp haround
    rw [if_neg (by simp only [Span.stop]; omega), if_pos haround, Span.moved,
      Span.shiftedBy_of_lt (by simp only [Span.stop]; omega),
      Span.shiftedBy_of_le (by simp only [Span.stop]; omega), Span.mk.injEq, Span.stop]
    omega
  · rw [if_neg (by simp only [Span.stop]; omega), if_neg (by rw [hcovers]; omega), Span.moved,
      Span.shiftedBy_of_lt (by simp only [Span.stop]; omega),
      Span.shiftedBy_of_lt (by simp only [Span.stop]; omega), Span.stop, Nat.add_sub_cancel_left]
  · rw [if_pos (by simp only [Span.stop]; omega), Span.moved,
      Span.shiftedBy_of_le (by simp only [Span.stop]; omega),
      Span.shiftedBy_of_le (by simp only [Span.stop]; omega), Span.mk.injEq, Span.stop]
    omega

theorem makesRoom_shiftedBy {o : Nat} {before after : List Char} {g g' : Form} (h : g.text ≠ []) :
    MakesRoom (Span.shiftedBy ⟨o + before.length, g.text.length⟩ g'.text.length) o before g g'
      after := by
  have hlength := List.length_pos_of_ne_nil h
  constructor
  · intro j hj
    apply Span.shiftedBy_of_lt
    simp only [Span.stop]
    omega
  · intro j _
    rw [Span.shiftedBy_of_le (by simp only [Span.stop]; omega)]
    dsimp only
    omega

theorem replaceRange_append (front old new back : List Char) :
    replaceRange (front ++ (old ++ back)) front.length (front.length + old.length) new =
      front ++ (new ++ back) := by
  rw [replaceRange, List.take_left, ← List.drop_drop, List.drop_left, List.drop_left]

/-- Any token of a string can be written in the place of a string of a document. The text stays a
document, and its tree changes as the text does: what stands behind the string moves, and in the
place of the string there is the new one. -/
theorem read_replaceRange {text token : List Char} {root : Node} {path : List Nat} {span : Span}
    {s s' : String} (hread : read text = .ok root)
    (hget : root.get? path = some (.scalar span (.string s))) (htoken : Token token (.string s')) :
    read (replaceRange text span.start span.stop token) =
      .ok ((root.moved (span.shiftedBy token.length)).set path
        (.scalar ⟨span.start, token.length⟩ (.string s'))) := by
  obtain ⟨lead, f, tail, hwritten, hdepth, rfl⟩ := exists_written hread
  obtain ⟨before, g, after, hnode, hvalid, htext, hexchange⟩ :=
    f.exchange_below hwritten.form hget
  cases g with
  | scalar old value =>
      cases hnode
      obtain ⟨f', hf', htext', hnode'⟩ := hexchange (.scalar token (.string s'))
        ⟨htoken, rfl, rfl, fun _ _ _ => ⟨token, s', rfl⟩⟩
      have hnew : replaceRange text (lead.length + before.length)
          (lead.length + before.length + old.length) token = lead ++ (f'.text ++ tail) := by
        have hsplit : text = (lead ++ before) ++ (old ++ (after ++ tail)) := by
          simp [hwritten.text, htext, Form.text]
        rw [hsplit, ← List.length_append, replaceRange_append, htext']
        simp [Form.text]
      have hwritten' : Written (lead ++ (f'.text ++ tail)) lead f' tail :=
        ⟨rfl, hwritten.lead, hf'.valid, hf'.kind.trans hwritten.kind, hwritten.tail⟩
      rw [Span.stop, hnew]
      refine read_eq_ok_iff.mpr ⟨lead, f', tail, hwritten', hf'.depth.le.trans hdepth, ?_⟩
      exact (hnode' _ (makesRoom_shiftedBy (Form.text_ne_nil hvalid))).symm
  | _ => cases hnode

end ModAtlas.Document
