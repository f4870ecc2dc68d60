import Mathlib.Data.List.Pairwise
import ModAtlas.Proofs.Document.Exact
import ModAtlas.Proofs.Document.Links

/-!
# Ranges in a document

Every node of a document is the tree of a form that stands in the text where the node's range
says. So ranges lie inside one another in the order of the text, and what stands in the range of a
value is a document with the same tree.
-/

namespace ModAtlas.Document
open ModAtlas.Json

/-- The text in a range. -/
def slice (text : List Char) (s : Span) : List Char := (text.drop s.start).take s.length

/-- A range further on in the text. -/
def Span.shift (k : Nat) (s : Span) : Span := ⟨k + s.start, s.length⟩

mutual

/-- A tree with all its offsets further on in the text. -/
def Node.shift (k : Nat) : Node → Node
  | .scalar span value => .scalar (span.shift k) value
  | .array span items => .array (span.shift k) (Node.shiftAll k items)
  | .object span properties => .object (span.shift k) (Node.shiftAll k properties)
  | .property span key colon value =>
    .property (span.shift k) (key.shift k) (k + colon) (value.shift k)

/-- Trees with all their offsets further on in the text. -/
def Node.shiftAll (k : Nat) : List Node → List Node
  | [] => []
  | n :: rest => n.shift k :: Node.shiftAll k rest

end

mutual

/-- Where a form starts changes the offsets of its tree alone. -/
theorem Form.shift_node (k o : Nat) : ∀ f : Form, (f.node o).shift k = f.node (k + o)
  | .scalar _ _ => rfl
  | .emptyArray _ => rfl
  | .emptyObject _ => rfl
  | .array items => by
      simp only [Form.node, Node.shift, Span.shift, Parts.shiftAll_nodes k (o + 1) items,
        Nat.add_assoc]
  | .object members => by
      simp only [Form.node, Node.shift, Span.shift, Parts.shiftAll_nodes k (o + 1) members,
        Nat.add_assoc]
  | .property key name left right value => by
      simp only [Form.node, Node.shift, Span.shift, Form.shift_node k _ value, Nat.add_assoc]

theorem Parts.shiftAll_nodes (k o : Nat) :
    ∀ parts : Parts, Node.shiftAll k (parts.nodes o) = parts.nodes (k + o)
  | .last before part after => by
      simp only [Parts.nodes, Node.shiftAll, Form.shift_node k _ part, Nat.add_assoc]
  | .next before part after rest => by
      simp only [Parts.nodes, Node.shiftAll, Form.shift_node k _ part,
        Parts.shiftAll_nodes k _ rest, Nat.add_assoc]

end

/-! ## Parts lie side by side -/

theorem Node.span_scalar (s : Span) (value : Scalar) : (Node.scalar s value).span = s := rfl

theorem Parts.within_of_mem_nodes {n : Node} : ∀ {parts : Parts} {o : Nat}, n ∈ parts.nodes o →
    o ≤ n.span.start ∧ n.span.stop ≤ o + parts.text.length
  | .last before part after, o, h => by
      obtain rfl := List.mem_singleton.mp h
      simp only [Form.span_node, Span.stop, Parts.text, List.length_append]
      omega
  | .next before part after rest, o, h => by
      rcases List.mem_cons.mp h with rfl | h
      · simp only [Form.span_node, Span.stop, Parts.text, List.length_append]
        omega
      · obtain ⟨hstart, hstop⟩ := rest.within_of_mem_nodes h
        simp only [Parts.text, List.length_append, List.length_cons]
        omega

/-- Between one part and the next stands a comma at least. -/
theorem Parts.nodes_apart : ∀ (parts : Parts) (o : Nat),
    (parts.nodes o).Pairwise fun m n => m.span.stop < n.span.start
  | .last _ _ _, _ => List.pairwise_singleton _ _
  | .next before part after rest, o => by
      refine .cons (fun n hn => ?_) (rest.nodes_apart _)
      have hstart := (rest.within_of_mem_nodes hn).1
      simp only [Form.span_node, Span.stop]
      omega

theorem Form.within_of_mem_children {f : Form} {o : Nat} {n : Node} (h : n ∈ (f.node o).children) :
    o ≤ n.span.start ∧ n.span.stop ≤ o + f.text.length := by
  cases f with
  | array items =>
      obtain ⟨hstart, hstop⟩ := items.within_of_mem_nodes h
      simp only [Form.text, List.length_cons, List.length_append]
      omega
  | object members =>
      obtain ⟨hstart, hstop⟩ := members.within_of_mem_nodes h
      simp only [Form.text, List.length_cons, List.length_append]
      omega
  | property key name left right value =>
      simp only [Form.text, List.length_cons, List.length_append]
      rcases List.mem_pair.mp h with rfl | rfl
      · simp only [Node.span, Span.stop]
        omega
      · simp only [Form.span_node, Span.stop]
        omega
  | _ => cases h

theorem Form.children_apart (f : Form) (o : Nat) :
    (f.node o).children.Pairwise fun m n => m.span.stop < n.span.start := by
  cases f with
  | array items => exact items.nodes_apart _
  | object members => exact members.nodes_apart _
  | property key name left right value =>
      refine List.pairwise_pair.mpr ?_
      simp only [Node.span_scalar, Form.span_node, Span.stop]
      omega
  | _ => exact .nil

/-! ## Forms that stand in a text -/

/-- A form stands in a text, and a node is its tree there. -/
structure Stands (text : List Char) (f : Form) (n : Node) : Prop where
  valid : f.Valid Gap Token
  depth : f.depth ≤ nestingLimit
  stands : ∃ before after, text = before ++ (f.text ++ after) ∧ n = f.node before.length

/-- The nodes of parts are the trees of forms that stand in the text of the parts. -/
theorem Parts.exists_of_mem_nodes {properties : Bool} {n : Node} : ∀ {parts : Parts} {o : Nat},
    parts.Valid Gap Token properties → n ∈ parts.nodes o →
    ∃ f before after, parts.text = before ++ (Form.text f ++ after) ∧
      n = f.node (o + before.length) ∧ f.Valid Gap Token ∧ f.depth ≤ parts.depth
  | .last before part after, o, ⟨_, hpart, _, _⟩, h => by
      obtain rfl := List.mem_singleton.mp h
      exact ⟨part, before, after, rfl, rfl, hpart, Nat.le_refl _⟩
  | .next before part after rest, o, ⟨⟨_, hpart, _, _⟩, hrest⟩, h => by
      rcases List.mem_cons.mp h with rfl | h
      · exact ⟨part, before, after ++ ',' :: rest.text, rfl, rfl, hpart, Nat.le_max_left _ _⟩
      · obtain ⟨f, inner, outer, htext, rfl, hvalid, hdepth⟩ := rest.exists_of_mem_nodes hrest h
        refine ⟨f, before ++ (part.text ++ (after ++ ',' :: inner)), outer, ?_, ?_, hvalid,
          hdepth.trans (Nat.le_max_right _ _)⟩
        · simp [Parts.text, htext]
        · simp only [List.length_append, List.length_cons]
          congr 1
          omega

namespace Stands
variable {text : List Char} {f : Form} {n c : Node}

/-- Below a form that stands in a text stand forms. -/
theorem child (h : Stands text f n) (hc : c ∈ n.children) : ∃ g, Stands text g c := by
  obtain ⟨hvalid, hdepth, before, after, rfl, rfl⟩ := h
  cases f with
  | array items =>
      obtain ⟨g, inner, outer, htext, rfl, hg, hgdepth⟩ := items.exists_of_mem_nodes hvalid hc
      have hle : items.depth + 1 ≤ nestingLimit := hdepth
      refine ⟨g, hg, by omega, before ++ '[' :: inner, outer ++ ']' :: after, ?_, ?_⟩
      · simp [Form.text, htext]
      · simp only [List.length_append, List.length_cons]
        congr 1
        omega
  | object members =>
      obtain ⟨g, inner, outer, htext, rfl, hg, hgdepth⟩ := members.exists_of_mem_nodes hvalid hc
      have hle : members.depth + 1 ≤ nestingLimit := hdepth
      refine ⟨g, hg, by omega, before ++ '\x7b' :: inner, outer ++ '\x7d' :: after, ?_, ?_⟩
      · simp [Form.text, htext]
      · simp only [List.length_append, List.length_cons]
        congr 1
        omega
  | property key name left right value =>
      obtain ⟨hkey, -, -, -, hvalue⟩ := hvalid
      rcases List.mem_pair.mp hc with rfl | rfl
      · refine ⟨.scalar key (.string name), hkey, Nat.zero_le _, before,
          left ++ ':' :: (right ++ value.text) ++ after, ?_, rfl⟩
        simp [Form.text]
      · refine ⟨value, hvalue, hdepth, before ++ (key ++ (left ++ ':' :: right)), after, ?_, ?_⟩
        · simp [Form.text]
        · simp only [List.length_append, List.length_cons]
          congr 1
          omega
  | _ => cases hc

theorem slice_eq (h : Stands text f n) : slice text n.span = f.text := by
  obtain ⟨-, -, before, after, rfl, rfl⟩ := h
  rw [Form.span_node, slice, List.drop_left, List.take_left]

/-- What stands in the range of a value is a document with the same tree. -/
theorem reread (h : Stands text f n) (hkind : f.isProperty = false) :
    ∃ m, read (slice text n.span) = .ok m ∧ n = m.shift n.span.start := by
  have hwritten : Written (slice text n.span) [] f [] :=
    ⟨by simpa using h.slice_eq, .nil, h.valid, hkind, .gap .nil⟩
  refine ⟨f.node 0, read_eq_ok_iff.mpr ⟨[], f, [], hwritten, h.depth, rfl⟩, ?_⟩
  obtain ⟨-, -, before, after, -, rfl⟩ := h
  rw [Form.span_node, Form.shift_node, Nat.add_zero]

end Stands

/-! ## Faithful places -/

/-- What the tree says at and directly below a place is what the text says. -/
structure Place.Faithful (text : List Char) (p : Place) : Prop where
  within : p.span.stop ≤ text.length
  inside : ∀ c ∈ p.children, p.span.covers c.span = true
  apart : p.children.Pairwise fun c d => c.span.stop < d.span.start
  property : ∀ span key colon value, p.node = .property span key colon value →
    span.start = key.span.start ∧ span.stop = value.span.stop ∧
      key.span.stop ≤ colon ∧ text[colon]? = some ':' ∧ colon < value.span.start
  reread : p.node.kind ≠ .property →
    ∃ n, read (slice text p.span) = .ok n ∧ p.node = n.shift p.span.start

namespace Place
variable {text : List Char} {p q : Place}

theorem map_node_placesBelow (above : Node) (way : List Step) (index : Nat) (nodes : List Node) :
    (placesBelow above way index nodes).map (·.node) = nodes := by
  induction nodes generalizing index with
  | nil => rfl
  | cons n rest ih => simp [placesBelow, ih]

theorem map_node_children (p : Place) : p.children.map (·.node) = p.node.children :=
  map_node_placesBelow _ _ _ _

theorem node_mem_children (h : q ∈ p.children) : q.node ∈ p.node.children := by
  rw [← map_node_children]
  exact List.mem_map_of_mem h

theorem parent?_of_mem_children (h : q ∈ p.children) : q.parent? = some p := by
  obtain ⟨j, n, -, rfl⟩ := mem_children.mp h
  rfl

theorem covers_iff {s t : Span} : s.covers t = true ↔ s.start ≤ t.start ∧ t.stop ≤ s.stop := by
  simp [Span.covers]

/-- Where a form stands in the text, the tree is faithful to it. -/
theorem Faithful.of_stands {f : Form} (h : Stands text f p.node) : p.Faithful text := by
  have hstands := h
  obtain ⟨-, -, before, after, htext, hnode⟩ := h
  have hspan : p.span = ⟨before.length, f.text.length⟩ := by rw [span, hnode, Form.span_node]
  refine ⟨?_, fun c hc => ?_, ?_, ?_, fun hkind => ?_⟩
  · rw [hspan, htext]
    simp only [Span.stop, List.length_append]
    omega
  · rw [covers_iff, hspan]
    exact Form.within_of_mem_children (hnode ▸ node_mem_children hc)
  · have hapart := Form.children_apart f before.length
    rwa [← hnode, ← map_node_children, List.pairwise_map] at hapart
  · intro span key colon value hproperty
    rw [hnode] at hproperty
    cases f with
    | property token name left right v =>
        cases hproperty
        have hcolon :
            text = (before ++ (token ++ left)) ++ ':' :: (right ++ (v.text ++ after)) := by
          simp [htext, Form.text]
        have hlength : (before ++ (token ++ left)).length =
            before.length + token.length + left.length := by
          simp only [List.length_append, Nat.add_assoc]
        refine ⟨rfl, ?_, Nat.le_add_right _ _, ?_, ?_⟩
        · simp only [Form.span_node, Span.stop, Nat.add_assoc]
        · rw [hcolon, ← hlength, List.getElem?_append_right (Nat.le_refl _), Nat.sub_self]
          rfl
        · simp only [Form.span_node]
          omega
    | _ => cases hproperty
  · apply hstands.reread
    cases f with
    | property token name left right v => exact absurd (congrArg Node.kind hnode) hkind
    | _ => rfl

/-- A place lies around all places below it. -/
theorem covers_of_mem_walk (h : ∀ q ∈ p.walk, q.Faithful text) (hq : q ∈ p.walk) :
    p.span.covers q.span = true := by
  induction p using induction with
  | step p ih =>
      rcases mem_walk_iff.mp hq with rfl | ⟨c, hc, hqc⟩
      · exact covers_iff.mpr ⟨Nat.le_refl _, Nat.le_refl _⟩
      · have houter := covers_iff.mp ((h p (self_mem_walk p)).inside c hc)
        have hinner := covers_iff.mp
          (ih c hc (fun r hr => h r (mem_walk_iff.mpr (.inr ⟨c, hc, hr⟩))) hqc)
        exact covers_iff.mpr ⟨houter.1.trans hinner.1, hinner.2.trans houter.2⟩

/-- A walk goes through the text from left to right. -/
theorem walk_ordered (h : ∀ q ∈ p.walk, q.Faithful text) :
    p.walk.Pairwise fun q r => q.span.start ≤ r.span.start := by
  induction p using induction with
  | step p ih =>
      have hbelow (c : Place) (hc : c ∈ p.children) : ∀ q ∈ c.walk, q.Faithful text :=
        fun q hq => h q (mem_walk_iff.mpr (.inr ⟨c, hc, hq⟩))
      rw [walk_eq]
      refine .cons (fun q hq => ?_) ?_
      · exact (covers_iff.mp (covers_of_mem_walk h (by rw [walk_eq]; exact .tail _ hq))).1
      · -- within one child by induction; two children keep their walks apart
        rw [List.pairwise_flatMap]
        refine ⟨fun c hc => ih c hc (hbelow c hc), ?_⟩
        apply (h p (self_mem_walk p)).apart.imp_of_mem
        intro c d hc hd hapart q hq r hr
        have hqc := covers_iff.mp (covers_of_mem_walk (hbelow c hc) hq)
        have hrd := covers_iff.mp (covers_of_mem_walk (hbelow d hd) hr)
        have hstop : q.span.start ≤ q.span.stop := Nat.le_add_right _ _
        omega

/-- Do two places lie apart in the text, one behind the other? -/
def Apart (q r : Place) : Prop := q.span.stop < r.span.start ∨ r.span.stop < q.span.start

instance : Std.Symm Apart := ⟨fun _ _ => Or.symm⟩

/-- Of two places in a walk one lies below the other, or they lie apart. -/
theorem below_or_apart (h : ∀ q ∈ p.walk, q.Faithful text) (hq : q ∈ p.walk) (hr : r ∈ p.walk) :
    r ∈ q.walk ∨ q ∈ r.walk ∨ q.Apart r := by
  induction p using induction with
  | step p ih =>
      have hbelow (c : Place) (hc : c ∈ p.children) : ∀ q ∈ c.walk, q.Faithful text :=
        fun q hq => h q (mem_walk_iff.mpr (.inr ⟨c, hc, hq⟩))
      rcases mem_walk_iff.mp hq with rfl | ⟨c, hc, hqc⟩
      · exact .inl hr
      rcases mem_walk_iff.mp hr with rfl | ⟨d, hd, hrd⟩
      · exact .inr (.inl hq)
      by_cases hcd : c = d
      · subst hcd
        exact ih c hc (hbelow c hc) hqc hrd
      · -- below different children they lie apart as the children do
        have hchildren : p.children.Pairwise Apart := (h p (self_mem_walk p)).apart.imp .inl
        have hapart : c.Apart d := hchildren.forall hc hd hcd
        have hinside := covers_iff.mp (covers_of_mem_walk (hbelow c hc) hqc)
        have hinside' := covers_iff.mp (covers_of_mem_walk (hbelow d hd) hrd)
        rw [Apart] at hapart ⊢
        omega

end Place

/-- At and below a form that stands in a text stand forms. -/
theorem Stands.of_mem_walk {text : List Char} {f : Form} {p q : Place}
    (h : Stands text f p.node) (hq : q ∈ p.walk) : ∃ g, Stands text g q.node := by
  induction p using Place.induction generalizing f with
  | step p ih =>
      rcases Place.mem_walk_iff.mp hq with rfl | ⟨c, hc, hqc⟩
      · exact ⟨f, h⟩
      · obtain ⟨g, hg⟩ := h.child (Place.node_mem_children hc)
        exact ih c hc hg hqc

/-- All places of a document stand for forms of its text. -/
theorem exists_stands {text : List Char} {root : Node} (h : read text = .ok root) {p : Place}
    (hp : p ∈ (Place.root root).walk) : ∃ f, Stands text f p.node := by
  obtain ⟨lead, f, tail, hwritten, hdepth, hroot⟩ := exists_written h
  have hstands : Stands text f (Place.root root).node :=
    ⟨hwritten.form, hdepth, lead, tail, hwritten.text, hroot⟩
  exact hstands.of_mem_walk hp

/-- Every place of a document is faithful to the text. -/
theorem faithful_of_mem_walk {text : List Char} {root : Node} (h : read text = .ok root)
    {p : Place} (hp : p ∈ (Place.root root).walk) : p.Faithful text := by
  obtain ⟨f, hf⟩ := exists_stands h hp
  exact .of_stands hf

/-- The tree of a document is faithful to its text and goes through it from left to right, and the
links that its nodes were made with are as it lies. -/
theorem read_faithful {text : List Char} {root : Node} (h : read text = .ok root) :
    (∀ p ∈ (Place.root root).walk, p.Faithful text) ∧
      ((Place.root root).walk.Pairwise fun p q => p.span.start ≤ q.span.start) ∧
      ∃ tree, parse text = .ok tree ∧ tree.bare = root ∧ tree.WellLinked := by
  have hfaithful (p : Place) (hp : p ∈ (Place.root root).walk) : p.Faithful text :=
    faithful_of_mem_walk h hp
  exact ⟨hfaithful, Place.walk_ordered hfaithful, root.linked none 0, parse_of_read h,
    root.bare_linked none 0, root.wellLinked_linked⟩

/-- A document with comments, a nested object and a repeated key. -/
def commentedText : List Char :=
  "\x7b\"a\" /* first */ : [1, \x7b\x7d], // second\n \"a\": \"\\u0041\"\x7d".toList

/-- The tree of that document. -/
def commentedRoot : Node := ((read commentedText).toOption).getD default

/-- Where its nodes stand, and the links they were made with. -/
theorem read_faithful_commented :
    read commentedText = .ok commentedRoot ∧
      (Place.root commentedRoot).walk.map (·.span) =
        [⟨0, 53⟩, ⟨1, 25⟩, ⟨1, 3⟩, ⟨19, 7⟩, ⟨20, 1⟩, ⟨23, 2⟩, ⟨39, 13⟩, ⟨39, 3⟩, ⟨44, 8⟩] ∧
      (∀ p ∈ (Place.root commentedRoot).walk, p.Faithful commentedText) ∧
      ∃ tree, parse commentedText = .ok tree ∧ tree.WellLinked ∧
        tree.walk.map Linked.link =
          [⟨0, none⟩, ⟨1, some 0⟩, ⟨2, some 1⟩, ⟨3, some 1⟩, ⟨4, some 3⟩, ⟨5, some 3⟩,
            ⟨6, some 0⟩, ⟨7, some 6⟩, ⟨8, some 6⟩] := by
  have hread : read commentedText = .ok commentedRoot := rfl
  have hlinks : ((parse commentedText).toOption.map fun tree => tree.walk.map Linked.link) =
      some [⟨0, none⟩, ⟨1, some 0⟩, ⟨2, some 1⟩, ⟨3, some 1⟩, ⟨4, some 3⟩, ⟨5, some 3⟩,
        ⟨6, some 0⟩, ⟨7, some 6⟩, ⟨8, some 6⟩] := by
    decide +kernel
  obtain ⟨hfaithful, -, tree, hparse, -, hlinked⟩ := read_faithful hread
  rw [hparse] at hlinks
  exact ⟨hread, by decide +kernel, hfaithful, tree, hparse, hlinked, Option.some.inj hlinks⟩

end ModAtlas.Document
