import ModAtlas.Proofs.Document.Bare
import ModAtlas.Proofs.Json.Numeral
import ModAtlas.Proofs.Json.Quoted

/-!
# Forms

A form is a way to write a value: its tokens and the text between them. Its text is what stands in
a document and its node is the tree of that text. Which tokens and which gaps a form may have is
left to two predicates, so that documents, their spellings and strict JSON are all stated with
forms.
-/

namespace ModAtlas.Document
open ModAtlas.Json

mutual

/-- How a value or a property is written. -/
inductive Form where
  | scalar (token : List Char) (value : Scalar)
  | emptyArray (gap : List Char)
  | array (items : Parts)
  | emptyObject (gap : List Char)
  | object (members : Parts)
  | property (key : List Char) (name : String) (left right : List Char) (value : Form)

/-- How the items of an array or the properties of an object are written, with what stands before
and after each of them. -/
inductive Parts where
  | last (before : List Char) (part : Form) (after : List Char)
  | next (before : List Char) (part : Form) (after : List Char) (rest : Parts)

end

/-- Where a container opens, and how many containers are open from there on. -/
structure Opening where
  offset : Nat
  depth : Nat
deriving DecidableEq, Repr

mutual

/-- The text of a form. -/
def Form.text : Form → List Char
  | .scalar token _ => token
  | .emptyArray gap => '[' :: (gap ++ [']'])
  | .array items => '[' :: (items.text ++ [']'])
  | .emptyObject gap => '{' :: (gap ++ ['}'])
  | .object members => '{' :: (members.text ++ ['}'])
  | .property key _ left right value => key ++ (left ++ ':' :: (right ++ value.text))

/-- The text of parts, with commas between them. -/
def Parts.text : Parts → List Char
  | .last before part after => before ++ (part.text ++ after)
  | .next before part after rest => before ++ (part.text ++ (after ++ ',' :: rest.text))

end

mutual

/-- The tree of a form whose text starts at an offset. -/
def Form.node (o : Nat) : Form → Node
  | .scalar token value => .scalar ⟨o, token.length⟩ value
  | .emptyArray gap => .array ⟨o, gap.length + 2⟩ []
  | .array items => .array ⟨o, items.text.length + 2⟩ (items.nodes (o + 1))
  | .emptyObject gap => .object ⟨o, gap.length + 2⟩ []
  | .object members => .object ⟨o, members.text.length + 2⟩ (members.nodes (o + 1))
  | .property key name left right value =>
    .property ⟨o, key.length + left.length + 1 + right.length + value.text.length⟩
      (.scalar ⟨o, key.length⟩ (.string name)) (o + key.length + left.length)
      (value.node (o + key.length + left.length + 1 + right.length))

/-- The trees of parts whose text starts at an offset. -/
def Parts.nodes (o : Nat) : Parts → List Node
  | .last before part _ => [part.node (o + before.length)]
  | .next before part after rest =>
    part.node (o + before.length) ::
      rest.nodes (o + before.length + part.text.length + after.length + 1)

end

mutual

/-- The brackets that open in a form, in the order of the text. -/
def Form.openings (o depth : Nat) : Form → List Opening
  | .scalar _ _ => []
  | .emptyArray _ => [⟨o, depth + 1⟩]
  | .array items => ⟨o, depth + 1⟩ :: items.openings (o + 1) (depth + 1)
  | .emptyObject _ => [⟨o, depth + 1⟩]
  | .object members => ⟨o, depth + 1⟩ :: members.openings (o + 1) (depth + 1)
  | .property key _ left right value =>
    value.openings (o + key.length + left.length + 1 + right.length) depth

/-- The brackets that open in parts. -/
def Parts.openings (o depth : Nat) : Parts → List Opening
  | .last before part _ => part.openings (o + before.length) depth
  | .next before part after rest =>
    part.openings (o + before.length) depth ++
      rest.openings (o + before.length + part.text.length + after.length + 1) depth

end

mutual

/-- How many containers lie inside one another. -/
def Form.depth : Form → Nat
  | .scalar _ _ => 0
  | .emptyArray _ => 1
  | .array items => items.depth + 1
  | .emptyObject _ => 1
  | .object members => members.depth + 1
  | .property _ _ _ _ value => value.depth

/-- The greatest depth among parts. -/
def Parts.depth : Parts → Nat
  | .last _ part _ => part.depth
  | .next _ part _ rest => max part.depth rest.depth

end

/-- Is it how a property is written? -/
def Form.isProperty : Form → Bool
  | .property .. => true
  | _ => false

section Valid
variable (gap : List Char → Prop) (token : List Char → Scalar → Prop)

mutual

/-- All tokens and gaps are of given kinds, and only objects have properties. -/
def Form.Valid : Form → Prop
  | .scalar text value => token text value
  | .emptyArray inner => gap inner
  | .array items => items.Valid false
  | .emptyObject inner => gap inner
  | .object members => members.Valid true
  | .property key name left right value =>
    token key (.string name) ∧ gap left ∧ gap right ∧ value.isProperty = false ∧ value.Valid

/-- All parts are valid, and all of them are properties or none is. -/
def Parts.Valid (properties : Bool) : Parts → Prop
  | .last before part after =>
    gap before ∧ part.Valid ∧ gap after ∧ part.isProperty = properties
  | .next before part after rest =>
    (gap before ∧ part.Valid ∧ gap after ∧ part.isProperty = properties) ∧
      rest.Valid properties

end

end Valid

/-! ## Ranges -/

@[simp] theorem Form.span_node (o : Nat) (f : Form) : (f.node o).span = ⟨o, f.text.length⟩ := by
  cases f with
  | property key name left right value =>
      simp only [Form.node, Node.span, Form.text, List.length_append, List.length_cons]
      congr 1
      omega
  | _ => simp [Form.node, Node.span, Form.text]

/-! ## Depth -/

mutual

/-- The brackets of a form open no deeper than it is deep. -/
theorem Form.openings_le_iff {o d limit : Nat} (hd : d ≤ limit) : ∀ f : Form,
    (∀ p ∈ f.openings o d, p.depth ≤ limit) ↔ d + f.depth ≤ limit
  | .scalar _ _ => by simpa [Form.openings, Form.depth] using hd
  | .emptyArray _ => by simp [Form.openings, Form.depth]
  | .emptyObject _ => by simp [Form.openings, Form.depth]
  | .array items => by
      simp only [Form.openings, Form.depth, List.forall_mem_cons]
      rw [and_congr_right fun hfirst => Parts.openings_le_iff hfirst items]
      omega
  | .object members => by
      simp only [Form.openings, Form.depth, List.forall_mem_cons]
      rw [and_congr_right fun hfirst => Parts.openings_le_iff hfirst members]
      omega
  | .property _ _ _ _ value => Form.openings_le_iff hd value

/-- The brackets of parts open no deeper than the deepest of them is deep. -/
theorem Parts.openings_le_iff {o d limit : Nat} (hd : d ≤ limit) : ∀ parts : Parts,
    (∀ p ∈ parts.openings o d, p.depth ≤ limit) ↔ d + parts.depth ≤ limit
  | .last _ part _ => Form.openings_le_iff hd part
  | .next _ part _ rest => by
      simp only [Parts.openings, Parts.depth, List.forall_mem_append,
        Form.openings_le_iff hd part, Parts.openings_le_iff hd rest]
      omega

end

/-! ## Tokens of documents -/

/-- The words that stand for a value. -/
def words : List (List Char × Scalar) :=
  [(['n', 'u', 'l', 'l'], .null), (['t', 'r', 'u', 'e'], .bool true),
    (['f', 'a', 'l', 's', 'e'], .bool false)]

theorem cases_of_mem_words {w : List Char} {v : Scalar} (h : (w, v) ∈ words) :
    w = ['n', 'u', 'l', 'l'] ∧ v = .null ∨ w = ['t', 'r', 'u', 'e'] ∧ v = .bool true ∨
      w = ['f', 'a', 'l', 's', 'e'] ∧ v = .bool false := by
  simpa [words] using h

/-- The tokens of a document and the values that they stand for. -/
inductive Token : List Char → Scalar → Prop
  | word {text : List Char} {value : Scalar} (listed : (text, value) ∈ words) : Token text value
  | string {body : List Char} {s : String} (quoted : Quoted body s.toList) :
      Token ('"' :: (body ++ ['"'])) (.string s)
  | number {n : Numeral} {v : Number} (written : n.WellWritten Text.isDecimalDigit)
      (value : numberOf n = .ok v) : Token n.spelling (.number v)

end ModAtlas.Document
