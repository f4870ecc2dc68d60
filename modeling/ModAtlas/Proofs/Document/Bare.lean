import Mathlib.Data.List.Basic
import ModAtlas.Document.Reader
import ModAtlas.Proofs.Document.Gap

/-!
# Readers without links

Reading passes links down and counts nodes, and nothing that is read depends on either. These are
readers that do without. They read arrays and objects by the same loop over parts with a gap before
each: `container` is that loop, and its arguments are the reader of one part, the closing bracket
and the faults. What is proved of reading is proved of these readers.
-/

namespace ModAtlas.Document
open ModAtlas.Json

/-- The node of a token. -/
def leaf (token : Reader Leaf) : Reader Node := fun c => do
  let (l, c) ← token c
  .ok (.scalar l.span l.value, c)

/-- A string token, for a cursor behind its opening quote. -/
def string : Reader Node := leaf Leaf.string

/-- A word or a numeral. -/
def plainScalar : Reader Node := leaf Leaf.plain

/-- Parts that are read one after the other up to a closing bracket. -/
def series (part : Reader Node) (close : Char) (missing unfinished : Fault) :
    Nat → Reader (List Node)
  | 0, c => stop missing c.offset
  | fuel + 1, c => do
    let (first, c) ← part c
    let c ← c.skip
    match c.rest with
    | [] => stop unfinished c.offset
    | d :: rest =>
      if d = ',' then
        let (more, c) ← series part close missing unfinished fuel ⟨c.offset + 1, rest⟩
        .ok (first :: more, c)
      else if d = close then .ok ([first], ⟨c.offset + 1, rest⟩)
      else stop unfinished c.offset

/-- A container, for a cursor behind its opening bracket. -/
def container (part : Reader Node) (close : Char) (missing unfinished : Fault)
    (make : Span → List Node → Node) : Reader Node := fun c => do
  let start := c.offset - 1
  let c ← c.skip
  if c.rest.head? = some close then
    .ok (make ⟨start, c.offset + 1 - start⟩ [], ⟨c.offset + 1, c.rest.tail⟩)
  else
    let (found, c) ← series part close missing unfinished (c.rest.length + 1) c
    .ok (make ⟨start, c.offset - start⟩ found, c)

/-- One item, for a cursor before the gap in front of it. -/
def item (value : Reader Node) : Reader Node := fun c => c.skip >>= value

/-- One property: a key, a colon and a value. -/
def property (value : Reader Node) : Reader Node := fun c => do
  let c ← c.skip
  let start := c.offset
  let (key, c) ← string (← c.expect '"' .nameExpected)
  let c ← c.skip
  let colon := c.offset
  let c ← (← c.expect ':' .colonExpected).skip
  let (v, c) ← value c
  .ok (.property ⟨start, v.span.stop - start⟩ key colon v, c)

/-- An array, for a cursor behind its opening bracket. -/
def array (value : Reader Node) : Reader Node :=
  container (item value) ']' .valueExpected .commaOrBracketExpected .array

/-- An object, for a cursor behind its opening brace. -/
def object (value : Reader Node) : Reader Node :=
  container (property value) '}' .nameExpected .commaOrBraceExpected .object

/-- One value at the cursor; `budget` is how many more containers may be opened. -/
def value : Nat → Reader Node
  | budget, c =>
    match c.rest with
    | '[' :: rest =>
      match budget with
      | 0 => stop .nestingTooDeep c.offset
      | budget + 1 => array (value budget) ⟨c.offset + 1, rest⟩
    | '{' :: rest =>
      match budget with
      | 0 => stop .nestingTooDeep c.offset
      | budget + 1 => object (value budget) ⟨c.offset + 1, rest⟩
    | '"' :: rest => string ⟨c.offset + 1, rest⟩
    | _ => plainScalar c

/-! ## What they read, case by case -/

theorem string_eq (c : Cursor) : string c =
    match closing? c.rest with
    | none => stop .unclosedString (c.offset - 1)
    | some (raw, rest) =>
      match decode raw with
      | none => stop .badEscape (c.offset - 1)
      | some s =>
        .ok (.scalar ⟨c.offset - 1, raw.length + 2⟩ (.string s),
          ⟨c.offset - 1 + (raw.length + 2), rest⟩) := by
  rw [string, leaf, Leaf.string]
  cases closing? c.rest with
  | none => rfl
  | some p =>
      obtain ⟨raw, rest⟩ := p
      cases hdecode : decode raw with
      | none => simp [hdecode, stop, bind, Except.bind]
      | some s => simp [hdecode, bind, Except.bind]

theorem plainScalar_eq (c : Cursor) : plainScalar c =
    match word? c.rest with
    | some (s, length, rest) => .ok (.scalar ⟨c.offset, length⟩ s, ⟨c.offset + length, rest⟩)
    | none =>
      match Numeral.scan? Text.isDecimalDigit c.rest with
      | none => stop .valueExpected c.offset
      | some (n, rest) =>
        match numberOf n with
        | .error e => .error e
        | .ok v =>
          .ok (.scalar ⟨c.offset, n.spelling.length⟩ (.number v),
            ⟨c.offset + n.spelling.length, rest⟩) := by
  rw [plainScalar, leaf, Leaf.plain, Leaf.numeral]
  cases word? c.rest with
  | some p => rfl
  | none =>
      cases Numeral.scan? Text.isDecimalDigit c.rest with
      | none => rfl
      | some p =>
          obtain ⟨n, rest⟩ := p
          cases hnumber : numberOf n with
          | error e => simp [hnumber, bind, Except.bind]
          | ok v => simp [hnumber, bind, Except.bind]

/-- One turn of the loop, by the character behind the part. -/
theorem series_succ (part : Reader Node) (close : Char) (missing unfinished : Fault) (fuel : Nat)
    (c : Cursor) : series part close missing unfinished (fuel + 1) c = (do
      let (first, c) ← part c
      let c ← c.skip
      if c.rest.head? = some ',' then
        let (more, c) ← series part close missing unfinished fuel ⟨c.offset + 1, c.rest.tail⟩
        .ok (first :: more, c)
      else if c.rest.head? = some close then .ok ([first], ⟨c.offset + 1, c.rest.tail⟩)
      else stop unfinished c.offset) := by
  rw [series]
  congr 1; funext p
  obtain ⟨first, c⟩ := p
  dsimp only
  congr 1; funext c
  split
  · rename_i hrest
    simp [hrest]
  · rename_i d rest hrest
    simp [hrest]

/-! ## Gaps in front -/

/-- A reader skips the gap at its start. -/
def SkipsFirst (part : Reader Node) : Prop := ∀ c c' : Cursor, c.skip = .ok c' → part c' = part c

theorem skip_idem {c c' : Cursor} (h : c.skip = .ok c') : c'.skip = .ok c' := by
  obtain ⟨s, hs⟩ := exists_skipped h
  exact hs.stays

theorem item_skipsFirst (value : Reader Node) : SkipsFirst (item value) := by
  intro c c' h
  rw [item, item, h, skip_idem h]

theorem property_skipsFirst (value : Reader Node) : SkipsFirst (property value) := by
  intro c c' h
  simp only [property, h, skip_idem h]

theorem series_skip {part : Reader Node} (hskips : SkipsFirst part) {close : Char}
    {missing unfinished : Fault} {c c' : Cursor} (h : c.skip = .ok c') (fuel : Nat) :
    series part close missing unfinished (fuel + 1) c' =
      series part close missing unfinished (fuel + 1) c := by
  rw [series, series, hskips c c' h]

end ModAtlas.Document
