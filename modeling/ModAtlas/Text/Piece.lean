/-!
# Pieces of a text

Splitting, searching and counting on texts held as lists of characters.
-/

namespace ModAtlas.Text

/-- The pieces between the separators, empty ones included: one more than there are separators. -/
def splitOn (sep : Char) : List Char → List (List Char)
  | [] => [[]]
  | c :: rest =>
    match splitOn sep rest with
    | [] => [[]]
    | piece :: pieces => if c = sep then [] :: piece :: pieces else (c :: piece) :: pieces

theorem splitOn_ne_nil (sep : Char) (s : List Char) : splitOn sep s ≠ [] := by
  cases s with
  | nil => simp [splitOn]
  | cons c rest =>
    simp only [splitOn]
    split
    · simp
    · split <;> simp

/-- The text before the first separator. -/
def before (sep : Char) (s : List Char) : List Char := s.takeWhile (· != sep)

/-- The text before the first separator and the text after it, when there is one. -/
def cut? (sep : Char) : List Char → Option (List Char × List Char)
  | [] => none
  | c :: rest =>
    if c = sep then some ([], rest) else (cut? sep rest).map fun p => (c :: p.1, p.2)

/-- Does the text end with `tail`? -/
def endsWith (s tail : List Char) : Bool := tail.isSuffixOf s

/-- Where `needle` occurs in the text, overlapping occurrences included, counted from `here`. -/
def occurrences (needle : List Char) (here : Nat) : List Char → List (Nat × List Char)
  | [] => if needle.isEmpty then [(here, [])] else []
  | c :: rest =>
    let later := occurrences needle (here + 1) rest
    match List.isPrefixOf? needle (c :: rest) with
    | some after => (here, after) :: later
    | none => later

/-- A text without the one line feed that may end it. -/
def dropLastNewline (s : List Char) : List Char :=
  if s.getLast? = some '\n' then s.dropLast else s

/-- Texts joined with a separator between them. -/
def join (sep : String) (parts : List String) : String := String.intercalate sep parts

/-- The least order of texts: by code point, the shorter first. -/
def le (a b : String) : Bool := !decide (b < a)

/-- Texts in code point order, equal ones kept in place. -/
def sorted (xs : List String) : List String := xs.mergeSort le

/-- Texts in code point order without repetitions. -/
def sortedDistinct (xs : List String) : List String := (sorted xs).eraseReps

end ModAtlas.Text
