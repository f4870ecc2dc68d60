import ModAtlas.Reference.Classification
import ModAtlas.Workspace.MemberStore
import ModAtlas.Json.Escape

/-!
# Completion

The members that may be written at a place of a document: in a string that is a reference, which
is replaced, or in an array of references, where the string is inserted.
-/

namespace ModAtlas.Reference
open ModAtlas.Document ModAtlas.Workspace ModAtlas.Files ModAtlas.Text

/-- What kind of thing a completion stands for. -/
inductive CompletionKind where
  | text
  | file
  | reference
deriving DecidableEq, Repr

/-- The kind of the completions of a category. -/
def Category.completionKind (c : Category) : CompletionKind :=
  if c.isImage then .file else if c = .localizedText then .text else .reference

/-- A completion: what is shown, what is written and where. -/
structure Completion where
  label : String
  kind : CompletionKind
  insertText : String
  detail : String
  range : Text.Range
deriving DecidableEq, Repr

/-- Is it the name of an image file, by its suffix in any case? -/
def isImageName (name : String) : Bool :=
  let suffix := Path.suffixOf (fileName name)
  let lower := String.ofList (suffix.toList.map Char.toLower)
  lower == ".dds" || lower == ".png"

/-- The labels of members, sorted. Of image categories only the file names count, and are shown
without their suffix. -/
def labels (category : Category) (members : List String) : List String :=
  if category.isImage then
    sortedDistinct ((members.filter isImageName).map fun m => Path.stemOf (fileName m))
  else sorted members

namespace Analysis

/-- Where something can be completed: in a string that is a value, or in an array. -/
def completionTarget (a : Analysis) (offset : Int) : Option Place :=
  match a.place.at? offset false with
  | none => none
  | some p =>
    match p.node with
    | .scalar _ (.string _) => if p.isValue then some p else none
    | .array .. => some p
    | _ => none

/-- The range that a completion replaces: a string, or nothing at the cursor. -/
def completionRange (a : Analysis) (p : Place) (offset : Int) : Text.Range :=
  match p.node with
  | .array .. => rangeBetween a.text offset offset
  | _ => a.rangeOf p

/-- The completions at an offset. -/
def completions (a : Analysis) (members : MemberStore) (offset : Int) : List Completion :=
  match a.completionTarget offset with
  | none => []
  | some p =>
    match a.classify p with
    | none => []
    | some category =>
      let range := a.completionRange p offset
      (labels category (members.members category)).map fun label =>
        ⟨label, category.completionKind, Json.quote label, category.label, range⟩

end Analysis
end ModAtlas.Reference
