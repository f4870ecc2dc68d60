import ModAtlas.Reference.Definition
import ModAtlas.Image.Size
import ModAtlas.Text.Base64

/-!
# Hovers

What is shown for a place of a document: a preview of an image, the texts of a localization key,
or else the title and description of the schema that governs the place.
-/

namespace ModAtlas.Reference
open ModAtlas.Document ModAtlas.Workspace ModAtlas.Files ModAtlas.Text

/-- What is shown, and for which range. -/
structure Hover where
  contents : String
  range : Text.Range
deriving DecidableEq, Repr

/-- A size in octets as kilobytes with one decimal; of two nearest the even one. -/
def kilobytes (octets : Nat) : String :=
  let tenths := Binary64.roundQuotient (octets * 10) 1024
  toString (tenths / 10) ++ "." ++ toString (tenths % 10)

/-- The media type of an image file, by its suffix in any case. -/
def mediaType (path : String) : String :=
  let suffix := Path.suffixOf (fileName path)
  if String.ofList (suffix.toList.map Char.toLower) = ".dds" then "image/vnd-ms.dds"
  else "image/png"

/-- A preview of the image of a member: a link, the size, and the image itself unless it is too
large. A member without a readable file has none. -/
def imagePreview (t : Tree) (members : MemberStore) (maxPreview : Int) (category : Category)
    (value : String) : Except Image.Fault (Option String) :=
  match members.locate category value with
  | none => .ok none
  | some path =>
    match t.octets (Path.ofString path) with
    | .error _ => .ok none
    | .ok octets =>
      (Image.sizeOf? octets).map fun size =>
        let head := ["**Texture Preview**", "[Open File](" ++ uriOf t path ++ ")"]
        let measures := size.toList.map fun s =>
          toString s.width ++ " x " ++ toString s.height ++ " px"
        let body :=
          if (octets.length : Int) ≤ 1024 * maxPreview then
            ["![" ++ value ++ "](data:" ++ mediaType path ++ ";base64," ++
              String.ofList (Base64.encode octets) ++ ")"]
          else
            ["_(Image too large for preview: " ++ kilobytes octets.length ++ " KB)_",
              "Maximum file size is " ++ toString maxPreview ++ " KB."]
        some (join "\n\n" (head ++ measures ++ body))

/-- The row of one language in the table of texts. -/
def languageRow (l : Localization) (key language : String) : String :=
  match l.value language key with
  | some text => "| **" ++ language ++ "** | " ++ text ++ " |"
  | none => "| " ++ language ++ " | *(missing)* |"

/-- The line of the file that gives the text of a key in a language. -/
def sourceLine (t : Tree) (l : Localization) (language key : String) : List String :=
  match l.file? language, l.value language key with
  | some file, some _ =>
    match keyPositionAt t file.path key with
    | none => []
    | some p =>
      let line := toString (p.line + 1)
      ["", "[" ++ fileName file.path ++ ":" ++ line ++ "](" ++ uriOf t file.path ++ "#L" ++
        line ++ ")"]
  | _, _ => []

/-- The texts of a key: that of the language asked for, then those of all languages. A key
without any text has none. -/
def localizedTexts (t : Tree) (l : Localization) (key language : String) : Option String :=
  let value := l.value language key
  if value.isNone && l.languages.all (fun code => (l.value code key).isNone) then none
  else
    let first := match value with
      | some text => "**" ++ language ++ "**: " ++ text
      | none => "**" ++ language ++ "**: *(missing)*"
    some (join "\n"
      (["**Localized Text**", "", first, "", "| Language | Value |", "| :--- | :--- |"] ++
        l.languages.map (languageRow l key) ++ sourceLine t l language key))

/-- A member of a schema that is a text and not empty. -/
def textMember (members : Json.Members) (key : String) : Option String :=
  ((Json.Members.get? members key).bind Json.Value.text?).filter (· != "")

/-- Title and description of a subschema. -/
def description? (m : Schema.Match) : Option String :=
  let parts := ((textMember m.members "title").map fun s => "**" ++ s ++ "**").toList ++
    (textMember m.members "description").toList
  if parts.isEmpty then none else some (join "\n\n" parts)

/-- Title and description for a place; a key stands for the value of its property. -/
def Analysis.schemaDescription (a : Analysis) (p : Place) : Option String :=
  let target := if p.isKey then (p.parent?.bind Place.value?).getD p else p
  (a.governing target).findSome? description?

/-- What hovers draw on. -/
structure HoverSources where
  tree : Tree
  members : MemberStore
  localization : Localization
  maxPreview : Int

/-- What a reference shows by its category, if anything. -/
def HoverSources.preview (s : HoverSources) (language : String) (category : Option Category)
    (value : String) : Except Image.Fault (Option String) :=
  match category with
  | none => .ok none
  | some category =>
    if category.isImage then imagePreview s.tree s.members s.maxPreview category value
    else if category = .localizedText then
      .ok (localizedTexts s.tree s.localization value language)
    else .ok none

/-- What is shown at an offset. -/
def Analysis.hover (a : Analysis) (s : HoverSources) (language : String) (offset : Int) :
    Except Image.Fault (Option Hover) :=
  match a.place.at? offset false with
  | none => .ok none
  | some p =>
    let preview := match a.stringAt offset with
      | some (q, value) => s.preview language (a.classify q) value
      | none => .ok none
    preview.map fun contents =>
      (contents.or (a.schemaDescription p)).map fun c => ⟨c, a.rangeOf p⟩

end ModAtlas.Reference
