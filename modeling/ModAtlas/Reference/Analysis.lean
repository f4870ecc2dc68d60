import ModAtlas.Document.Reader
import ModAtlas.Schema.Library
import ModAtlas.Schema.Matching
import ModAtlas.Text.Lines

/-!
# Analysis of a document

A document that was read and, if it has a schema, matched against it. `analyze` starts from a URI
and a text: the text is read first, then the schema is looked up by the name of the file.
-/

namespace ModAtlas.Reference
open ModAtlas.Document ModAtlas.Files ModAtlas.Schema

/-- A document that was read and matched against its schema, if it has one. -/
structure Analysis where
  text : List Char
  root : Node
  schema : Option Prepared
  found : List Match
deriving Inhabited

namespace Analysis

/-- Matches a document that was read against its schema. -/
def ofTree (text : List Char) (root : Node) (schema : Option Prepared) :
    Except MatchError Analysis :=
  match schema with
  | none => .ok ⟨text, root, none, []⟩
  | some prepared =>
    (matching prepared.schema root).map fun found => ⟨text, root, some prepared, found⟩

/-- The place of the whole document. -/
def place (a : Analysis) : Place := .root a.root

/-- The subschemas that govern a place. -/
def governing (a : Analysis) (p : Place) : List Match := a.found.filter (·.place.same p)

/-- Where a place of the document is in its text. -/
def rangeOf (a : Analysis) (p : Place) : Text.Range :=
  Text.rangeBetween a.text p.span.start p.span.stop

end Analysis

/-- Why a document cannot be analysed. -/
inductive AnalysisError where
  | text (e : Failure)
  | uri (e : Uri.Error)
  | schema (e : PrepareError)
  | matching (e : MatchError)
deriving DecidableEq, Repr

/-- Analyses a document, and gives the library with the schema that was read for it. -/
def analyze (t : Tree) (library : Library) (uri text : String) :
    Except AnalysisError Analysis × Library :=
  match read text.toList with
  | .error e => (.error (.text e), library)
  | .ok root =>
    match Uri.fileName uri with
    | .error e => (.error (.uri e), library)
    | .ok name =>
      match library.forDocument t name with
      | .error e => (.error (.schema e), library)
      | .ok (schema, library) =>
        ((Analysis.ofTree text.toList root schema).mapError .matching, library)

end ModAtlas.Reference
