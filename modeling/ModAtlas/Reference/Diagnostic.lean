import ModAtlas.Reference.Classification
import ModAtlas.Validation.Problem
import ModAtlas.Workspace.MemberStore

/-!
# Diagnostics

What is reported about a document: the one fault of a text that is no document, the problems
under its schema, and the references to nothing.
-/

namespace ModAtlas.Reference
open ModAtlas.Document ModAtlas.Workspace

/-- Something reported about a range of a document. All reports are errors. -/
structure Diagnostic where
  range : Text.Range
  message : String
  source : String
  code : Option String
deriving DecidableEq, Repr

namespace Diagnostic

/-- The report of a fault: one character from where it is, or none at the end of the text. -/
def ofFault (text : List Char) (fault : Fault) (offset : Nat) : Diagnostic :=
  ⟨Text.rangeBetween text offset (min (offset + 1) text.length),
    "Invalid JSON: " ++ fault.message, "json", none⟩

/-- The report of a schema problem. -/
def ofProblem (a : Analysis) (p : Validation.Problem) : Diagnostic :=
  ⟨a.rangeOf p.place, p.message, "json-schema",
    if p.keyword.isEmpty then none else some p.keyword⟩

/-- The report of a reference to nothing. -/
def ofReference (a : Analysis) (p : Place) (category : Category) : Diagnostic :=
  ⟨a.rangeOf p, category.missing (p.node.text?.getD ""), "sins", some category.name⟩

end Diagnostic

namespace Analysis

/-- The problems of a document under its schema. -/
def schemaDiagnostics (a : Analysis) : List Diagnostic :=
  match a.schema with
  | none => []
  | some prepared =>
    (Validation.problems prepared.schema a.root).map (Diagnostic.ofProblem a)

/-- The references whose values are no members of their categories. -/
def referenceDiagnostics (a : Analysis) (members : MemberStore) : List Diagnostic :=
  a.references.filterMap fun r =>
    if members.contains r.2 (r.1.node.text?.getD "") then none
    else some (.ofReference a r.1 r.2)

/-- All that is reported about a document, schema problems first. -/
def diagnostics (a : Analysis) (members : MemberStore) : List Diagnostic :=
  a.schemaDiagnostics ++ a.referenceDiagnostics members

end Analysis
end ModAtlas.Reference
