import ModAtlas.Schema.Correction
import ModAtlas.Schema.Tag

/-!
# Prepared schemas

A schema ready for use: corrected, and with the table of its tags.
-/

namespace ModAtlas.Schema
open ModAtlas.Json

/-- A corrected schema, its tags and the name of its file. -/
structure Prepared where
  schema : Value
  tags : TagTable
  fileName : String
deriving Repr, Inhabited

/-- Why a schema cannot be prepared. -/
inductive PrepareError where
  | correction (e : CorrectionError)
  | pointer (e : Pointer.Error)
deriving DecidableEq, Repr

/-- Corrects a schema and tags it by the rules of its file. -/
def prepare (fileName : String) (schema : Value) : Except PrepareError Prepared :=
  match correct fileName schema with
  | .error e => .error (.correction e)
  | .ok corrected =>
    match tagsOf corrected (rulesFor fileName) with
    | .error e => .error (.pointer e)
    | .ok tags => .ok ⟨corrected, tags, fileName⟩

end ModAtlas.Schema
