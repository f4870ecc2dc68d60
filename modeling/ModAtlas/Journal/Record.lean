import ModAtlas.Journal.Level
import ModAtlas.Json.Literal

/-!
# Records

What a journal is made of. The text of a record is a template with arguments put in: `%s` takes
any value, `%d` a number, whose fraction is dropped, and `%%` is a percent sign. A template
without arguments is its own text.
-/

namespace ModAtlas.Journal
open ModAtlas.Json

/-- Something to be noted: how grave, what, by whom, and when. -/
structure Record where
  level : Level
  template : String
  arguments : List Value
  source : String
  line : Int
  /-- Seconds since the start of 1970. -/
  created : Number
  /-- The milliseconds of the second. -/
  milliseconds : Number
  /-- Milliseconds since the start of the program. -/
  elapsed : Number

/-- Why a record has no text. -/
inductive TextError where
  | tooFewArguments
  | tooManyArguments
  | notNumber
  | infinite
  | notFinite
  | badTemplate
deriving DecidableEq, Repr

/-- A number with its fraction dropped. -/
def wholeNumber : Number → Except TextError Int
  | .int n => .ok n
  | .real .nan => .error .notFinite
  | .real x =>
    match x.truncate? with
    | some n => .ok n
    | none => .error .infinite

/-- A value as a whole number; truth values are 1 and 0. -/
def wholeValue (v : Value) : Except TextError Int :=
  match v.quantity? with
  | some n => wholeNumber n
  | none => .error .notNumber

/-- A template with arguments put in, and the arguments left over. -/
def fill : List Char → List Value → Except TextError (List Char × List Value)
  | [], left => .ok ([], left)
  | '%' :: '%' :: rest, left => (fill rest left).map fun r => ('%' :: r.1, r.2)
  | '%' :: 's' :: rest, v :: left =>
    (fill rest left).map fun r => (v.plain.toList ++ r.1, r.2)
  | '%' :: 'd' :: rest, v :: left =>
    match wholeValue v with
    | .error e => .error e
    | .ok n => (fill rest left).map fun r => ((toString n).toList ++ r.1, r.2)
  | ['%'], _ => .error .badTemplate
  | '%' :: _ :: _, [] => .error .tooFewArguments
  | '%' :: _ :: _, _ => .error .badTemplate
  | c :: rest, left => (fill rest left).map fun r => (c :: r.1, r.2)

/-- May arguments be left over? A single object with members may. -/
def mayRemain : List Value → Bool
  | [.obj members] => !members.isEmpty
  | _ => false

/-- The text of a record. -/
def Record.text (r : Record) : Except TextError String :=
  if r.arguments.isEmpty then .ok r.template
  else
    match fill r.template.toList r.arguments with
    | .error e => .error e
    | .ok (text, left) =>
      if left.isEmpty || mayRemain left then .ok (String.ofList text)
      else .error .tooManyArguments

end ModAtlas.Journal
