import ModAtlas.Json.Value
import ModAtlas.Document.Place

/-!
# Outcomes of an evaluation

Holding a value against a schema gives the violations in the order in which they are met, and
may break off: at a reference that leads nowhere, at a keyword whose value makes no sense, in a
cycle of references. What was met before the break stays. Whether a value is valid is decided at
the first violation, so that a break behind it is never reached.
-/

namespace ModAtlas.Validation
open ModAtlas.Json ModAtlas.Document

/-- One violation: the keyword broken (none for the schema `false`), what is said about it, the
way to where it is reported, the schema that holds the keyword, and the value it is about. -/
structure Violation where
  keyword : Option String
  message : String
  path : List PathStep
  schema : Value
  value : Value
deriving Repr, Inhabited

/-- The violations met, and whether the evaluation broke off behind them. -/
structure Outcome where
  violations : List Violation
  broken : Bool
deriving Repr, Inhabited

namespace Outcome

/-- Nothing to complain about. -/
def fine : Outcome := ⟨[], false⟩

/-- An evaluation that breaks off at once. -/
def broke : Outcome := ⟨[], true⟩

/-- One violation. -/
def violated (v : Violation) : Outcome := ⟨[v], false⟩

/-- Is the evaluation over? It is when it broke off, and at a violation when only the first one
is asked for. -/
def isOver (firstOnly : Bool) (o : Outcome) : Bool :=
  o.broken || (firstOnly && !o.violations.isEmpty)

/-- One evaluation and then, unless it is over, another. -/
def andThen (firstOnly : Bool) (o : Outcome) (next : Unit → Outcome) : Outcome :=
  if o.isOver firstOnly then o
  else
    let p := next ()
    ⟨o.violations ++ p.violations, p.broken⟩

/-- An evaluation for each of several things in turn, until it is over. -/
def each {α : Type} (firstOnly : Bool) (f : α → Outcome) : List α → Outcome
  | [] => fine
  | x :: xs => andThen firstOnly (f x) fun _ => each firstOnly f xs

/-- Places the violations one step further down. -/
def under (step : PathStep) (o : Outcome) : Outcome :=
  ⟨o.violations.map fun v => { v with path := step :: v.path }, o.broken⟩

/-- Valid or not, if it can be told. -/
def verdict? (o : Outcome) : Option Bool :=
  if !o.violations.isEmpty then some false
  else if o.broken then none
  else some true

end Outcome

/-- Holds values against one whole schema: all violations of a value, and whether a value is valid
under a subschema evaluated within the whole one. There is no answer where that breaks off. -/
structure Validator where
  violations : Value → Outcome
  accepts? : Value → Value → Option Bool

/-- A value is taken for valid when its evaluation ends and finds no violation. -/
def Validator.isValid (v : Validator) (schema value : Value) : Bool :=
  (v.accepts? schema value).getD false

end ModAtlas.Validation
