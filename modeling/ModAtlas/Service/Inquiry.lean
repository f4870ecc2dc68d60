import ModAtlas.Reference.Completion
import ModAtlas.Reference.Diagnostic
import ModAtlas.Reference.Hover

/-!
# Inquiries

What may be asked about a document, what is answered, and how far an inquiry has come: it waits
at the gate until the workspace is known, is then admitted, and is answered some time after its
document has been analysed. Other work may come between any two stages.
-/

namespace ModAtlas.Service
open ModAtlas.Reference

/-- What is asked. A hover and a definition may ask for a language of their own. -/
inductive Task where
  | validation (version : Int)
  | hover (offset : Int) (language : Option String)
  | definition (offset : Int) (language : Option String)
  | completion (offset : Int)
deriving DecidableEq, Repr

/-- A question about the text of a document. -/
structure Request where
  uri : String
  text : String
  task : Task
deriving DecidableEq, Repr

/-- What is answered. A validation without diagnostics to publish answers `none`. -/
inductive Answer where
  | diagnostics (found : Option (List Diagnostic))
  | hover (found : Option Hover)
  | definition (found : List Location)
  | completion (found : List Completion)
deriving DecidableEq, Repr

namespace Task

/-- The answer to a request that cannot be served. -/
def unserved : Task → Answer
  | .validation _ => .diagnostics none
  | .hover .. => .hover none
  | .definition .. => .definition []
  | .completion _ => .completion []

/-- The language a request is served in, when a session has another one. -/
def languageIn (session : String) : Task → String
  | .hover _ language => language.getD session
  | .definition _ language => language.getD session
  | _ => session

end Task

/-- How far an inquiry has come. -/
inductive Stage where
  | waiting
  | admitted
  | analysed (result : Except AnalysisError Analysis)
  | answered (answer : Answer)

/-- A request under way: its language, and how often its document was closed before it. -/
structure Inquiry where
  request : Request
  language : String
  closings : Nat
  stage : Stage

namespace Inquiry

/-- An inquiry that has come to a stage. -/
def reached (i : Inquiry) (stage : Stage) : Inquiry := { i with stage }

/-- An inquiry with its answer. -/
def answer (i : Inquiry) (answer : Answer) : Inquiry := i.reached (.answered answer)

/-- An inquiry that cannot be served. -/
def refuse (i : Inquiry) : Inquiry := i.answer i.request.task.unserved

/-- Admits an inquiry that waits. -/
def letIn (i : Inquiry) : Inquiry :=
  match i.stage with
  | .waiting => i.reached .admitted
  | _ => i

/-- Refuses an inquiry that waits. -/
def giveUp (i : Inquiry) : Inquiry :=
  match i.stage with
  | .waiting => i.refuse
  | _ => i

end Inquiry
end ModAtlas.Service
