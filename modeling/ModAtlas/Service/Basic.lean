import ModAtlas.Service.Inquiry
import ModAtlas.Service.Ledger
import ModAtlas.Workspace.Atlas

/-!
# State of the service

The state that inquiries and rebuilds share: the atlas and the schema library, the language of
the session, the ledger of versions and the gate. The gate is closed while the atlas is being
rebuilt; an inquiry looks at it once, when it is asked.
-/

namespace ModAtlas.Service
open ModAtlas.Files ModAtlas.Reference ModAtlas.Schema ModAtlas.Workspace

/-- What a service is set up with. -/
structure Setup where
  searchDepth : Int
  maxPreview : Int
  language : String
  schemasFolder : Option String
deriving DecidableEq, Repr

/-- The setup without any settings. -/
def Setup.standard : Setup := ⟨5, 100, "en", none⟩

/-- The state shared by all inquiries and rebuilds. -/
structure State where
  finder : Finder
  maxPreview : Int
  library : Library
  atlas : Atlas
  root : Option Path
  language : String
  isReady : Bool
  ledger : Ledger

namespace State

/-- A service that knows no workspace. -/
def opened (t : Tree) (bundled : Path) (setup : Setup) : State where
  finder := .ofDepth setup.searchDepth
  maxPreview := setup.maxPreview
  library := .opened t bundled setup.schemasFolder
  atlas := .empty
  root := none
  language := setup.language
  isReady := false
  ledger := .empty

/-- Takes a request in: a validation registers its version, and the gate is looked at. -/
def receive (s : State) (request : Request) : State × Inquiry :=
  let ledger := match request.task with
    | .validation version => s.ledger.receive request.uri version
    | _ => s.ledger
  ({ s with ledger },
    ⟨request, request.task.languageIn s.language, ledger.closings request.uri,
      if s.isReady then .admitted else .waiting⟩)

/-- What a validation finds: a document that can be analysed has its diagnostics, a fault in the
text is one by itself, and with any other error nothing is found. -/
def findings? (s : State) (i : Inquiry) : Except AnalysisError Analysis → Option (List Diagnostic)
  | .ok a => some (a.diagnostics s.atlas.members)
  | .error (.text (.fault fault offset)) => some [.ofFault i.request.text.toList fault offset]
  | .error _ => none

/-- Publishes the diagnostics of a version unless it is stale. -/
def publish (s : State) (i : Inquiry) (version : Int) (found : List Diagnostic) :
    State × Inquiry :=
  let uri := i.request.uri
  if s.ledger.isStale uri version i.closings then (s, i.answer (.diagnostics none))
  else
    ({ s with ledger := s.ledger.publish uri version }, i.answer (.diagnostics (some found)))

/-- What hovers draw on. -/
def hoverSources (s : State) (t : Tree) : HoverSources :=
  ⟨t, s.atlas.members, s.atlas.localization, s.maxPreview⟩

/-- Serves an inquiry whose analysis has ended. -/
def serve (s : State) (t : Tree) (i : Inquiry) (result : Except AnalysisError Analysis) :
    State × Inquiry :=
  match i.request.task, result with
  | .validation version, result =>
    match s.findings? i result with
    | some found => s.publish i version found
    | none => (s, i.refuse)
  | .hover offset _, .ok a =>
    match a.hover (s.hoverSources t) i.language offset with
    | .ok found => (s, i.answer (.hover found))
    | .error _ => (s, i.refuse)
  | .definition offset _, .ok a =>
    (s, i.answer (.definition
      (a.definition t s.atlas.index s.atlas.members i.language offset)))
  | .completion offset, .ok a => (s, i.answer (.completion (a.completions s.atlas.members offset)))
  | _, .error _ => (s, i.refuse)

/-- The next step of an inquiry behind the gate: its document is analysed, then it is served. -/
def proceed (s : State) (t : Tree) (i : Inquiry) : State × Inquiry :=
  match i.stage with
  | .waiting => (s, i)
  | .answered _ => (s, i)
  | .admitted =>
    let (result, library) := analyze t s.library i.request.uri i.request.text
    ({ s with library }, i.reached (.analysed result))
  | .analysed result => s.serve t i result

/-- Closes a document. -/
def close (s : State) (uri : String) : State := { s with ledger := s.ledger.close uri }

/-- Changes the language of the session. -/
def speak (s : State) (language : String) : State := { s with language }

/-- Closes the gate and forgets the workspace and the schemas. -/
def forget (s : State) : State :=
  { s with isReady := false, atlas := .empty, library := s.library.reload }

end State
end ModAtlas.Service
