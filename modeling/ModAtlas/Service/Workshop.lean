import ModAtlas.Service.Basic
import ModAtlas.Service.Rebuild

/-!
# Overlapping work

A workshop is a service together with the files it reads and all the work that was started in it.
`act` takes one atomic action; `run` takes several in the order given, so that a list of actions
is one way in which pieces of work may overlap. A ticket is the place of a piece of work in the
order of starting; an action that does not fit the work of its ticket changes nothing.
-/

namespace ModAtlas.Service
open ModAtlas.Files ModAtlas.Workspace

/-- A piece of work. -/
inductive Work where
  | inquiry (i : Inquiry)
  | rebuild (r : Rebuild)

/-- A service, the files it reads and the work started in it. -/
structure Workshop where
  tree : Tree
  service : State
  works : List Work

/-- One atomic action. -/
inductive Action where
  /-- The files are changed. -/
  | edit (tree : Tree)
  /-- A request is asked. -/
  | ask (request : Request)
  /-- A rebuild is started: the gate is closed and all is forgotten. Without a language of its
  own it uses that of the session. -/
  | rebuild (root : String) (language : Option String)
  /-- A document is closed. -/
  | close (uri : String)
  /-- The language of the session is changed. -/
  | speak (language : String)
  /-- An inquiry takes its next step. -/
  | proceed (ticket : Nat)
  /-- An inquiry has waited too long at the gate. -/
  | giveUp (ticket : Nat)
  /-- A rebuild gathers one of its parts. -/
  | gather (ticket : Nat) (part : Part)
  /-- A rebuild that is complete delivers, and the gate is opened. -/
  | finish (ticket : Nat)

namespace Work

/-- Admits an inquiry that waits. -/
def letIn : Work → Work
  | .inquiry i => .inquiry i.letIn
  | w => w

/-- The answer to an inquiry. -/
def answer? : Work → Option Answer
  | .inquiry i =>
    match i.stage with
    | .answered a => some a
    | _ => none
  | .rebuild _ => none

/-- Is the work still to be done? -/
def isOpen : Work → Bool
  | .inquiry i =>
    match i.stage with
    | .answered _ => false
    | _ => true
  | .rebuild r => !r.finished

end Work

namespace Workshop

/-- A workshop in which nothing was started. -/
def opened (t : Tree) (bundled : Path) (setup : Setup) : Workshop :=
  ⟨t, .opened t bundled setup, []⟩

/-- The ticket that the next piece of work gets. -/
def nextTicket (s : Workshop) : Nat := s.works.length

/-- The answer to the inquiry of a ticket. -/
def answer? (s : Workshop) (ticket : Nat) : Option Answer := s.works[ticket]?.bind Work.answer?

/-- The language a rebuild is for: its own unless that is empty, else that of the session. -/
def rebuildLanguage (s : Workshop) (language : Option String) : String :=
  match language with
  | some l => if l.isEmpty then s.service.language else l
  | none => s.service.language

/-- Ends a rebuild: what it read is delivered, its language becomes that of the session, the gate
is opened and all inquiries that wait are admitted. -/
def conclude (s : Workshop) (ticket : Nat) (r : Rebuild) : Workshop where
  tree := s.tree
  service := { s.service with
    atlas := r.deliver s.service.atlas
    root := some (.ofString r.root)
    language := r.language
    isReady := true }
  works := (s.works.set ticket (.rebuild { r with finished := true })).map Work.letIn

/-- Takes one action. -/
def act (s : Workshop) : Action → Workshop
  | .edit tree => { s with tree }
  | .ask request =>
    let (service, i) := s.service.receive request
    { s with service, works := s.works ++ [.inquiry i] }
  | .rebuild root language =>
    { s with
      service := s.service.forget
      works := s.works ++ [.rebuild (.start root (s.rebuildLanguage language))] }
  | .close uri => { s with service := s.service.close uri }
  | .speak language => { s with service := s.service.speak language }
  | .proceed ticket =>
    match s.works[ticket]? with
    | some (.inquiry i) =>
      let (service, i) := s.service.proceed s.tree i
      { s with service, works := s.works.set ticket (.inquiry i) }
    | _ => s
  | .giveUp ticket =>
    match s.works[ticket]? with
    | some (.inquiry i) => { s with works := s.works.set ticket (.inquiry i.giveUp) }
    | _ => s
  | .gather ticket part =>
    match s.works[ticket]? with
    | some (.rebuild r) =>
      let (r, atlas) := r.gather s.tree s.service.finder s.service.atlas part
      { s with
        service := { s.service with atlas }
        works := s.works.set ticket (.rebuild r) }
    | _ => s
  | .finish ticket =>
    match s.works[ticket]? with
    | some (.rebuild r) => if r.isComplete && !r.finished then s.conclude ticket r else s
    | _ => s

/-- Takes actions one after the other. -/
def run (s : Workshop) (actions : List Action) : Workshop := actions.foldl act s

/-! ## Settling -/

/-- The actions that bring the work of a ticket as far as it goes. -/
def actionsFor (ticket : Nat) : List Action :=
  [.proceed ticket, .proceed ticket] ++ Rebuild.parts.map (.gather ticket) ++ [.finish ticket]

/-- The tickets of open work. -/
def openTickets (s : Workshop) : List Nat :=
  (List.range s.works.length).filter fun ticket => (s.works[ticket]?.map Work.isOpen).getD false

/-- Brings all open work as far as it goes, one piece after the other. -/
def sweep (s : Workshop) : Workshop := s.run (s.openTickets.flatMap actionsFor)

/-- Ends all work: a second sweep serves what a rebuild of the first one admitted, and what then
still waits is given up. -/
def settle (s : Workshop) : Workshop :=
  let s := s.sweep.sweep
  s.run (s.openTickets.map .giveUp)

end Workshop
end ModAtlas.Service
