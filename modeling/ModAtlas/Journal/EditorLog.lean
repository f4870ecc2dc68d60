import ModAtlas.Journal.Layout

/-!
# Log of the editor

Keeps the latest records and passes them on to listeners: one that hears every record and may
ask for those kept so far, and one that hears errors only. A record that cannot be written, or
whose listener fails, is a failure that ends here.
-/

namespace ModAtlas.Journal

/-- A listener hears what it is given; one that fails still hears it. -/
inductive Listener where
  | sound
  | failing
deriving DecidableEq, Repr

/-- What becomes of records: heard by a listener, or failed. -/
inductive Event where
  | heard (level : Level) (line : String)
  | alarmed (level : Level) (line : String)
  | failed (record : Record)

/-- The log of an editor: the records kept, at most `capacity`, oldest first. -/
structure EditorLog where
  capacity : Nat
  threshold : Threshold
  layout : Layout
  kept : List Record
  listener : Option Listener
  alarm : Option Listener

/-- Why no log can have a capacity. -/
inductive CapacityError where
  | negative
  | tooLarge
deriving DecidableEq, Repr

namespace EditorLog

/-- The capacity a log has when nothing else is asked for. -/
def standardCapacity : Int := 1000

/-- The greatest capacity. -/
def greatestCapacity : Int := 0x7fffffffffffffff

/-- An empty log. -/
def opened (capacity : Int) (threshold : Threshold) (layout : Layout) :
    Except CapacityError EditorLog :=
  if capacity < 0 then .error .negative
  else if greatestCapacity < capacity then .error .tooLarge
  else .ok ⟨capacity.toNat, threshold, layout, [], none, none⟩

/-- Keeps a record, and drops the oldest one when the log is full. -/
def keep (log : EditorLog) (r : Record) : EditorLog :=
  let kept := log.kept ++ [r]
  { log with kept := kept.drop (kept.length - log.capacity) }

/-- What listeners make of a record and its line. -/
def announce (log : EditorLog) (r : Record) (line : String) : List Event :=
  let alarm := if Level.error.rank ≤ r.level.rank then log.alarm else none
  let alarmed := match alarm with
    | none => []
    | some .sound => [.alarmed r.level line]
    | some .failing => [.alarmed r.level line, .failed r]
  match log.listener with
  | none => alarmed
  | some .sound => .heard r.level line :: alarmed
  | some .failing => [.heard r.level line, .failed r]

/-- Takes a record from the threshold on. -/
def emit (log : EditorLog) (r : Record) : EditorLog × List Event :=
  if log.threshold.takes r.level then
    match log.layout.write r with
    | .error _ => (log, [.failed r])
    | .ok line => (log.keep r, log.announce r line)
  else (log, [])

/-- Why kept records cannot be passed on. -/
inductive ReplayError where
  | listenerFailed
  | unwritable (e : TextError)
deriving DecidableEq, Repr

/-- Passes records on to a listener, up to the first failure. -/
def replay (layout : Layout) (listener : Listener) : List Record → List Event × Option ReplayError
  | [] => ([], none)
  | r :: rest =>
    match layout.write r with
    | .error e => ([], some (.unwritable e))
    | .ok line =>
      match listener with
      | .failing => ([.heard r.level line], some .listenerFailed)
      | .sound =>
        let (events, e) := replay layout listener rest
        (.heard r.level line :: events, e)

/-- Changes the listener, who may ask for the records kept. -/
def listen (log : EditorLog) (listener : Option Listener) (again : Bool) :
    EditorLog × List Event × Option ReplayError :=
  let events := match listener with
    | some l => if again then replay log.layout l log.kept else ([], none)
    | none => ([], none)
  ({ log with listener }, events)

/-- Changes the listener for errors. -/
def listenForErrors (log : EditorLog) (alarm : Option Listener) : EditorLog := { log with alarm }

/-- Drops all records. -/
def clear (log : EditorLog) : EditorLog := { log with kept := [] }

end EditorLog
end ModAtlas.Journal
