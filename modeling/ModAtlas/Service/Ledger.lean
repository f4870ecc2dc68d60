/-!
# Ledger of versions

Which versions of open documents came in and which were published. A document that is closed is
forgotten, and the closing is counted, so that what was started before can be told from what was
started after. `isStale` decides whether a result may still be published.
-/

namespace ModAtlas.Service

/-- For every document the newest version received, the newest one published, and how often it
was closed. -/
structure Ledger where
  received : String → Option Int
  published : String → Option Int
  closings : String → Nat

namespace Ledger

/-- A ledger without documents. -/
def empty : Ledger := ⟨fun _ => none, fun _ => none, fun _ => 0⟩

/-- Writes down that a version of a document came in, unless a newer one did before. -/
def receive (l : Ledger) (uri : String) (version : Int) : Ledger :=
  if (l.received uri).getD version ≤ version then
    { l with received := fun u => if u = uri then some version else l.received u }
  else l

/-- Forgets a document and counts the closing. -/
def close (l : Ledger) (uri : String) : Ledger where
  received u := if u = uri then none else l.received u
  published u := if u = uri then none else l.published u
  closings u := if u = uri then l.closings u + 1 else l.closings u

/-- Is a version too old to be published? It is when its document was closed since `closings`
were counted, or when a newer version came in or was published. -/
def isStale (l : Ledger) (uri : String) (version : Int) (closings : Nat) : Bool :=
  match l.received uri with
  | none => true
  | some newest =>
    closings != l.closings uri || version < newest || version < (l.published uri).getD version

/-- Writes down that a version of a document was published. -/
def publish (l : Ledger) (uri : String) (version : Int) : Ledger :=
  { l with published := fun u => if u = uri then some version else l.published u }

end Ledger
end ModAtlas.Service
