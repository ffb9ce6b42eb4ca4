import EventsApi.Events.Router
import EventsApi.Library.FloatOrder
import EventsApi.Users.Router

/-!
# Views of an event

`get_event` of `app/events/router.py` with `get` and `increment_popularity` of
`app/events/repository.py`. Nothing else in the service writes an event. `updated_at` takes the time
the transaction began.
-/

namespace EventsApi

open ReadCommitted

deriving instance DecidableEq for Event

deriving instance DecidableEq for EventResponse

/-- A stored event, with the column that every `UPDATE` sets. -/
structure EventRow (Num : Type) where
  event : Event Num
  updatedAt : Int
  deriving DecidableEq

/-- The table of the events. Its primary key is the id that the ingest process gave them. -/
def eventDatabase (Num : Type) [DecidableEq Num] : Schema where
  Table := Unit
  Row _ := EventRow Num
  clash _ row row' := row.event.id == row'.event.id
  tableEq := inferInstance
  rowEq _ := inferInstanceAs (DecidableEq (EventRow Num))

abbrev eventTable (Num : Type) [DecidableEq Num] : (eventDatabase Num).Table := ()

variable {Num : Type} [LinearOrder Num] [Zero Num]

abbrev EventDb (Num α : Type) [DecidableEq Num] := Prog (eventDatabase Num) Exn α

abbrev EventRow.hasId (eventId : EventId) (_ : Nat) (row : EventRow Num) : Bool :=
  row.event.id == eventId.val

/-- The event as it is loaded: `Numeric(asdecimal=False)` reads the counter as a float. -/
def Event.loaded (event : Event Num) : Event Num :=
  { event with popularityCounter := FloatOrder.roundInt event.popularityCounter }

omit [LinearOrder Num] [Zero Num] in
theorem Event.loaded_of_lt {event : Event Num} (h : event.popularityCounter.natAbs < 2 ^ 53) :
    event.loaded = event := by
  rw [loaded, FloatOrder.roundInt_of_lt h]

namespace Events

def get (eventId : EventId) : EventDb Num (Option (Event Num)) := do
  let found ← Prog.scalar (eventTable Num) (EventRow.hasId eventId)
  return found.map fun (found : Nat × EventRow Num) => found.2.event.loaded

/-- The `SET` clause of a view. -/
def bump (startedAt : Int) (row : EventRow Num) : EventRow Num where
  event := { row.event with popularityCounter := row.event.popularityCounter + 1 }
  updatedAt := startedAt

/-- Bump the view counter in a single statement, avoiding a read-modify-write. -/
def incrementPopularity (eventId : EventId) (startedAt : Int) : EventDb Num Unit := do
  let _ ← Prog.updateWhere (eventTable Num) (EventRow.hasId eventId) (bump startedAt)
  Prog.commit

end Events

variable (cf : Like.CaseFold) (priceText : Num → String)

/-- Get a single event by id. The view is counted after the response is built. -/
def getEvent (eventId : EventId) : EventDb Num (EventResponse Num) := do
  let startedAt ← Prog.now
  match ← Events.get eventId with
  | none => .raise (eventNotFound eventId)
  | some event =>
      let response := EventResponse.fromEvent cf priceText event
      Events.incrementPopularity eventId startedAt
      return response

/-- The service, as far as views go. -/
def viewSystem : System (eventDatabase Num) EventId Exn (EventResponse Num) where
  handler := getEvent cf priceText
  lost := .lost

end EventsApi
