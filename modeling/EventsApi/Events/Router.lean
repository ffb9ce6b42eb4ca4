import EventsApi.Events.Repository
import EventsApi.Users.Models

/-!
# Event listings

The public listing of `app/events/router.py` and the favorites listing of `app/users/router.py`. They
run one query; the second restricts it to the ids kept in the user row.
-/

namespace EventsApi

open Listing

variable {Num : Type} [LinearOrder Num] [Zero Num]

/-- List events with optional filters. -/
def listEvents (context : QueryContext) (priceText : Num → String)
    (executor : Executor (Event Num)) (table : EventTable Num) (filters : EventFilters Num)
    (now : Int) : PaginatedEventResponse Num :=
  let (total, events) := countAndList context executor table filters none now
  { data := events.map (EventResponse.fromEvent context.caseFold priceText)
    page := filters.page
    pageSize := filters.pageSize
    total := total }

/-- List the current user's favorite events. -/
def listFavorites (context : QueryContext) (priceText : Num → String)
    (executor : Executor (Event Num)) (table : EventTable Num) (user : User)
    (filters : EventFilters Num) (now : Int) : PaginatedEventResponse Num :=
  let (total, found) := countAndList context executor table filters (some user.favoriteEventIds) now
  { data := found.map (EventResponse.fromEvent context.caseFold priceText)
    page := filters.page
    pageSize := filters.pageSize
    total := total }

end EventsApi
