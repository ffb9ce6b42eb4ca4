import EventsApi.Events.Router
import EventsApi.Proof.Pages

/-!
# The favorites listing is a part of the public one

Restricting to favorites is one more WHERE clause, and the ordering is strict on a table, so leaving
rows out before the sort or after it gives one list. The shortcut for a user without favorites skips
a query that would find nothing.
-/

namespace EventsApi

open ThreeValued Listing

variable {Num : Type}

/-- The pages laid end to end are the rows, once there are enough of them, and every total counts
them. -/
def Lists (response : Nat → PaginatedEventResponse Num) (size : Nat)
    (rows : List (EventResponse Num)) : Prop :=
  (∀ page, (response page).total = rows.length)
    ∧ ∀ pages, rows.length ≤ pages * size →
        (List.range pages).flatMap (fun page => (response page).data) = rows

theorem Lists.of_window {response : Nat → PaginatedEventResponse Num} {size : Nat}
    {rows : List (EventResponse Num)} (htotal : ∀ page, (response page).total = rows.length)
    (hdata : ∀ page, (response page).data = window (page * size) size rows) :
    Lists response size rows := by
  refine ⟨htotal, fun pages henough => ?_⟩
  simp only [hdata]
  rw [flatMap_window, List.take_of_length_le henough]

variable [LinearOrder Num] [Zero Num]

theorem buildFilters_restrict (context : QueryContext) (filters : EventFilters Num)
    (ids : List Int) (now : Int) (event : Event Num) :
    buildFilters context filters (some ids) now event
      = some (ids.contains event.id) :: buildFilters context filters none now event := rfl

theorem filter_admits_restrict (context : QueryContext) (filters : EventFilters Num)
    (ids : List Int) (now : Int) (rows : List (Event Num)) :
    rows.filter (admits context filters (some ids) now)
      = (rows.filter (admits context filters none now)).filter
          fun event => ids.contains event.id := by
  rw [List.filter_filter]
  congr
  funext event
  simp [admits, buildFilters_restrict, holds_conjAll]

theorem listing_restrict (context : QueryContext) (table : EventTable Num)
    (filters : EventFilters Num) (ids : List Int) (now : Int) :
    listing context table filters (some ids) now
      = (listing context table filters none now).filter fun event => ids.contains event.id := by
  rw [listing, filter_admits_restrict]
  exact Executor.sort_filter _ _ inferInstance (compareKeys_strict context filters table none now) _

/-- **Favorites are a part of the public listing.** One list of events is what the public pages hold
for every page size and all executions of the queries. The favorites pages hold the same list
without the events that are no favorites, in the same order, and their total is its length. No
restriction is answered otherwise than the general query would. -/
theorem listFavorites_eq_filter (context : QueryContext) (priceText : Num → String)
    (table : EventTable Num) (user : User) (filters : EventFilters Num) (now : Int) :
    ∃ events : List (EventResponse Num),
      (∀ (size : Nat) (hsize : 1 ≤ size ∧ size ≤ maxPageSize)
          (executor : Nat → Executor (Event Num)),
        Lists (fun page => listEvents context priceText (executor page) table
            (filters.withPage (page + 1) size (Nat.le_add_left 1 page) hsize) now) size events
        ∧ Lists (fun page => listFavorites context priceText (executor page) table user
            (filters.withPage (page + 1) size (Nat.le_add_left 1 page) hsize) now) size
            (events.filter fun event => user.favoriteEventIds.contains event.id))
      ∧ ∀ (executor : Executor (Event Num)) (ids : List Int),
          countAndList context executor table filters (some ids) now
            = generalQuery context executor table filters (some ids) now := by
  let project := EventResponse.fromEvent context.caseFold priceText
  refine ⟨(listing context table filters none now).map project, fun size hsize executor => ?_,
    fun executor ids => countAndList_eq_generalQuery context executor table filters _ now⟩
  have hfavorites : ((listing context table filters none now).map project).filter
        (fun event => user.favoriteEventIds.contains event.id)
      = (listing context table filters (some user.favoriteEventIds) now).map project := by
    rw [listing_restrict, List.filter_map]
    rfl
  rw [hfavorites]
  constructor
  · apply Lists.of_window
    · intro page
      simp only [listEvents, countAndList_eq, List.length_map]
      rfl
    · intro page
      simp only [listEvents, countAndList_eq]
      exact window_map project _ _ _
  · apply Lists.of_window
    · intro page
      simp only [listFavorites, countAndList_eq, List.length_map]
      rfl
    · intro page
      simp only [listFavorites, countAndList_eq]
      exact window_map project _ _ _

end EventsApi
