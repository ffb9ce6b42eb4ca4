import EventsApi.Events.Models
import EventsApi.Library.Decimal
import EventsApi.Library.Listing
import EventsApi.Core.Time

/-!
# Event requests and responses

`app/events/schemas.py`. A value of `EventFilters` is a query that passed validation: the field
bounds and the two combination checks are part of the type.
-/

namespace EventsApi

open Listing ClockZone

inductive OrderBy where
  | startTime
  | popularityCounter
  | price
  deriving DecidableEq

inductive EventStatus where
  | upcoming
  | past
  deriving DecidableEq

def maxPageSize : Nat := 100

/-- Python's `text.rstrip(char)`. -/
def rstrip (text : List Char) (char : Char) : List Char := text.rdropWhile (· == char)

/-- Match the JSON representation of numeric prices. `str` renders a number as Python does. -/
def priceAsString {Num : Type} (str : Num → String) :
    Option Num → Except Decimal.Error (Option String)
  | none => .ok none
  | some value => do
      let text := (← Decimal.Value.ofText (str value).toList).format
      return some (String.ofList (if '.' ∈ text then rstrip (rstrip text '0') '.' else text))

/-- Bring a query date to the timezone-free form of the event columns. -/
def normalizeEventDate (zone : Zone) (value : Option DateTime) : Option Int :=
  value.map fun value => (eventTime zone value).wall

/-- What validation makes of one query parameter. -/
inductive Validated (α : Type) where
  | accepted (value : α)
  /-- Answered with a 400 that names the parameter. -/
  | validationError
  /-- An exception that validation does not collect reaches the server. -/
  | raised (error : DateError)

/-- A field validator's `ValueError` is collected as a validation error; no other exception is. -/
def Validated.ofValidator {α : Type} : Except DateError α → Validated α
  | .ok value => .accepted value
  | .error .valueError => .validationError
  | .error .overflowError => .raised .overflowError

/-- `normalizeEventDate` as the validator of a field, within the range of datetimes. -/
def validateEventDate (zone : Zone) : Option DateTime → Validated (Option Int)
  | none => .accepted none
  | some value =>
      .ofValidator ((boundedEventTime zone value).map fun converted => some converted.wall)

theorem validateEventDate_of_representable {zone : Zone} {w offset : Int}
    (hutc : Representable (w - offset)) (hlocal : Representable (zone.toLocal (w - offset))) :
    validateEventDate zone (some ⟨w, some offset⟩)
      = .accepted (some (zone.toLocal (w - offset))) := by
  rw [validateEventDate, boundedEventTime_of_offset, astimezone_of_representable hutc hlocal]
  rfl

theorem validateEventDate_of_not_representable {zone : Zone} {w offset : Int}
    (h : ¬ (Representable (w - offset) ∧ Representable (zone.toLocal (w - offset)))) :
    validateEventDate zone (some ⟨w, some offset⟩) = .raised .overflowError := by
  rw [validateEventDate, boundedEventTime_of_offset, astimezone_of_not_representable h]
  rfl

/-- What validation accepts is what the unbounded conversion gives. -/
theorem normalizeEventDate_of_accepted {zone : Zone} {value : Option DateTime} {date : Option Int}
    (h : validateEventDate zone value = .accepted date) : normalizeEventDate zone value = date := by
  cases value with
  | none => exact Validated.accepted.inj h
  | some value =>
      rw [validateEventDate] at h
      cases hconverted : boundedEventTime zone value with
      | ok converted =>
          rw [hconverted] at h
          rw [normalizeEventDate, Option.map_some, eventTime_of_bounded hconverted]
          exact Validated.accepted.inj h
      | error error =>
          rw [hconverted] at h
          cases error <;> cases h

/-- Accepted query parameters. Dates are normalised to Lithuanian wall-clock time. -/
structure EventFilters (Num : Type) [LinearOrder Num] [Zero Num] where
  category : Option String := none
  location : Option (List String) := none
  startDate : Option Int := none
  endDate : Option Int := none
  priceFrom : Option Num := none
  priceTo : Option Num := none
  free : Option Bool := none
  search : Option String := none
  hideExpired : Option Bool := none
  status : Option EventStatus := none
  page : Nat := 1
  pageSize : Nat := 10
  orderBy : OrderBy := .startTime
  orderDirection : Option Direction := none
  page_ge : 1 ≤ page := by decide
  pageSize_ge : 1 ≤ pageSize := by decide
  pageSize_le : pageSize ≤ maxPageSize := by decide
  priceFrom_ge : ∀ bound ∈ priceFrom, 0 ≤ bound := by simp
  priceTo_ge : ∀ bound ∈ priceTo, 0 ≤ bound := by simp
  status_hideExpired : ¬ (status = some .past ∧ hideExpired = some true) := by simp
  priceFrom_le_priceTo : ∀ low ∈ priceFrom, ∀ high ∈ priceTo, low ≤ high := by simp

variable {Num : Type} [LinearOrder Num] [Zero Num]

namespace EventFilters

def sortDirection (filters : EventFilters Num) : Direction :=
  filters.orderDirection.getD (if filters.status = some .upcoming then .asc else .desc)

def offset (filters : EventFilters Num) : Nat := (filters.page - 1) * filters.pageSize

/-- The same query asking for another page. -/
def withPage (filters : EventFilters Num) (page pageSize : Nat) (hpage : 1 ≤ page)
    (hsize : 1 ≤ pageSize ∧ pageSize ≤ maxPageSize) : EventFilters Num :=
  { filters with
    page := page
    pageSize := pageSize
    page_ge := hpage
    pageSize_ge := hsize.1
    pageSize_le := hsize.2 }

end EventFilters

/-! Queries with one filter, or one order. -/

def onlyFree : EventFilters Num := { free := some true }

def onlyPast : EventFilters Num := { status := some .past }

def onlyUpcoming : EventFilters Num := { status := some .upcoming }

def onlyHideExpired : EventFilters Num := { hideExpired := some true }

def onlyStartDate (startDate : Option Int) : EventFilters Num := { startDate := startDate }

def onlyDates (startDate endDate : Option Int) : EventFilters Num :=
  { startDate := startDate, endDate := endDate }

def onlyLocation (names : List String) : EventFilters Num := { location := some names }

def onlySearch (search : String) : EventFilters Num := { search := some search }

def onlyOrder (orderBy : OrderBy) (orderDirection : Option Direction) : EventFilters Num :=
  { orderBy := orderBy, orderDirection := orderDirection }

/-- An event as returned by the API. -/
structure EventResponse (Num : Type) where
  id : Int
  title : String
  popularityCounter : Int
  startTime : Option Int
  endTime : Option Int
  venueName : Option String
  address : Option String
  city : Option String
  lat : Option Num
  lng : Option Num
  description : Option String
  imageUrl : Option String
  priceFrom : Option String
  priceTo : Option String
  organizerName : Option String
  category : Option String
  ticketUrl : Option String
  sourceUrl : Option String
  ticketPurchaseNote : Option String
  free : Bool

/-- Project an event row onto the response shape. `priceText` renders a known price. -/
def EventResponse.fromEvent (cf : Like.CaseFold) (priceText : Num → String) (data : Event Num) :
    EventResponse Num where
  id := data.id
  title := data.title
  popularityCounter := data.popularityCounter
  startTime := data.startTime
  endTime := data.endTime
  venueName := data.venueName
  address := data.displayAddress
  city := data.city
  lat := data.lat
  lng := data.lng
  description := data.description
  imageUrl := data.preferredImageUrl
  priceFrom := data.priceFrom.map priceText
  priceTo := data.priceTo.map priceText
  organizerName := data.organizerName
  category := data.category
  ticketUrl := data.ticketUrl
  sourceUrl := data.sourceUrl
  ticketPurchaseNote := data.ticketPurchaseNote
  free := data.isFree cf

structure PaginatedEventResponse (Num : Type) where
  data : List (EventResponse Num)
  page : Nat
  pageSize : Nat
  total : Nat

end EventsApi
