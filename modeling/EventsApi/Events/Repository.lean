import EventsApi.Events.Schemas
import EventsApi.Library.ClockZone

/-!
# Event queries

`app/events/repository.py`: the WHERE clauses, the sort keys, and the count-then-list query. A
clause is a truth value for each row, so what a query admits can be computed row by row.
-/

namespace EventsApi

open ThreeValued Listing ClockZone

/-- What the queries take from outside: the Europe/Vilnius zone, the collation's case folding, the
`unaccent` extension, and the configured threshold, which settings require to be positive. -/
structure QueryContext where
  zone : Zone
  caseFold : Like.CaseFold
  unaccent : String → String
  longEventThresholdDays : Nat
  threshold_ge : 1 ≤ longEventThresholdDays

/-- The event table. Its primary key tells the rows apart. -/
structure EventTable (Num : Type) where
  rows : List (Event Num)
  ids_nodup : (rows.map (·.id)).Nodup

variable {Num : Type} [LinearOrder Num] [Zero Num]

/-- Sortable fields, keyed by the value the API accepts. -/
def sortable (orderBy : OrderBy) (direction : Direction) (nulls : Nulls) : SortKey (Event Num) :=
  match orderBy with
  | .startTime => .column direction nulls (·.startTime)
  | .popularityCounter => .column direction nulls fun event => some event.popularityCounter
  | .price => .column direction nulls fun event => some (event.priceFrom.getD 0)

/-- Use the recorded end instant, falling back to the end of the local start day. -/
def isPast (context : QueryContext) (now : Int) (event : Event Num) : Truth :=
  let today := midnight (context.zone.toLocal now)
  caseWhen (isNotNull event.endTime)
    (comparison (· ≤ ·) (event.endTime.map context.zone.instantOf) (some now))
    (conj (isNotNull event.startTime) (comparison (· < ·) event.startTime (some today)))

/-- The recorded end, or the midnight after the start day. -/
def effectiveEnd (event : Event Num) : Option Int :=
  event.endTime.or (event.startTime.map fun start => midnight start + day)

/-- Translate the query parameters into SQL predicates. A parameter Python calls false adds none. -/
def buildFilters (context : QueryContext) (filters : EventFilters Num)
    (restrictToIds : Option (List Int)) (now : Int) (event : Event Num) : List Truth :=
  (match restrictToIds with
    | some ids => [some (ids.contains event.id)]
    | none => [])
  ++ (if textFalsy filters.category then []
    else [comparison (· == ·) event.category filters.category])
  ++ (match filters.location with
    | none | some [] => []
    | some names => [disjAll (names.map fun name =>
        disj (Like.ilike context.caseFold event.city (Like.containing name))
          (Like.ilike context.caseFold event.address (Like.containing name)))])
  ++ (match filters.startDate with
    | none => []
    | some startDate => [disjAll [
        comparison (· ≥ ·) event.startTime (some startDate),
        comparison (· > ·) (effectiveEnd event) (some startDate),
        isNull event.startTime]])
  ++ (match filters.endDate with
    | none => []
    | some endDate =>
        let endOfDay := midnight endDate + day - 1
        [disj (comparison (· ≤ ·) event.startTime (some endOfDay)) (isNull event.startTime)])
  ++ (if textFalsy filters.search then []
    else [Like.ilike context.caseFold (some (context.unaccent event.title))
      (context.unaccent (Like.containing (filters.search.getD "")))])
  ++ (if filters.status.isSome || filters.hideExpired == some true then
      let past := isPast context now event
      [if filters.status = some .past then past else neg past]
    else [])
  ++ (match filters.priceFrom with
    | none => []
    | some bound => [some (event.priceFrom.getD 0 ≥ bound)])
  ++ (match filters.priceTo with
    | none => []
    | some bound => [some (event.priceFrom.getD 0 ≤ bound)])
  ++ (if filters.free == some true then [event.isFreeExpression context.caseFold] else [])

/-- The WHERE clause keeps the row. -/
def admits (context : QueryContext) (filters : EventFilters Num)
    (restrictToIds : Option (List Int)) (now : Int) (event : Event Num) : Bool :=
  holds (conjAll (buildFilters context filters restrictToIds now event))

/-- A `CASE` of one condition, as a number to sort by. -/
def flagKey (direction : Direction) (condition : Event Num → Truth) : SortKey (Event Num) :=
  .column direction direction.nulls fun event => some (caseWhen (condition event) 1 0 : Nat)

/-- The total duration exceeds the threshold. Unknown durations do not. -/
def isLong (context : QueryContext) (event : Event Num) : Truth :=
  comparison (· > ·) event.endTime
    (event.startTime.map (· + context.longEventThresholdDays * day))

/-- Order results with duration groups for dates and price groups for prices. -/
def applyOrdering (context : QueryContext) (filters : EventFilters Num) :
    List (SortKey (Event Num)) :=
  if filters.orderBy ≠ .price then
    let direction := filters.sortDirection
    (if filters.orderBy = .startTime ∧ direction = .asc then
      [.column .asc Direction.asc.nulls fun event => some event.startTime.isNone,
        flagKey .asc (isLong context)]
    else [])
    ++ [sortable filters.orderBy direction
          (if filters.status.isSome then .last else direction.nulls),
        .column .asc Direction.asc.nulls fun event => some event.id]
  else
    let hasPriceBound := filters.priceFrom.isSome || filters.priceTo.isSome
    let sinkFree := hasPriceBound || filters.sortDirection == .desc
    let freeLast := if sinkFree then Direction.asc else Direction.desc
    [flagKey freeLast fun event => event.isFreeExpression context.caseFold,
      flagKey .asc fun event =>
        conj (isNull event.priceFrom) (neg (event.isFreeExpression context.caseFold)),
      sortable .price filters.sortDirection filters.sortDirection.nulls,
      .column .asc Direction.asc.nulls fun event => some event.id]

/-- The total number of matches and the requested page of them. -/
def countAndList (context : QueryContext) (executor : Executor (Event Num))
    (table : EventTable Num) (filters : EventFilters Num) (restrictToIds : Option (List Int))
    (now : Int) : Nat × List (Event Num) :=
  if restrictToIds = some [] then (0, [])
  else
    let rows := table.rows.filter (admits context filters restrictToIds now)
    (rows.length, window filters.offset filters.pageSize
      (executor.sort (compareKeys (applyOrdering context filters)) rows))

end EventsApi
