import EventsApi.Proof.FreeRule
import EventsApi.Proof.Pages
import EventsApi.Proof.PastRule

/-!
# The groups of an ordered listing

The sort keys of both special orderings begin with flags, and a flag puts one group of the rows before
the other. Once the groups are apart the remaining keys are plain: the start or the price, then the
id.
-/

namespace EventsApi

open ThreeValued Listing ClockZone

variable {Num : Type} {context : QueryContext}

/-- The start is known. -/
def dated (event : Event Num) : Bool := event.startTime.isSome

/-- The recorded end lies more than the threshold after the known start. -/
def longTerm (context : QueryContext) (event : Event Num) : Bool :=
  match event.startTime, event.endTime with
  | some start, some endTime => decide (start + context.longEventThresholdDays * day < endTime)
  | _, _ => false

/-- By start in the direction given, then by id. -/
def byStart (direction : Direction) : Event Num → Event Num → Ordering :=
  compareBy direction (fun event => event.startTime.getD 0) (·.id)

def byId : Event Num → Event Num → Ordering := compareOn (·.id)

instance (direction : Direction) :
    Std.TransCmp (byStart direction : Event Num → Event Num → Ordering) :=
  inferInstanceAs (Std.TransCmp (compareBy _ _ _))

instance : Std.TransCmp (byId : Event Num → Event Num → Ordering) :=
  inferInstanceAs (Std.TransCmp (compareOn _))

theorem holds_isLong (event : Event Num) : holds (isLong context event) = longTerm context event := by
  unfold isLong longTerm
  cases event.startTime <;> cases event.endTime <;> simp [comparison]

theorem longTerm_of_undated {event : Event Num} (h : event.startTime = none) :
    longTerm context event = false := by
  rw [longTerm, h]

theorem nodup_filter {rows : List (Event Num)} (hids : (rows.map (·.id)).Nodup)
    (keep : Event Num → Bool) : ((rows.filter keep).map (·.id)).Nodup :=
  hids.sublist (List.filter_sublist.map _)

variable {a b : Event Num}

theorem byStart_of_known (direction : Direction) {x y : Int} (ha : a.startTime = some x)
    (hb : b.startTime = some y) :
    (compareNullable direction .last a.startTime b.startTime).then (compare a.id b.id)
      = byStart direction a b := by
  simp [byStart, compareBy, ha, hb, compareNullable]

theorem byId_of_unknown (direction : Direction) (ha : a.startTime = none)
    (hb : b.startTime = none) :
    (compareNullable direction .last a.startTime b.startTime).then (compare a.id b.id)
      = byId a b := by
  rw [ha, hb]
  rfl

variable [LinearOrder Num] [Zero Num] {filters : EventFilters Num}

/-- By price in the direction given, then by id. -/
def byPrice (direction : Direction) : Event Num → Event Num → Ordering :=
  compareBy direction (fun event => event.priceFrom.getD 0) (·.id)

instance (direction : Direction) :
    Std.TransCmp (byPrice direction : Event Num → Event Num → Ordering) :=
  inferInstanceAs (Std.TransCmp (compareBy _ _ _))

/-! ### By start -/

theorem compareKeys_startTime_asc (context : QueryContext) (horder : filters.orderBy = .startTime)
    (hdirection : filters.sortDirection = .asc) (a b : Event Num) :
    compareKeys (applyOrdering context filters) a b
      = (compare a.startTime.isNone b.startTime.isNone).then
        ((compare (if longTerm context a then 1 else 0) (if longTerm context b then 1 else 0)).then
          ((compareNullable .asc .last a.startTime b.startTime).then (compare a.id b.id))) := by
  have hkeys : applyOrdering context filters
      = [.column .asc .last fun event => some event.startTime.isNone,
        flagKey .asc (isLong context), .column .asc .last (·.startTime),
        .column .asc .last fun event => some event.id] := by
    simp [applyOrdering, horder, hdirection, sortable, Direction.nulls]
  rw [hkeys]
  simp [compareKeys, flagKey, SortKey.column, compareNullable, compareDirected, caseWhen,
    holds_isLong]

theorem compareKeys_startTime_desc (context : QueryContext) (horder : filters.orderBy = .startTime)
    (hdirection : filters.sortDirection = .desc) (hstatus : filters.status.isSome = true)
    (a b : Event Num) :
    compareKeys (applyOrdering context filters) a b
      = (compareNullable .desc .last a.startTime b.startTime).then (compare a.id b.id) := by
  have hkeys : applyOrdering context filters
      = [.column .desc .last (·.startTime), .column .asc .last fun event => some event.id] := by
    simp [applyOrdering, horder, hdirection, hstatus, sortable, Direction.nulls]
  rw [hkeys]
  simp [compareKeys, SortKey.column, compareNullable, compareDirected]

/-- The rows that a query admits, as the database may order them. -/
def ordered (context : QueryContext) (executor : Executor (Event Num)) (filters : EventFilters Num)
    (rows : List (Event Num)) : List (Event Num) :=
  executor.sort (compareKeys (applyOrdering context filters)) rows

/-- Rows with ids of their own are told apart by every ordering. -/
theorem compareKeys_apart {rows : List (Event Num)} (hids : (rows.map (·.id)).Nodup) :
    ∀ a ∈ rows, ∀ b ∈ rows, compareKeys (applyOrdering context filters) a b = .eq → a = b :=
  fun _ ha _ hb heq => List.inj_on_of_nodup_map hids ha hb (id_eq_of_compareKeys_eq heq)

/-- The flagged rows after the others. -/
theorem ordered_eq_append (executor : Executor (Event Num)) {rows : List (Event Num)}
    (hids : (rows.map (·.id)).Nodup) (first : Event Num → Bool)
    (hfirst : ∀ a ∈ rows, ∀ b ∈ rows, first a = true → first b = false →
      (compareKeys (applyOrdering context filters) a b).isLE) :
    ordered context executor filters rows
      = ordered context executor filters (rows.filter first)
        ++ ordered context executor filters (rows.filter fun row => !first row) :=
  executor.sort_eq_append inferInstance (compareKeys_apart hids) first hfirst

theorem ordered_congr (executor : Executor (Event Num)) {rows : List (Event Num)}
    (hids : (rows.map (·.id)).Nodup) {cmp : Event Num → Event Num → Ordering}
    (hcmp : Std.TransCmp cmp)
    (h : ∀ a ∈ rows, ∀ b ∈ rows, compareKeys (applyOrdering context filters) a b = cmp a b) :
    ordered context executor filters rows = executor.sort cmp rows :=
  executor.sort_congr inferInstance hcmp (compareKeys_apart hids) h

/-- Undated rows that the keys tell apart by their ids are listed by id. -/
theorem ordered_undated (executor : Executor (Event Num)) {rows : List (Event Num)}
    (hids : (rows.map (·.id)).Nodup)
    (hid : ∀ a b : Event Num, a.startTime = none → b.startTime = none →
      compareKeys (applyOrdering context filters) a b = byId a b) :
    ordered context executor filters (rows.filter fun row => !dated row)
      = executor.sort byId (rows.filter fun row => !dated row) := by
  apply ordered_congr executor (nodup_filter hids _) inferInstance
  intro a ha b hb
  exact hid a b (by simpa [dated] using (List.mem_filter.mp ha).2)
    (by simpa [dated] using (List.mem_filter.mp hb).2)

/-- The first key puts the dated rows before the others, the second puts the long ones last among
them, and on each group they are constant. -/
theorem ordered_startTime_asc (executor : Executor (Event Num))
    (horder : filters.orderBy = .startTime) (hdirection : filters.sortDirection = .asc)
    {rows : List (Event Num)} (hids : (rows.map (·.id)).Nodup) :
    ordered context executor filters rows
      = executor.sort (byStart .asc) ((rows.filter dated).filter fun row => !longTerm context row)
        ++ executor.sort (byStart .asc) ((rows.filter dated).filter (longTerm context))
        ++ executor.sort byId (rows.filter fun row => !dated row) := by
  have hcompare (a b : Event Num) := compareKeys_startTime_asc context horder hdirection a b
  have hgroup {rows : List (Event Num)} (hids : (rows.map (·.id)).Nodup) (long : Bool)
      (hrows : ∀ row ∈ rows, dated row = true ∧ longTerm context row = long) :
      ordered context executor filters rows = executor.sort (byStart .asc) rows := by
    apply ordered_congr executor hids inferInstance
    intro a ha b hb
    obtain ⟨x, hx⟩ := Option.isSome_iff_exists.mp (hrows a ha).1
    obtain ⟨y, hy⟩ := Option.isSome_iff_exists.mp (hrows b hb).1
    rw [hcompare, (hrows a ha).2, (hrows b hb).2, byStart_of_known .asc hx hy, hx, hy]
    cases long <;> rfl
  have hdates := nodup_filter hids dated
  have hregular := hgroup (nodup_filter hdates fun row => !longTerm context row) false
    (by simp +contextual)
  have hlong := hgroup (nodup_filter hdates (longTerm context)) true (by simp +contextual)
  have hunknown := ordered_undated executor hids fun a b ha hb => by
    rw [hcompare, byId_of_unknown .asc ha hb, longTerm_of_undated ha, longTerm_of_undated hb, ha,
      hb]
    rfl
  have hafter : ∀ a ∈ rows.filter dated, ∀ b ∈ rows.filter dated,
      (!longTerm context a) = true → (!longTerm context b) = false →
      (compareKeys (applyOrdering context filters) a b).isLE := by
    intro a ha b hb hregular hlong
    obtain ⟨x, hx⟩ := Option.isSome_iff_exists.mp (List.mem_filter.mp ha).2
    obtain ⟨y, hy⟩ := Option.isSome_iff_exists.mp (List.mem_filter.mp hb).2
    rw [Bool.not_eq_true'] at hregular
    rw [Bool.not_eq_false'] at hlong
    rw [hcompare, hregular, hlong, hx, hy]
    rfl
  have hlast : ∀ a ∈ rows, ∀ b ∈ rows, dated a = true → dated b = false →
      (compareKeys (applyOrdering context filters) a b).isLE := by
    intro a _ b _ hknown hunknown
    have ha : a.startTime.isNone = false := by simpa [dated] using hknown
    have hb : b.startTime = none := by simpa [dated] using hunknown
    rw [hcompare, ha, hb]
    rfl
  rw [ordered_eq_append executor hids dated hlast,
    ordered_eq_append executor hdates _ hafter, hregular, hunknown]
  simp only [Bool.not_not, hlong]

/-- Without the two flags the last key but one puts the unknown starts at the end. -/
theorem ordered_startTime_desc (executor : Executor (Event Num))
    (horder : filters.orderBy = .startTime) (hdirection : filters.sortDirection = .desc)
    (hstatus : filters.status.isSome = true) {rows : List (Event Num)}
    (hids : (rows.map (·.id)).Nodup) :
    ordered context executor filters rows
      = executor.sort (byStart .desc) (rows.filter dated)
        ++ executor.sort byId (rows.filter fun row => !dated row) := by
  have hcompare (a b : Event Num) :=
    compareKeys_startTime_desc context horder hdirection hstatus a b
  have hknown : ordered context executor filters (rows.filter dated)
      = executor.sort (byStart .desc) (rows.filter dated) := by
    apply ordered_congr executor (nodup_filter hids _) inferInstance
    intro a ha b hb
    obtain ⟨x, hx⟩ := Option.isSome_iff_exists.mp (List.mem_filter.mp ha).2
    obtain ⟨y, hy⟩ := Option.isSome_iff_exists.mp (List.mem_filter.mp hb).2
    rw [hcompare, byStart_of_known .desc hx hy]
  have hunknown := ordered_undated executor hids fun a b ha hb => by
    rw [hcompare, byId_of_unknown .desc ha hb]
  have hlast : ∀ a ∈ rows, ∀ b ∈ rows, dated a = true → dated b = false →
      (compareKeys (applyOrdering context filters) a b).isLE := by
    intro a _ b _ hknown hunknown
    obtain ⟨x, hx⟩ := Option.isSome_iff_exists.mp hknown
    have hb : b.startTime = none := by simpa [dated] using hunknown
    rw [hcompare, hx, hb]
    rfl
  rw [ordered_eq_append executor hids dated hlast, hknown, hunknown]

/-- **Ordering by start.** Ascending, the dated events that are not long come first, then the long
ones, each by start and id, then the events with an unknown start by id. Descending with a status,
the dated events come by start downwards, then the unknown ones. -/
theorem ordered_startTime (context : QueryContext) (executor : Executor (Event Num))
    (table : EventTable Num) (filters : EventFilters Num) (horder : filters.orderBy = .startTime)
    (restrictToIds : Option (List Int)) (now : Int) :
    let rows := table.rows.filter (admits context filters restrictToIds now)
    let dates := rows.filter dated
    let unknown := rows.filter fun row => !dated row
    (filters.sortDirection = .asc →
      ordered context executor filters rows
        = executor.sort (byStart .asc) (dates.filter fun row => !longTerm context row)
          ++ executor.sort (byStart .asc) (dates.filter (longTerm context))
          ++ executor.sort byId unknown)
    ∧ (filters.sortDirection = .desc → filters.status.isSome = true →
      ordered context executor filters rows
        = executor.sort (byStart .desc) dates ++ executor.sort byId unknown) := by
  have hids := nodup_filter table.ids_nodup (admits context filters restrictToIds now)
  exact ⟨fun hdirection => ordered_startTime_asc executor horder hdirection hids,
    fun hdirection hstatus => ordered_startTime_desc executor horder hdirection hstatus hids⟩

/-- An exhibition of ten days, a concert, and an event with nothing but a title. -/
def mixedTable : EventTable Int where
  rows := [
    { Event.bare Int 1 "Paroda" with startTime := some 0, endTime := some (10 * day) },
    Event.bare Int 2 "Netikėta",
    { Event.bare Int 3 "Koncertas" with startTime := some day }]
  ids_nodup := by decide

theorem ordered_startTime_mixed :
    let rows := mixedTable.rows.filter (admits vilniusContext onlyUpcoming none 0)
    let dates := rows.filter dated
    let unknown := rows.filter fun row => !dated row
    ((onlyUpcoming : EventFilters Int).sortDirection = .asc →
      ordered vilniusContext (.mergeSort _) onlyUpcoming rows
        = (Executor.mergeSort _).sort (byStart .asc)
            (dates.filter fun row => !longTerm vilniusContext row)
          ++ (Executor.mergeSort _).sort (byStart .asc) (dates.filter (longTerm vilniusContext))
          ++ (Executor.mergeSort _).sort byId unknown)
    ∧ ((onlyUpcoming : EventFilters Int).sortDirection = .desc →
      (onlyUpcoming : EventFilters Int).status.isSome = true →
      ordered vilniusContext (.mergeSort _) onlyUpcoming rows
        = (Executor.mergeSort _).sort (byStart .desc) dates
          ++ (Executor.mergeSort _).sort byId unknown) :=
  ordered_startTime vilniusContext (.mergeSort _) mixedTable onlyUpcoming rfl none 0

/-! ### By price -/

/-- The SQL predicate keeps the row. -/
def free (context : QueryContext) (event : Event Num) : Bool :=
  holds (event.isFreeExpression context.caseFold)

/-- The SQL predicate is never unknown: each of its comparisons stands behind a null test. -/
theorem isSome_isFreeExpression (cf : Like.CaseFold) (event : Event Num) :
    (event.isFreeExpression cf).isSome := by
  have hprice (price : Option Num) :
      (disj (isNull price) (comparison (· == ·) price (some 0))).isSome := by
    refine isSome_disj_of_left rfl fun hknown => ?_
    cases price with
    | none => cases hknown
    | some price => rfl
  have hdescription : (disj (isNull event.description)
      (neg (Like.ilike cf event.description (Like.containing priceMention)))).isSome := by
    refine isSome_disj_of_left rfl fun hknown => ?_
    cases hcase : event.description with
    | none => rw [hcase] at hknown; cases hknown
    | some description => rfl
  apply isSome_conjAll
  simp only [List.forall_mem_cons]
  exact ⟨hprice _, hprice _, rfl, rfl, hdescription, List.forall_mem_nil _⟩

theorem holds_unknownPrice (context : QueryContext) (event : Event Num) :
    holds (conj (isNull event.priceFrom) (neg (event.isFreeExpression context.caseFold)))
      = (event.priceFrom.isNone && !free context event) := by
  rw [holds_conj, holds_isNull, holds_neg_of_isSome (isSome_isFreeExpression _ _), free]

/-- A free event has no price or a price of zero. -/
theorem price_of_free {event : Event Num} (h : free context event = true) :
    event.priceFrom.getD 0 = 0 := by
  rw [free, holds_isFreeExpression] at h
  simp only [Bool.and_eq_true] at h
  cases hprice : event.priceFrom with
  | none => rfl
  | some price => simpa [priceFalsy, hprice] using h.1.1.1.1

/-- Free events come first when the direction is ascending and no price bound is given. -/
def freeFirst (filters : EventFilters Num) : Bool :=
  filters.sortDirection == .asc && filters.priceFrom.isNone && filters.priceTo.isNone

theorem compareKeys_price (context : QueryContext) (horder : filters.orderBy = .price)
    (a b : Event Num) :
    compareKeys (applyOrdering context filters) a b
      = (compareDirected (if freeFirst filters then .desc else .asc)
          (if free context a then 1 else 0) (if free context b then 1 else 0)).then
        ((compare (if a.priceFrom.isNone && !free context a then 1 else 0)
            (if b.priceFrom.isNone && !free context b then 1 else 0)).then
          (byPrice filters.sortDirection a b)) := by
  have hdirection : (if filters.priceFrom.isSome || filters.priceTo.isSome
        || filters.sortDirection == .desc then Direction.asc else .desc)
      = if freeFirst filters then .desc else .asc := by
    unfold freeFirst
    cases filters.priceFrom <;> cases filters.priceTo <;> cases filters.sortDirection <;> rfl
  have hkeys : applyOrdering context filters
      = [flagKey (if freeFirst filters then .desc else .asc) fun event =>
          event.isFreeExpression context.caseFold,
        flagKey .asc fun event =>
          conj (isNull event.priceFrom) (neg (event.isFreeExpression context.caseFold)),
        sortable .price filters.sortDirection filters.sortDirection.nulls,
        .column .asc Direction.asc.nulls fun event => some event.id] := by
    rw [← hdirection, applyOrdering, if_neg (by simp [horder])]
  rw [hkeys]
  simp only [compareKeys, flagKey, SortKey.column, compareNullable, caseWhen, holds_unknownPrice,
    sortable, byPrice, compareBy, free, Ordering.then_eq]
  rfl

theorem byPrice_eq_byId {direction : Direction} {a b : Event Num}
    (h : a.priceFrom.getD 0 = b.priceFrom.getD 0) : byPrice direction a b = byId a b := by
  have hsame : compareDirected direction (a.priceFrom.getD 0) (b.priceFrom.getD 0) = .eq := by
    rw [h]
    cases direction <;> exact compare_eq_iff_eq.mpr rfl
  rw [byPrice, compareBy, hsame]
  rfl

/-- Among rows that are not free the known prices come first. -/
theorem compareKeys_price_of_paid (context : QueryContext) (horder : filters.orderBy = .price)
    {a b : Event Num} (ha : free context a = false) (hb : free context b = false) :
    compareKeys (applyOrdering context filters) a b
      = (compare (if a.priceFrom.isNone then 1 else 0) (if b.priceFrom.isNone then 1 else 0)).then
        (byPrice filters.sortDirection a b) := by
  rw [compareKeys_price context horder, ha, hb, Bool.not_false, Bool.and_true, Bool.and_true]
  cases freeFirst filters <;> rfl

/-- **Ordering by price.** Free events come first when the direction is ascending and no price bound
is given, and last otherwise. The others come with the known prices first, by price and id, and then
the unknown ones; free events and unknown prices are listed by id. -/
theorem ordered_price (context : QueryContext) (executor : Executor (Event Num))
    (table : EventTable Num) (filters : EventFilters Num) (horder : filters.orderBy = .price)
    (restrictToIds : Option (List Int)) (now : Int) :
    let rows := table.rows.filter (admits context filters restrictToIds now)
    let costless := rows.filter (free context)
    let others := rows.filter fun row => !free context row
    let priced := others.filter fun row => !row.priceFrom.isNone
    let unknown := others.filter (·.priceFrom.isNone)
    ordered context executor filters rows
      = if filters.sortDirection = .asc ∧ filters.priceFrom = none ∧ filters.priceTo = none then
          executor.sort byId costless
            ++ (executor.sort (byPrice filters.sortDirection) priced ++ executor.sort byId unknown)
        else
          executor.sort (byPrice filters.sortDirection) priced ++ executor.sort byId unknown
            ++ executor.sort byId costless := by
  intro rows costless others priced unknown
  have hids : (rows.map (·.id)).Nodup := nodup_filter table.ids_nodup _
  have hcompare (a b : Event Num) := compareKeys_price context horder a b
  have hcostless : ordered context executor filters costless = executor.sort byId costless := by
    apply ordered_congr executor (nodup_filter hids _) inferInstance
    intro a ha b hb
    have ha := (List.mem_filter.mp ha).2
    have hb := (List.mem_filter.mp hb).2
    have hprice : a.priceFrom.getD 0 = b.priceFrom.getD 0 := by
      rw [price_of_free ha, price_of_free hb]
    rw [hcompare, byPrice_eq_byId hprice, ha, hb, Bool.not_true, Bool.and_false, Bool.and_false]
    cases freeFirst filters <;> rfl
  have hpaid {row : Event Num} (hrow : row ∈ others) : free context row = false := by
    simpa using (List.mem_filter.mp hrow).2
  have hothers := nodup_filter hids fun row => !free context row
  have hpriced : ordered context executor filters priced
      = executor.sort (byPrice filters.sortDirection) priced := by
    apply ordered_congr executor (nodup_filter hothers _) inferInstance
    intro a ha b hb
    obtain ⟨ha, hknown⟩ := List.mem_filter.mp ha
    obtain ⟨hb, hknown'⟩ := List.mem_filter.mp hb
    rw [Bool.not_eq_true'] at hknown hknown'
    rw [compareKeys_price_of_paid context horder (hpaid ha) (hpaid hb), hknown, hknown']
    rfl
  have hunknown : ordered context executor filters unknown = executor.sort byId unknown := by
    apply ordered_congr executor (nodup_filter hothers _) inferInstance
    intro a ha b hb
    obtain ⟨ha, hmissing⟩ := List.mem_filter.mp ha
    obtain ⟨hb, hmissing'⟩ := List.mem_filter.mp hb
    have hprice : a.priceFrom.getD 0 = b.priceFrom.getD 0 := by
      rw [Option.isNone_iff_eq_none.mp hmissing, Option.isNone_iff_eq_none.mp hmissing']
    rw [compareKeys_price_of_paid context horder (hpaid ha) (hpaid hb), hmissing, hmissing',
      byPrice_eq_byId hprice]
    rfl
  have hbefore : ∀ a ∈ others, ∀ b ∈ others, (!a.priceFrom.isNone) = true →
      (!b.priceFrom.isNone) = false → (compareKeys (applyOrdering context filters) a b).isLE := by
    intro a ha b hb hknown hmissing
    rw [Bool.not_eq_true'] at hknown
    rw [Bool.not_eq_false'] at hmissing
    rw [compareKeys_price_of_paid context horder (hpaid ha) (hpaid hb), hknown, hmissing]
    rfl
  have hsplit : ordered context executor filters others
      = executor.sort (byPrice filters.sortDirection) priced ++ executor.sort byId unknown := by
    rw [ordered_eq_append executor hothers _ hbefore, hpriced, ← hunknown]
    simp only [Bool.not_not, unknown, others]
  have hcondition : (filters.sortDirection = .asc ∧ filters.priceFrom = none
      ∧ filters.priceTo = none) ↔ freeFirst filters = true := by
    simp [freeFirst, and_assoc]
  by_cases hfirst : freeFirst filters = true
  · rw [if_pos (hcondition.mpr hfirst), ordered_eq_append executor hids (free context) ?_, hcostless,
      hsplit]
    intro a _ b _ ha hb
    rw [hcompare, ha, hb, hfirst]
    rfl
  · rw [if_neg (mt hcondition.mp hfirst),
      ordered_eq_append executor hids (fun row => !free context row) ?_]
    · simp only [Bool.not_not]
      rw [hsplit, ← hcostless]
    intro a _ b _ ha hb
    rw [Bool.not_eq_true'] at ha
    rw [Bool.not_eq_false'] at hb
    rw [hcompare, ha, hb, if_neg hfirst]
    rfl

/-- A concert at ten, an event with a ticket link and no price, and a free one. -/
def pricedTable : EventTable Int where
  rows := [
    { Event.bare Int 1 "Koncertas" with priceFrom := some 10 },
    { Event.bare Int 2 "Spektaklis" with ticketUrl := some "https://bilietai.lt" },
    Event.bare Int 3 "Mugė"]
  ids_nodup := by decide

def byPriceUpwards : EventFilters Int := onlyOrder .price (some .asc)

theorem ordered_price_upwards :
    let rows := pricedTable.rows.filter (admits vilniusContext byPriceUpwards none 0)
    let costless := rows.filter (free vilniusContext)
    let others := rows.filter fun row => !free vilniusContext row
    let priced := others.filter fun row => !row.priceFrom.isNone
    let unknown := others.filter (·.priceFrom.isNone)
    ordered vilniusContext (.mergeSort _) byPriceUpwards rows
      = if byPriceUpwards.sortDirection = .asc ∧ byPriceUpwards.priceFrom = none
          ∧ byPriceUpwards.priceTo = none then
          (Executor.mergeSort _).sort byId costless
            ++ ((Executor.mergeSort _).sort (byPrice byPriceUpwards.sortDirection) priced
              ++ (Executor.mergeSort _).sort byId unknown)
        else
          (Executor.mergeSort _).sort (byPrice byPriceUpwards.sortDirection) priced
            ++ (Executor.mergeSort _).sort byId unknown
            ++ (Executor.mergeSort _).sort byId costless :=
  ordered_price vilniusContext (.mergeSort _) pricedTable byPriceUpwards rfl none 0

end EventsApi
