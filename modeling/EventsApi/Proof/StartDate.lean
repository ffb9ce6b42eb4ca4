import EventsApi.Proof.PastRule

/-!
# Upcoming and starting from now

The status filter compares the recorded end as an instant, or the start day with today's; the
`startDate` filter compares wall clocks, with the midnight after the start day for a missing end.
For a query date that carries its offset the two agree, apart from the readings the clock shows
twice or not at all.
-/

namespace EventsApi

open ThreeValued ClockZone

variable {Num : Type}

theorem effectiveEnd_of_endTime {event : Event Num} {endTime : Int}
    (h : event.endTime = some endTime) : effectiveEnd event = some endTime := by
  rw [effectiveEnd, h, Option.or]

theorem effectiveEnd_of_startTime {event : Event Num} {start : Int} (hend : event.endTime = none)
    (hstart : event.startTime = some start) :
    effectiveEnd event = some (midnight start + day) := by
  rw [effectiveEnd, hend, hstart, Option.none_or, Option.map_some]

variable [LinearOrder Num] [Zero Num]

/-- An event ends after it starts, so the clause on the start adds nothing to the one on the end. -/
theorem admits_onlyStartDate_iff (context : QueryContext) (now startDate : Int)
    {event : Event Num} {start effective : Int} (hstart : event.startTime = some start)
    (heffective : effectiveEnd event = some effective) (hlater : start < effective) :
    admits context (onlyStartDate (some startDate)) none now event = true
      ↔ startDate < effective := by
  have hclause : admits context (onlyStartDate (some startDate)) none now event = true
      ↔ startDate ≤ start ∨ startDate < effective := by
    simp [admits, buildFilters, onlyStartDate, textFalsy, holds_conjAll, hstart, heffective,
      comparison, disjAll]
  rw [hclause]
  omega

theorem admits_onlyUpcoming_iff (context : QueryContext) (now : Int) (event : Event Num) :
    admits context onlyUpcoming none now event = true ↔ ¬ Expired context.zone now event := by
  rw [admits_onlyUpcoming, Bool.not_eq_true', ← holds_isPast_iff, Bool.not_eq_true]

theorem normalizeEventDate_of_offset {zone : Zone} {value : DateTime} {offset : Int}
    (h : value.utcOffset = some offset) :
    normalizeEventDate zone (some value) = some (zone.toLocal (value.wall - offset)) := by
  rw [normalizeEventDate, Option.map_some, eventTime, h]

/-- **Upcoming is starting from now.** Take a query date with an offset and an event with a known
start, and an end after it or none. Unless the date lies in the first pass of a repeated period or
the end in a skipped one, the event is upcoming at that instant exactly when the `startDate` clause
for it admits the event, and for whatever date validation accepts it as. -/
theorem admits_onlyUpcoming_eq_onlyStartDate (context : QueryContext)
    (hspaced : context.zone.Spaced) {event : Event Num} {start : Int}
    (hstart : event.startTime = some start) (hend : ∀ endTime ∈ event.endTime, start < endTime)
    {value : DateTime} {offset : Int} (hvalue : value.utcOffset = some offset)
    (hpass : ¬ context.zone.FirstPass (value.wall - offset))
    (hskipped : ∀ endTime ∈ event.endTime, ¬ context.zone.Skipped endTime) (now : Int) :
    admits context onlyUpcoming none (value.wall - offset) event
        = admits context (onlyStartDate (normalizeEventDate context.zone (some value))) none now
          event
      ∧ ∀ startDate, validateEventDate context.zone (some value) = .accepted startDate →
        admits context onlyUpcoming none (value.wall - offset) event
          = admits context (onlyStartDate startDate) none now event := by
  have hreading : admits context onlyUpcoming none (value.wall - offset) event
      = admits context (onlyStartDate (some (context.zone.toLocal (value.wall - offset)))) none now
        event := by
    rw [Bool.eq_iff_iff, admits_onlyUpcoming_iff]
    cases hcase : event.endTime with
    | some endTime =>
        rw [admits_onlyStartDate_iff context now _ hstart (effectiveEnd_of_endTime hcase)
          (hend endTime hcase), ← Zone.lt_instantOf_iff hspaced hpass (hskipped endTime hcase)]
        simp [Expired, hcase]
    | none =>
        rw [admits_onlyStartDate_iff context now _ hstart (effectiveEnd_of_startTime hcase hstart)
          (lt_midnight_add_day_iff.mpr le_rfl), lt_midnight_add_day_iff]
        simp [Expired, hcase, hstart]
  have hnormalized : normalizeEventDate context.zone (some value)
      = some (context.zone.toLocal (value.wall - offset)) := normalizeEventDate_of_offset hvalue
  refine ⟨by rw [hreading, hnormalized], fun startDate haccepted => ?_⟩
  rw [hreading, ← normalizeEventDate_of_accepted haccepted, hnormalized]

/-- An event on the night of the autumn change, from ten in the evening to half past three. -/
def autumnNight : Event Int :=
  { endsInRepeatedHour with startTime := some 1792879200000000 }

/-- Half past four by the summer offset. The local clock shows half past three a second time. -/
def secondPass : DateTime := ⟨1792902600000000, some 10800000000⟩

theorem admits_onlyUpcoming_autumnNight :
    admits vilniusContext onlyUpcoming none 1792891800000000 autumnNight
      = admits vilniusContext (onlyStartDate (normalizeEventDate vilnius2026 (some secondPass)))
          none 0 autumnNight
      ∧ ∀ startDate, validateEventDate vilnius2026 (some secondPass) = .accepted startDate →
        admits vilniusContext onlyUpcoming none 1792891800000000 autumnNight
          = admits vilniusContext (onlyStartDate startDate) none 0 autumnNight := by
  have hspaced : vilniusContext.zone.Spaced := spaced_vilnius2026
  have hstart : autumnNight.startTime = some 1792879200000000 := rfl
  have hoffset : secondPass.utcOffset = some 10800000000 := rfl
  apply admits_onlyUpcoming_eq_onlyStartDate vilniusContext hspaced hstart
    (by simp [autumnNight, endsInRepeatedHour]) hoffset
  · rintro ⟨later, hlater, heq⟩
    simp only [secondPass] at hlater heq
    simp only [vilniusContext, vilnius2026, Zone.toLocal, offsetFrom] at heq
    omega
  · rintro endTime hend hskipped
    obtain rfl : 1792899000000000 = endTime := Option.some_inj.mp hend
    exact hskipped 1792891800000000 (by decide)

end EventsApi
