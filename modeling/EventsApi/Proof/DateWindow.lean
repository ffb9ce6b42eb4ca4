import EventsApi.Proof.StartDate

/-!
# Events in a window of dates

`startDate` asks that the event start late enough or end late enough, `endDate` that it start early
enough. Together they ask whether the event is on at some moment of the window, with an event's own
start always one of its moments, however early its recorded end.
-/

namespace EventsApi

open ThreeValued ClockZone

/-- Two conditions on the ends of two stretches of time say that they meet: one stretch closed on
both sides, the other a first moment and what follows it up to an end left out. -/
theorem window_meets_iff {α : Type} [LinearOrder α] {low high start last : α}
    (hwindow : low ≤ high) :
    (∃ x, (low ≤ x ∧ x ≤ high) ∧ (x = start ∨ start ≤ x ∧ x < last))
      ↔ (low ≤ start ∨ low < last) ∧ start ≤ high := by
  constructor
  · rintro ⟨x, ⟨hlow, hhigh⟩, rfl | ⟨hstart, hlast⟩⟩
    · exact ⟨.inl hlow, hhigh⟩
    · exact ⟨.inr (hlow.trans_lt hlast), hstart.trans hhigh⟩
  · rintro ⟨hlow, hhigh⟩
    obtain hstart | hstart := le_or_gt low start
    · exact ⟨start, ⟨hstart, hhigh⟩, .inl rfl⟩
    · have hlast : low < last := hlow.resolve_left hstart.not_ge
      exact ⟨low, ⟨le_rfl, hwindow⟩, .inr ⟨hstart.le, hlast⟩⟩

variable {Num : Type}

/-- The event is on at the moment: it starts then, or it has started and not yet reached its recorded
end or, without one, the midnight after the day it starts on. -/
def OnAt (event : Event Num) (start x : Int) : Prop :=
  x = start ∨ start ≤ x ∧ x < event.endTime.getD (midnight start + day)

/-- The last microsecond of the calendar day a reading lies on. -/
def lastOfDay (w : Int) : Int := midnight w + day - 1

theorem effectiveEnd_eq {event : Event Num} {start : Int} (hstart : event.startTime = some start) :
    effectiveEnd event = some (event.endTime.getD (midnight start + day)) := by
  cases hend : event.endTime with
  | some endTime => exact effectiveEnd_of_endTime hend
  | none => exact effectiveEnd_of_startTime hend hstart

variable [LinearOrder Num] [Zero Num]

/-- The same query without its date bounds. -/
def EventFilters.withoutDates (filters : EventFilters Num) : EventFilters Num :=
  { filters with startDate := none, endDate := none }

/-- The two date clauses stand beside the others. -/
theorem admits_iff_withoutDates (context : QueryContext) {filters : EventFilters Num}
    {startDate endDate : Int} (hs : filters.startDate = some startDate)
    (he : filters.endDate = some endDate) (restrictToIds : Option (List Int)) (now : Int)
    (event : Event Num) :
    admits context filters restrictToIds now event = true
      ↔ admits context filters.withoutDates restrictToIds now event = true
        ∧ (holds (comparison (· ≥ ·) event.startTime (some startDate)) = true
          ∨ holds (comparison (· > ·) (effectiveEnd event) (some startDate)) = true
          ∨ event.startTime = none)
        ∧ (holds (comparison (· ≤ ·) event.startTime (some (lastOfDay endDate))) = true
          ∨ event.startTime = none) := by
  have hstart : holds (disjAll [comparison (· ≥ ·) event.startTime (some startDate),
      comparison (· > ·) (effectiveEnd event) (some startDate), isNull event.startTime])
      = (holds (comparison (· ≥ ·) event.startTime (some startDate))
        || (holds (comparison (· > ·) (effectiveEnd event) (some startDate))
          || event.startTime.isNone)) := by
    simp [disjAll]
  simp only [admits, buildFilters, EventFilters.withoutDates, hs, he, holds_conjAll,
    List.all_append, List.all_cons, List.all_nil, Bool.and_true, hstart, holds_disj, holds_isNull,
    Bool.and_eq_true, Bool.or_eq_true, Option.isNone_iff_eq_none, and_assoc]
  constructor
  · rintro ⟨hids, hcategory, hlocation, hstart, hend, hsearch, hstatus, hfrom, hto, hfree⟩
    exact ⟨hids, hcategory, hlocation, hsearch, hstatus, hfrom, hto, hfree, hstart, hend⟩
  · rintro ⟨hids, hcategory, hlocation, hsearch, hstatus, hfrom, hto, hfree, hstart, hend⟩
    exact ⟨hids, hcategory, hlocation, hstart, hend, hsearch, hstatus, hfrom, hto, hfree⟩

/-- **The window of dates.** Where the last day does not end before the window begins, the two date
clauses admit an event with a known start exactly when it is on at some moment of the window, and
they admit every event with an unknown start. -/
theorem admits_date_window (context : QueryContext) {filters : EventFilters Num}
    {startDate endDate : Int} (hs : filters.startDate = some startDate)
    (he : filters.endDate = some endDate) (hwindow : startDate ≤ lastOfDay endDate)
    (restrictToIds : Option (List Int)) (now : Int) (event : Event Num) :
    (∀ start, event.startTime = some start →
      (admits context filters restrictToIds now event = true
        ↔ admits context filters.withoutDates restrictToIds now event = true
          ∧ ∃ x, (startDate ≤ x ∧ x ≤ lastOfDay endDate) ∧ OnAt event start x))
    ∧ (event.startTime = none →
      admits context filters restrictToIds now event
        = admits context filters.withoutDates restrictToIds now event) := by
  have hsplit := admits_iff_withoutDates context hs he restrictToIds now event
  refine ⟨fun start hstart => ?_, fun hnone => ?_⟩
  · rw [hsplit, effectiveEnd_eq hstart, hstart]
    simp only [OnAt, window_meets_iff hwindow, comparison, holds_some, decide_eq_true_eq,
      reduceCtorEq, or_false, ge_iff_le, gt_iff_lt]
  · rw [Bool.eq_iff_iff, hsplit]
    simp only [hnone, or_true, and_true]

/-- An event from the afternoon of September 11, 2026 to the evening of September 12. -/
def twoDays : Event Int :=
  { Event.bare Int 1 "Festivalis" with
    startTime := some 1789146000000000
    endTime := some 1789250400000000 }

/-- The whole of September 12, 2026. -/
def secondDay : EventFilters Int := onlyDates (some 1789171200000000) (some 1789171200000000)

theorem admits_date_window_secondDay :
    (∀ start, twoDays.startTime = some start →
      (admits vilniusContext secondDay none 0 twoDays = true
        ↔ admits vilniusContext secondDay.withoutDates none 0 twoDays = true
          ∧ ∃ x, (1789171200000000 ≤ x ∧ x ≤ lastOfDay 1789171200000000) ∧ OnAt twoDays start x))
    ∧ (twoDays.startTime = none →
      admits vilniusContext secondDay none 0 twoDays
        = admits vilniusContext secondDay.withoutDates none 0 twoDays) :=
  admits_date_window vilniusContext rfl rfl (by decide) none 0 twoDays

end EventsApi
