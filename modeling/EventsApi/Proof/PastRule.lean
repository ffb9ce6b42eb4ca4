import EventsApi.Events.Repository

/-!
# Past and upcoming

The status filter negates one SQL predicate, and negation keeps an unknown truth value unknown. The
predicate is never unknown, so the two tabs split every table. An event stays past because instants
only grow and the local date never goes back.
-/

namespace EventsApi

open ThreeValued ClockZone

variable {Num : Type}

/-- The recorded end has been reached on the Vilnius clock or, without one, the known start lies on
a local date before today's. -/
def Expired (zone : Zone) (now : Int) (event : Event Num) : Prop :=
  (∃ endTime, event.endTime = some endTime ∧ zone.instantOf endTime ≤ now) ∨
    event.endTime = none ∧ ∃ start, event.startTime = some start
      ∧ dayOf start < dayOf (zone.toLocal now)

theorem isSome_isPast (context : QueryContext) (now : Int) (event : Event Num) :
    (isPast context now event).isSome := by
  unfold isPast caseWhen
  cases hend : event.endTime with
  | some endTime => simp [comparison]
  | none =>
      rw [holds_isNotNull, if_neg (by simp)]
      -- a missing start makes the left conjunct false, which settles the conjunction
      apply isSome_conj_of_left rfl
      intro hstart
      obtain ⟨start, hstart⟩ := Option.isSome_iff_exists.mp (Option.some_inj.mp hstart)
      simp [hstart, comparison]

theorem holds_isPast_iff (context : QueryContext) (now : Int) (event : Event Num) :
    holds (isPast context now event) = true ↔ Expired context.zone now event := by
  unfold isPast caseWhen Expired
  cases hend : event.endTime with
  | some endTime => simp [comparison]
  | none =>
      cases hstart : event.startTime with
      | none => simp
      | some start => simp [comparison, lt_midnight_iff]

/-- **Past is for good.** -/
theorem Expired.later {zone : Zone} (hback : zone.BackwardWithinDay) {now later : Int}
    (hlater : now ≤ later) {event : Event Num} (h : Expired zone now event) :
    Expired zone later event := by
  obtain ⟨endTime, hend, hreached⟩ | ⟨hend, start, hstart, hday⟩ := h
  · exact Or.inl ⟨endTime, hend, hreached.trans hlater⟩
  · exact Or.inr ⟨hend, start, hstart, hday.trans_le (Zone.dayOf_toLocal_mono hback hlater)⟩

variable [LinearOrder Num] [Zero Num]

theorem admits_onlyPast (context : QueryContext) (now : Int) (event : Event Num) :
    admits context onlyPast none now event = holds (isPast context now event) := by
  simp [admits, buildFilters, onlyPast, textFalsy, holds_conjAll]

theorem admits_onlyUpcoming (context : QueryContext) (now : Int) (event : Event Num) :
    admits context onlyUpcoming none now event = !holds (isPast context now event) := by
  rw [← holds_neg_of_isSome (isSome_isPast context now event)]
  simp [admits, buildFilters, onlyUpcoming, textFalsy, holds_conjAll]

theorem admits_onlyHideExpired (context : QueryContext) (now : Int) (event : Event Num) :
    admits context onlyHideExpired none now event
      = admits context onlyUpcoming none now event := by
  simp [admits, buildFilters, onlyHideExpired, onlyUpcoming, textFalsy]

/-- **The two tabs.** At every instant one of the status filters admits the event and the other does
not, `hideExpired=true` is the upcoming filter, the past filter admits exactly the expired events,
and what is past stays past. -/
theorem status_filters_partition (context : QueryContext)
    (hback : context.zone.BackwardWithinDay) (event : Event Num) (now : Int) :
    Xor (admits context onlyPast none now event = true)
        (admits context onlyUpcoming none now event = true)
      ∧ admits context onlyHideExpired none now event = admits context onlyUpcoming none now event
      ∧ (admits context onlyPast none now event = true ↔ Expired context.zone now event)
      ∧ ∀ later, now ≤ later → admits context onlyPast none now event = true →
          admits context onlyPast none later event = true := by
  refine ⟨?_, admits_onlyHideExpired context now event, ?_, fun later hlater => ?_⟩
  · rw [admits_onlyPast, admits_onlyUpcoming]
    cases holds (isPast context now event) <;> simp [Xor]
  · rw [admits_onlyPast, holds_isPast_iff]
  · simp only [admits_onlyPast, holds_isPast_iff]
    exact Expired.later hback hlater

/-- Vilnius through 2026: two hours ahead of UTC, three between the two clock changes. -/
def vilnius2026 : Zone where
  initial := 7200000000
  changes := [⟨1774746000000000, 10800000000⟩, ⟨1792890000000000, 7200000000⟩]
  ordered := by decide

theorem spaced_vilnius2026 : vilnius2026.Spaced := ⟨by decide, by decide, trivial⟩

def vilniusContext : QueryContext where
  zone := vilnius2026
  caseFold := .ascii
  unaccent := id
  longEventThresholdDays := 7
  threshold_ge := by decide

/-- An event ending at half past three on the morning of the autumn change. -/
def endsInRepeatedHour : Event Int :=
  { Event.bare Int 1 "Naktis" with endTime := some 1792899000000000 }

theorem status_filters_partition_autumn :
    Xor (admits vilniusContext onlyPast none 1792891800000000 endsInRepeatedHour = true)
        (admits vilniusContext onlyUpcoming none 1792891800000000 endsInRepeatedHour = true)
      ∧ admits vilniusContext onlyHideExpired none 1792891800000000 endsInRepeatedHour
        = admits vilniusContext onlyUpcoming none 1792891800000000 endsInRepeatedHour
      ∧ (admits vilniusContext onlyPast none 1792891800000000 endsInRepeatedHour = true
        ↔ Expired vilnius2026 1792891800000000 endsInRepeatedHour)
      ∧ ∀ later, 1792891800000000 ≤ later →
          admits vilniusContext onlyPast none 1792891800000000 endsInRepeatedHour = true →
          admits vilniusContext onlyPast none later endsInRepeatedHour = true :=
  status_filters_partition vilniusContext ⟨by decide, by decide, trivial⟩ endsInRepeatedHour
    1792891800000000

end EventsApi
