import EventsApi.Events.Wire
import EventsApi.Proof.EventTime
import EventsApi.Proof.StartDate

/-!
# Published times

What a published time says, read as ISO 8601. The letter Z makes a Lithuanian wall-clock time a time
in UTC, so as a query date it is not the time the event row holds.
-/

namespace EventsApi

open ThreeValued ClockZone Calendar

/-- The wall clock in UTC of a value with an offset, and of a value without one its own. -/
def DateTime.moment (value : DateTime) : Int := value.wall - value.utcOffset.getD 0

theorem replaceFrom_append {old new text : List Char} {first : Char} (hold : old.head? = some first)
    (h : first ∉ text) (rest : List Char) :
    replaceFrom old new 0 (text ++ rest) = text ++ replaceFrom old new 0 rest := by
  induction text with
  | nil => rfl
  | cons c text ih =>
      have hne : ¬ old <+: c :: (text ++ rest) := by
        intro hstart
        cases old with
        | nil => cases hold
        | cons o old =>
            obtain rfl := Option.some_inj.mp hold
            exact h (by rw [(List.cons_prefix_cons.mp hstart).1]; exact List.mem_cons_self)
      rw [List.cons_append, replaceFrom, if_neg hne, ih fun hc => h (List.mem_cons_of_mem _ hc),
        List.cons_append]

theorem plus_not_mem_isoformat (stamp : Timestamp) : '+' ∉ stamp.isoformat := by
  have hdigits : ∀ width n, '+' ∉ Timestamp.padded width n := fun width n h =>
    absurd (Timestamp.isDigit_padded width n _ h) (by decide)
  unfold Timestamp.isoformat
  split <;> simp [hdigits]

theorem zFormat_eq (w : Int) : zFormat w = String.ofList ((stampOf w).isoformat ++ ['Z']) := by
  have hhead : "+00:00".toList.head? = some '+' := rfl
  rw [zFormat, replaceFrom_append hhead (plus_not_mem_isoformat _)]
  rfl

theorem stampOf_microseconds {w : Int} (h : Representable w) :
    minDateTime + (stampOf w).microseconds = w := by
  have := h.1
  rw [stampOf, Timestamp.microseconds_ofMicroseconds]
  omega

theorem stampOf_eq {w : Int} {stamp : Timestamp} (h : minDateTime + stamp.microseconds = w) :
    stampOf w = stamp := by
  have hcount : (w - minDateTime).toNat = stamp.microseconds := by omega
  rw [stampOf, hcount, Timestamp.ofMicroseconds_microseconds]

theorem stampOf_year {w : Int} (h : Representable w) : (stampOf w).date.year < 10000 := by
  have hlast := h.2
  rw [Timestamp.year_lt_iff, stampOf, Timestamp.microseconds_ofMicroseconds]
  simp only [minDateTime, maxDateTime] at hlast ⊢
  omega

theorem readDateTime_isoformat {w : Int} (h : Representable w) (isUtc : Bool) :
    readDateTime (String.ofList ((stampOf w).isoformat ++ if isUtc then ['Z'] else []))
      = some ⟨w, if isUtc then some 0 else none⟩ := by
  rw [readDateTime, String.toList_ofList, Timestamp.read_isoformat (stampOf_year h) isUtc,
    Option.map_some, stampOf_microseconds h]

theorem serializeEventDatetime_shown {value : DateTime} (h : Representable value.moment) :
    serializeEventDatetime (some value) = .ok (some (zFormat value.moment)) := by
  obtain ⟨wall, _ | offset⟩ := value
  · rw [DateTime.moment, Option.getD_none, Int.sub_zero]
    rfl
  · have hsame : utc.toLocal (wall - offset) = wall - offset := Int.add_zero _
    have hconverted : astimezone utc wall offset = .ok (eventTime utc ⟨wall, some offset⟩) :=
      astimezone_of_representable h (hsame.symm ▸ h)
    change (astimezone utc wall offset).bind _ = _
    rw [hconverted]
    change Except.ok (some (zFormat (utc.toLocal (wall - offset)))) = _
    rw [hsame]
    rfl

theorem serializeEventDatetime_overflow {value : DateTime} (h : Representable value.wall)
    (hmoment : ¬ Representable value.moment) :
    serializeEventDatetime (some value) = .error .overflowError := by
  obtain ⟨wall, _ | offset⟩ := value
  · rw [DateTime.moment, Option.getD_none, Int.sub_zero] at hmoment
    exact absurd h hmoment
  · have hraised : astimezone utc wall offset = .error .overflowError :=
      astimezone_of_not_representable fun hboth => hmoment hboth.1
    change (astimezone utc wall offset).bind _ = _
    rw [hraised]
    rfl

/-- The text, and what it says with and without its letter. -/
theorem published_text {value : DateTime} (h : Representable value.moment) :
    let text := String.ofList (stampOf value.moment).isoformat
    serializeEventDatetime (some value) = .ok (some (text ++ "Z"))
      ∧ readDateTime (text ++ "Z") = some ⟨value.moment, some 0⟩
      ∧ readDateTime text = some ⟨value.moment, none⟩ := by
  intro text
  have hletter : text ++ "Z" = String.ofList ((stampOf value.moment).isoformat ++ ['Z']) := by
    rw [String.ofList_append]
  have hutc := readDateTime_isoformat h true
  have hbare := readDateTime_isoformat h false
  simp only [if_true, Bool.false_eq_true, if_false, List.append_nil] at hutc hbare
  refine ⟨?_, ?_, hbare⟩
  · rw [serializeEventDatetime_shown h, zFormat_eq, hletter]
  · rw [hletter, hutc]

/-- **A published time reads back.** A datetime is published with the letter Z, as the text of its
wall clock in UTC, or as its own wall clock where it has no offset. The text is that of the date and
the time of day at that moment. Read as ISO 8601 it says the moment, and without the letter the wall
clock alone. Only a moment outside the years 1 to 9999 has no text, and raises. -/
theorem published_time_reads_back {value : DateTime} (h : Representable value.wall) :
    (∃ text, serializeEventDatetime (some value) = .ok (some (text ++ "Z"))
      ∧ (∀ stamp : Timestamp, minDateTime + stamp.microseconds = value.moment →
        text = String.ofList stamp.isoformat)
      ∧ readDateTime (text ++ "Z") = some ⟨value.moment, some 0⟩
      ∧ readDateTime text = some ⟨value.moment, none⟩ ∧ Representable value.moment)
    ∨ serializeEventDatetime (some value) = .error .overflowError
      ∧ ¬ Representable value.moment := by
  by_cases hmoment : Representable value.moment
  · obtain ⟨htext, hutc, hbare⟩ := published_text hmoment
    refine .inl ⟨_, htext, fun stamp hstamp => ?_, hutc, hbare, hmoment⟩
    rw [stampOf_eq hstamp]
  · exact .inr ⟨serializeEventDatetime_overflow h hmoment, hmoment⟩

/-- Noon of 1 June 2026, three hours ahead of UTC. -/
def noonAhead : DateTime := ⟨1780315200000000, some 10800000000⟩

theorem published_time_reads_back_noonAhead :
    (∃ text, serializeEventDatetime (some noonAhead) = .ok (some (text ++ "Z"))
      ∧ (∀ stamp : Timestamp, minDateTime + stamp.microseconds = noonAhead.moment →
        text = String.ofList stamp.isoformat)
      ∧ readDateTime (text ++ "Z") = some ⟨noonAhead.moment, some 0⟩
      ∧ readDateTime text = some ⟨noonAhead.moment, none⟩ ∧ Representable noonAhead.moment)
    ∨ serializeEventDatetime (some noonAhead) = .error .overflowError
      ∧ ¬ Representable noonAhead.moment :=
  published_time_reads_back (by decide)

/-! ### A published start as a query date -/

/-- The framework's parser of query dates reads a timestamp of ISO 8601 as what it says. -/
def ReadsTimestamps (parse : String → Option DateTime) : Prop :=
  ∀ text value, readDateTime text = some value → parse text = some value

def Validated.map {α β : Type} (f : α → β) : Validated α → Validated β
  | .accepted value => .accepted (f value)
  | .validationError => .validationError
  | .raised error => .raised error

variable {Num : Type} [LinearOrder Num] [Zero Num]

/-- Whether a request that gives only this `startDate` lists the event. A text that is no date is a
validation error. -/
def listedFrom (context : QueryContext) (parse : String → Option DateTime) (now : Int)
    (text : String) (event : Event Num) : Validated Bool :=
  (parse text).elim .validationError fun value =>
    (validateEventDate context.zone (some value)).map fun startDate =>
      admits context (onlyStartDate startDate) none now event

theorem admits_from (context : QueryContext) (now startDate : Int) {event : Event Num} {start : Int}
    (hstart : event.startTime = some start) :
    admits context (onlyStartDate (some startDate)) none now event = true
      ↔ startDate ≤ start ∨ ∃ effective ∈ effectiveEnd event, startDate < effective := by
  obtain ⟨effective, heffective⟩ : ∃ effective, effectiveEnd event = some effective := by
    cases hend : event.endTime with
    | none => exact ⟨_, effectiveEnd_of_startTime hend hstart⟩
    | some endTime => exact ⟨_, effectiveEnd_of_endTime hend⟩
  simp [admits, buildFilters, onlyStartDate, textFalsy, holds_conjAll, hstart, heffective,
    comparison, disjAll]

theorem validateEventDate_utc (zone : Zone) {w : Int} (h : Representable w) :
    validateEventDate zone (some ⟨w, some 0⟩)
      = if Representable (zone.toLocal w) then .accepted (some (zone.toLocal w))
        else .raised .overflowError := by
  have hmoment : w - 0 = w := Int.sub_zero w
  split
  · next hlocal =>
      rw [validateEventDate_of_representable (hmoment.symm ▸ h) (hmoment.symm ▸ hlocal), hmoment]
  · next hlocal =>
      exact validateEventDate_of_not_representable fun hboth => hlocal (hmoment ▸ hboth.2)

/-- **An event by its own published start.** Given back as `startDate` without the letter Z, the
published start finds the event. With the letter it is taken for UTC and moved to the Lithuanian
clock, so it finds the event exactly when the event lasts beyond the moved time, or nothing moved. -/
theorem listedFrom_own_start (context : QueryContext) {parse : String → Option DateTime}
    (hparse : ReadsTimestamps parse) (now : Int) {event : Event Num} {start : Int}
    (hstart : event.startTime = some start) (h : Representable start) :
    ∃ text, serializeEventDatetime (some ⟨start, none⟩) = .ok (some (text ++ "Z"))
      ∧ listedFrom context parse now text event = .accepted true
      ∧ (listedFrom context parse now (text ++ "Z") event = .accepted true
        ↔ Representable (context.zone.toLocal start)
          ∧ (context.zone.toLocal start ≤ start
            ∨ ∃ effective ∈ effectiveEnd event, context.zone.toLocal start < effective)) := by
  have hmoment : DateTime.moment ⟨start, none⟩ = start := Int.sub_zero start
  obtain ⟨htext, hutc, hbare⟩ :=
    published_text (show Representable (DateTime.moment ⟨start, none⟩) from hmoment.symm ▸ h)
  rw [hmoment] at hutc hbare htext
  refine ⟨_, htext, ?_, ?_⟩
  · have hown : admits context (onlyStartDate (some start)) none now event = true :=
      (admits_from context now start hstart).mpr (.inl le_rfl)
    rw [listedFrom, hparse _ _ hbare, ← hown]
    rfl
  · rw [listedFrom, hparse _ _ hutc, Option.elim_some, validateEventDate_utc _ h,
      ← admits_from context now _ hstart]
    split
    · next hlocal =>
        rw [Validated.map, Validated.accepted.injEq]
        exact ⟨fun hadmits => ⟨hlocal, hadmits⟩, And.right⟩
    · next hlocal =>
        refine iff_of_false ?_ fun hboth => hlocal hboth.1
        rintro ⟨⟩

/-- A concert at eleven in the evening of 1 June 2026, with no recorded end. -/
def lateConcert : Event Int :=
  { Event.bare Int 2 "Koncertas" with startTime := some 1780354800000000 }

theorem listedFrom_own_start_lateConcert :
    ∃ text, serializeEventDatetime (some ⟨1780354800000000, none⟩) = .ok (some (text ++ "Z"))
      ∧ listedFrom vilniusContext readDateTime 0 text lateConcert = .accepted true
      ∧ (listedFrom vilniusContext readDateTime 0 (text ++ "Z") lateConcert = .accepted true
        ↔ Representable (vilnius2026.toLocal 1780354800000000)
          ∧ (vilnius2026.toLocal 1780354800000000 ≤ 1780354800000000
            ∨ ∃ effective ∈ effectiveEnd lateConcert,
              vilnius2026.toLocal 1780354800000000 < effective)) :=
  listedFrom_own_start vilniusContext (fun _ _ h => h) 0 rfl (by decide)

end EventsApi
