import EventsApi.Library.ClockZone
import EventsApi.Library.Timestamp

/-!
# Lithuanian event time

`app/core/time.py`. A datetime of an event that has an offset is converted to the Lithuanian clock;
one without is already a Lithuanian wall-clock time and only gains an offset. A timestamp of the
system without an offset is in UTC.
-/

namespace EventsApi

open ClockZone Calendar

/-- A wall-clock reading, with its distance from UTC when it carries one. -/
structure DateTime where
  wall : Int
  utcOffset : Option Int

/-- The offset of a wall-clock reading with `fold=0`: a change takes over after the readings it
skips or repeats. -/
def firstOffsetFrom (offset : Int) : List Change → Int → Int
  | [], _ => offset
  | change :: changes, w =>
      if w < change.instant + max offset change.offset then offset
      else firstOffsetFrom change.offset changes w

/-- The offset with `fold=1`: a change takes over before the readings it skips or repeats. -/
def secondOffsetFrom (offset : Int) : List Change → Int → Int
  | [], _ => offset
  | change :: changes, w =>
      if w < change.instant + min offset change.offset then offset
      else secondOffsetFrom change.offset changes w

/-- Event columns and offset-free query dates are Lithuanian wall-clock times. -/
def eventTime (zone : Zone) (value : DateTime) : DateTime :=
  match value.utcOffset with
  | none =>
      let firstOffset := firstOffsetFrom zone.initial zone.changes value.wall
      let secondOffset := secondOffsetFrom zone.initial zone.changes value.wall
      { value with
        utcOffset := some (if secondOffset < firstOffset then secondOffset else firstOffset) }
  | some offset =>
      let instant := value.wall - offset
      { wall := zone.toLocal instant
        utcOffset := some (offsetFrom zone.initial zone.changes instant) }

/-- The instant an aware value denotes. -/
def DateTime.instant (value : DateTime) : Option Int :=
  value.utcOffset.map (value.wall - ·)

/-! ### The range of datetimes

A `datetime` holds a moment of the years 1 to 9999, and arithmetic that leaves them raises. Counts of
microseconds have no such range, so the conversion is written a second time with the two sums
checked. -/

/-- The first microsecond of year 1. -/
def minDateTime : Int := -62135596800000000

/-- The last microsecond of year 9999. -/
def maxDateTime : Int := 253402300799999999

def Representable (w : Int) : Prop := minDateTime ≤ w ∧ w ≤ maxDateTime

instance (w : Int) : Decidable (Representable w) :=
  inferInstanceAs (Decidable (_ ∧ _))

/-- The exceptions a date conversion can end in. An `OverflowError` is not a `ValueError`. -/
inductive DateError where
  | valueError
  | overflowError
  deriving DecidableEq

/-- `datetime + timedelta`. -/
def addTimedelta (w delta : Int) : Except DateError Int :=
  if Representable (w + delta) then .ok (w + delta) else .error .overflowError

/-- `value.astimezone(zone)`: to UTC by the value's offset, then to local time by the zone's. -/
def astimezone (zone : Zone) (wall offset : Int) : Except DateError DateTime := do
  let utc ← addTimedelta wall (-offset)
  let zoneOffset := offsetFrom zone.initial zone.changes utc
  let shown ← addTimedelta utc zoneOffset
  return { wall := shown, utcOffset := some zoneOffset }

/-- `eventTime` within the range of datetimes. Without an offset there is no sum that could leave
it. -/
def boundedEventTime (zone : Zone) (value : DateTime) : Except DateError DateTime :=
  match value.utcOffset with
  | none => .ok (eventTime zone value)
  | some offset => astimezone zone value.wall offset

theorem boundedEventTime_of_offset (zone : Zone) (wall offset : Int) :
    boundedEventTime zone ⟨wall, some offset⟩ = astimezone zone wall offset := rfl

theorem addTimedelta_of_representable {w delta : Int} (h : Representable (w + delta)) :
    addTimedelta w delta = .ok (w + delta) := if_pos h

theorem addTimedelta_of_not_representable {w delta : Int} (h : ¬ Representable (w + delta)) :
    addTimedelta w delta = .error .overflowError := if_neg h

/-- The conversion succeeds where both sums stay in the range. -/
theorem astimezone_of_representable {zone : Zone} {w offset : Int}
    (hutc : Representable (w - offset)) (hlocal : Representable (zone.toLocal (w - offset))) :
    astimezone zone w offset = .ok (eventTime zone ⟨w, some offset⟩) := by
  have hsum : addTimedelta w (-offset) = .ok (w - offset) := addTimedelta_of_representable hutc
  rw [astimezone, hsum]
  change (addTimedelta (w - offset) _).bind _ = _
  rw [addTimedelta_of_representable hlocal]
  rfl

theorem astimezone_of_not_representable {zone : Zone} {w offset : Int}
    (h : ¬ (Representable (w - offset) ∧ Representable (zone.toLocal (w - offset)))) :
    astimezone zone w offset = .error .overflowError := by
  by_cases hutc : Representable (w - offset)
  · have hsum : addTimedelta w (-offset) = .ok (w - offset) := addTimedelta_of_representable hutc
    rw [astimezone, hsum]
    change (addTimedelta (w - offset) _).bind _ = _
    rw [addTimedelta_of_not_representable fun hlocal => h ⟨hutc, hlocal⟩]
    rfl
  · rw [astimezone, addTimedelta_of_not_representable hutc]
    rfl

/-- Where the bounded conversion gives a value, it is the one of the other definition. -/
theorem eventTime_of_bounded {zone : Zone} {value converted : DateTime}
    (h : boundedEventTime zone value = .ok converted) : eventTime zone value = converted := by
  obtain ⟨wall, _ | offset⟩ := value
  · exact Except.ok.inj h
  · rw [boundedEventTime_of_offset] at h
    by_cases hrange : Representable (wall - offset) ∧ Representable (zone.toLocal (wall - offset))
    · rw [astimezone_of_representable hrange.1 hrange.2] at h
      exact Except.ok.inj h
    · rw [astimezone_of_not_representable hrange] at h
      cases h

/-! ### Presentation -/

/-- The fields of a datetime within range. -/
def stampOf (w : Int) : Timestamp := .ofMicroseconds (w - minDateTime).toNat

/-- Display a UTC audit/outbox timestamp in Lithuania, regardless of language. The format is
`%Y-%m-%d %H:%M %Z`; the tz database gives the abbreviation in use at an instant. -/
def formatSystemTimestamp (zone : Zone) (zoneName : Int → String) (value : DateTime) : String :=
  -- a value without an offset has that of UTC put on it
  let instant := value.wall - value.utcOffset.getD 0
  String.ofList (stampOf (zone.toLocal instant)).minuteText ++ " " ++ zoneName instant

example : formatSystemTimestamp (.fixed 7200000000) (fun _ => "EET") ⟨1767268800000000, none⟩
    = "2026-01-01 14:00 EET" := by rfl

end EventsApi
