import EventsApi.Core.Time

/-!
# Times on the wire

`serialize_event_datetime` of `app/events/schemas.py`. Event columns hold Lithuanian wall-clock times
without an offset; the text calls them UTC.
-/

namespace EventsApi

open ClockZone Calendar

/-- Python's `text.replace(old, new)` for a text `old` that is not empty. The number counts the
characters of a replaced occurrence that are still to be passed over. -/
def replaceFrom (old new : List Char) : Nat → List Char → List Char
  | _, [] => []
  | passed + 1, _ :: text => replaceFrom old new passed text
  | 0, c :: text =>
      if old <+: c :: text then new ++ replaceFrom old new (old.length - 1) text
      else c :: replaceFrom old new 0 text

/-- The zone `UTC`. -/
def utc : Zone := .fixed 0

/-- `value.isoformat().replace("+00:00", "Z")` for a datetime in UTC. -/
def zFormat (w : Int) : String :=
  let isoformat := (stampOf w).isoformat ++ "+00:00".toList
  String.ofList (replaceFrom "+00:00".toList "Z".toList 0 isoformat)

/-- Keep the legacy Z format used by the frontend's UTC date formatters. -/
def serializeEventDatetime : Option DateTime → Except DateError (Option String)
  | none => .ok none
  | some value => do
      let shown ← match value.utcOffset with
        | none => .ok { value with utcOffset := some 0 }
        | some offset => astimezone utc value.wall offset
      return some (zFormat shown.wall)

example : zFormat 1780354800000001 = "2026-06-01T23:00:00.000001Z" := by rfl

/-- What a timestamp of ISO 8601 says, with or without the letter Z. -/
def readDateTime (text : String) : Option DateTime :=
  (Timestamp.read text.toList).map fun stamped =>
    { wall := minDateTime + stamped.1.microseconds
      utcOffset := if stamped.2 then some 0 else none }

end EventsApi
