import EventsApi.Events.Schemas

/-!
# Query parameters of the listing

`split_comma_separated` of `app/events/schemas.py`. The framework supplies a list for the location
parameter, one text for each time the URL has it.
-/

namespace EventsApi

/-- Python's `char.isspace()`. -/
def isSpace (char : Char) : Bool :=
  let code := char.toNat
  decide (9 ≤ code ∧ code ≤ 13 ∨ 28 ≤ code ∧ code ≤ 32 ∨ 0x2000 ≤ code ∧ code ≤ 0x200a)
    || [0x85, 0xa0, 0x1680, 0x2028, 0x2029, 0x202f, 0x205f, 0x3000].contains code

/-- Python's `text.strip()`. -/
def strip (text : List Char) : List Char := (text.dropWhile isSpace).rdropWhile isSpace

/-- The names of one parameter: the parts between commas that are not blank. -/
def locationNames (item : String) : List String :=
  (item.toList.splitOn ',').filterMap fun part =>
    if strip part = [] then none else some (String.ofList (strip part))

/-- Accept comma-separated, repeated, or combined location parameters. -/
def splitCommaSeparated (values : List String) : List String := values.flatMap locationNames

example : splitCommaSeparated ["Vilnius, Kaunas,", " Klaipėda "]
    = ["Vilnius", "Kaunas", "Klaipėda"] := by
  decide

end EventsApi
