import EventsApi.Library.Calendar
import EventsApi.Library.Decimal

/-!
# Timestamps and their text

A date with a time of day, down to the microsecond. Timestamps are in bijection with the microseconds
since the first day of year 1. The text is that of ISO 8601, with the fraction left out where it is
zero; the reader takes a fraction of one to six digits, and the letter Z for UTC.
-/

namespace Calendar

open Nat (ofDigitChars toDigits)

structure Timestamp where
  date : Date
  hour : Nat
  minute : Nat
  second : Nat
  microsecond : Nat
  hour_lt : hour < 24
  minute_lt : minute < 60
  second_lt : second < 60
  microsecond_lt : microsecond < 1000000

namespace Timestamp

/-- Microseconds since the first day of year 1. -/
def microseconds (stamp : Timestamp) : Nat :=
  (((stamp.date.days * 24 + stamp.hour) * 60 + stamp.minute) * 60 + stamp.second) * 1000000
    + stamp.microsecond

def ofMicroseconds (n : Nat) : Timestamp where
  date := .ofDays (n / 86400000000)
  hour := n / 3600000000 % 24
  minute := n / 60000000 % 60
  second := n / 1000000 % 60
  microsecond := n % 1000000
  hour_lt := Nat.mod_lt _ (by decide)
  minute_lt := Nat.mod_lt _ (by decide)
  second_lt := Nat.mod_lt _ (by decide)
  microsecond_lt := Nat.mod_lt _ (by decide)

theorem microseconds_ofMicroseconds (n : Nat) : (ofMicroseconds n).microseconds = n := by
  simp only [microseconds, ofMicroseconds, Date.days_ofDays]
  omega

theorem ofMicroseconds_microseconds (stamp : Timestamp) :
    ofMicroseconds stamp.microseconds = stamp := by
  obtain ⟨date, hour, minute, second, microsecond, hhour, hminute, hsecond, hmicrosecond⟩ := stamp
  have hdate : (((date.days * 24 + hour) * 60 + minute) * 60 + second) * 1000000 + microsecond
      = date.days * 86400000000 + (((hour * 60 + minute) * 60 + second) * 1000000 + microsecond) := by
    omega
  simp only [ofMicroseconds, microseconds, mk.injEq]
  refine ⟨?_, by omega, by omega, by omega, by omega⟩
  rw [hdate, Nat.mul_comm, Nat.mul_add_div (by decide), Nat.div_eq_of_lt (by omega), Nat.add_zero,
    Date.ofDays_days]

/-- The timestamps of the first 9999 years are those of the first 3652059 days. -/
theorem year_lt_iff (stamp : Timestamp) :
    stamp.date.year < 10000 ↔ stamp.microseconds < 3652059 * 86400000000 := by
  obtain ⟨date, hour, minute, second, microsecond, hhour, hminute, hsecond, hmicrosecond⟩ := stamp
  have hlt := date.dayOfYear_spec.1
  have hlast : daysBeforeYear 10000 = 3652059 := by decide
  have hdays : date.days = daysBeforeYear date.year + date.dayOfYear := rfl
  simp only [microseconds]
  constructor
  · intro h
    have := daysBeforeYear_le date.year_pos h
    omega
  · intro h
    by_contra hge
    rcases Nat.lt_or_eq_of_le (not_lt.mp hge) with hlate | heq
    · have := daysBeforeYear_le (by decide) hlate
      omega
    · rw [← heq] at hdays
      omega

/-! ### The text -/

/-- A number with zeros before it. -/
def padded (width n : Nat) : List Char := (toDigits 10 n).leftpad width '0'

/-- The text without an offset. -/
def isoformat (stamp : Timestamp) : List Char :=
  padded 4 stamp.date.year ++ '-' :: padded 2 stamp.date.month ++ '-' :: padded 2 stamp.date.day
    ++ 'T' :: padded 2 stamp.hour ++ ':' :: padded 2 stamp.minute ++ ':' :: padded 2 stamp.second
    ++ if stamp.microsecond = 0 then [] else '.' :: padded 6 stamp.microsecond

/-- The text down to the minute. -/
def minuteText (stamp : Timestamp) : List Char :=
  padded 4 stamp.date.year ++ '-' :: padded 2 stamp.date.month ++ '-' :: padded 2 stamp.date.day
    ++ ' ' :: padded 2 stamp.hour ++ ':' :: padded 2 stamp.minute

theorem padded_eq (width n : Nat) :
    padded width n = List.replicate (width - (toDigits 10 n).length) '0' ++ toDigits 10 n := rfl

theorem isDigit_padded (width n : Nat) : ∀ c ∈ padded width n, c.isDigit = true := by
  rw [padded_eq]
  intro c hc
  rcases List.mem_append.mp hc with hc | hc
  · exact Decimal.isDigit_replicate _ c hc
  · exact Nat.isDigit_of_mem_toDigits (by decide) le_rfl hc

theorem mem_minuteText {stamp : Timestamp} {c : Char} (h : c ∈ stamp.minuteText) :
    c.isDigit = true ∨ c ∈ ['-', ' ', ':'] := by
  have hnumber : ∀ {width n : Nat}, c ∈ padded width n → c.isDigit = true :=
    fun hc => isDigit_padded _ _ c hc
  simp only [minuteText, List.mem_append, List.mem_cons] at h
  rcases h with (((h | rfl | h) | rfl | h) | rfl | h) | rfl | h
  all_goals first
    | exact .inl (hnumber h)
    | exact .inr (by decide)

theorem length_padded {width n : Nat} (hpos : 0 < width) (h : n < 10 ^ width) :
    (padded width n).length = width := by
  rw [padded, List.length_leftpad]
  exact Nat.max_eq_left ((Nat.length_toDigits_le_iff (by decide) hpos).mpr h)

theorem ofDigitChars_padded (width n : Nat) : ofDigitChars 10 (padded width n) 0 = n := by
  rw [padded_eq, Nat.ofDigitChars_append, Nat.ofDigitChars_replicate_zero, Nat.mul_zero,
    Nat.ofDigitChars_ten_toDigits]

/-! ### The reader -/

/-- A number of so many digits, and the text after it. -/
def readNumber (width : Nat) (text : List Char) : Option (Nat × List Char) :=
  if width ≤ text.length ∧ (text.take width).all Char.isDigit then
    some (ofDigitChars 10 (text.take width) 0, text.drop width)
  else none

def readMark (mark : Char) : List Char → Option (List Char)
  | [] => none
  | c :: text => if c = mark then some text else none

/-- A fraction of a second, in microseconds. -/
def readFraction (text : List Char) : Option (Nat × List Char) :=
  if text.head? = some '.' then
    let fraction := text.tail.takeWhile Char.isDigit
    if 1 ≤ fraction.length ∧ fraction.length ≤ 6 then
      some (ofDigitChars 10 fraction 0 * 10 ^ (6 - fraction.length),
        text.tail.dropWhile Char.isDigit)
    else none
  else some (0, text)

/-- A timestamp, and whether it says that it is in UTC. -/
def read (text : List Char) : Option (Timestamp × Bool) := do
  let (year, text) ← readNumber 4 text
  let text ← readMark '-' text
  let (month, text) ← readNumber 2 text
  let text ← readMark '-' text
  let (day, text) ← readNumber 2 text
  let text ← readMark 'T' text
  let (hour, text) ← readNumber 2 text
  let text ← readMark ':' text
  let (minute, text) ← readNumber 2 text
  let text ← readMark ':' text
  let (second, text) ← readNumber 2 text
  let (microsecond, text) ← readFraction text
  if hdate : 1 ≤ year ∧ (1 ≤ month ∧ month ≤ 12) ∧ 1 ≤ day ∧ day ≤ monthLength (leap year) month then
    if htime : hour < 24 ∧ minute < 60 ∧ second < 60 ∧ microsecond < 1000000 then
      let stamp : Timestamp :=
        { date := ⟨year, month, day, hdate.1, hdate.2.1, hdate.2.2⟩
          hour := hour
          minute := minute
          second := second
          microsecond := microsecond
          hour_lt := htime.1
          minute_lt := htime.2.1
          second_lt := htime.2.2.1
          microsecond_lt := htime.2.2.2 }
      if text = [] then some (stamp, false) else if text = ['Z'] then some (stamp, true) else none
    else none
  else none

theorem readNumber_padded {width n : Nat} (hpos : 0 < width) (h : n < 10 ^ width)
    (rest : List Char) : readNumber width (padded width n ++ rest) = some (n, rest) := by
  have hlength := length_padded hpos h
  have htake : (padded width n ++ rest).take width = padded width n := by
    rw [List.take_append_of_le_length hlength.ge, List.take_of_length_le hlength.le]
  have hdrop : (padded width n ++ rest).drop width = rest := by
    rw [List.drop_append_of_le_length hlength.ge, List.drop_of_length_le hlength.le, List.nil_append]
  have hfits : width ≤ (padded width n ++ rest).length := by
    rw [List.length_append, hlength]
    exact Nat.le_add_right _ _
  rw [readNumber, htake, hdrop, if_pos ⟨hfits, List.all_eq_true.mpr (isDigit_padded width n)⟩,
    ofDigitChars_padded]

theorem readMark_cons (mark : Char) (text : List Char) :
    readMark mark (mark :: text) = some text := if_pos rfl

theorem readFraction_none {rest : List Char} (h : rest.head? ≠ some '.') :
    readFraction rest = some (0, rest) := if_neg h

theorem readFraction_padded {n : Nat} (h : n < 1000000) {rest : List Char}
    (hrest : ∀ c ∈ rest.head?, c.isDigit = false) :
    readFraction ('.' :: padded 6 n ++ rest) = some (n, rest) := by
  have hspan := Decimal.span_digits (isDigit_padded 6 n) hrest
  rw [List.span_eq_takeWhile_dropWhile, Prod.mk.injEq] at hspan
  have hlength : (padded 6 n).length = 6 := length_padded (by decide) h
  rw [readFraction, List.cons_append, List.head?_cons, if_pos rfl, List.tail_cons, hspan.1, hspan.2]
  simp only [hlength, ofDigitChars_padded]
  rw [if_pos (by decide), Nat.sub_self, Nat.pow_zero, Nat.mul_one]

/-- What follows the seconds, up to the end of the text. -/
theorem readFraction_isoformat {n : Nat} (h : n < 1000000) (utc : Bool) :
    readFraction ((if n = 0 then [] else '.' :: padded 6 n) ++ if utc then ['Z'] else [])
      = some (n, if utc then ['Z'] else []) := by
  split
  · next hzero =>
      rw [hzero, List.nil_append]
      apply readFraction_none
      cases utc <;> decide
  · apply readFraction_padded h
    cases utc <;> simp

/-- **The text of a timestamp reads back as the timestamp**, in the years that have four digits. -/
theorem read_isoformat {stamp : Timestamp} (h : stamp.date.year < 10000) (utc : Bool) :
    read (stamp.isoformat ++ if utc then ['Z'] else []) = some (stamp, utc) := by
  obtain ⟨⟨year, month, day, hyear, hmonth, hday⟩, hour, minute, second, microsecond, hhour, hminute,
    hsecond, hmicrosecond⟩ := stamp
  have hlength : monthLength (leap year) month ≤ 31 := by
    unfold monthLength
    split_ifs <;> decide
  have hfour : ∀ rest, readNumber 4 (padded 4 year ++ rest) = some (year, rest) :=
    readNumber_padded (by decide) h
  have htwo : ∀ {n : Nat}, n < 100 → ∀ rest, readNumber 2 (padded 2 n ++ rest) = some (n, rest) :=
    fun hn => readNumber_padded (by decide) hn
  simp only [read, isoformat, List.append_assoc, List.cons_append, bind, Option.bind,
    hfour, htwo (show month < 100 by omega), htwo (show day < 100 by omega),
    htwo (show hour < 100 by omega), htwo (show minute < 100 by omega),
    htwo (show second < 100 by omega), readMark_cons, readFraction_isoformat hmicrosecond]
  rw [dif_pos ⟨hyear, hmonth, hday⟩, dif_pos ⟨hhour, hminute, hsecond, hmicrosecond⟩]
  cases utc <;> simp

end Timestamp

end Calendar
