import Mathlib.Algebra.Order.Group.Int
import Mathlib.Data.Nat.Init

/-!
# The Gregorian calendar

Dates from the first day of year 1 on, as if the Gregorian rules had always held, and the days
counted from there. A date comes with its validity, so that dates and days are in bijection.
-/

namespace Calendar

def IsLeap (year : Nat) : Prop := year % 4 = 0 ∧ (year % 100 ≠ 0 ∨ year % 400 = 0)

instance (year : Nat) : Decidable (IsLeap year) := inferInstanceAs (Decidable (_ ∧ _))

/-- The lengths of the months of a common year or of a leap year. -/
def monthLength (leap : Bool) (month : Nat) : Nat :=
  if month = 2 then (if leap then 29 else 28)
  else if month = 4 ∨ month = 6 ∨ month = 9 ∨ month = 11 then 30 else 31

/-- Days of the months before this one. -/
def daysBefore (leap : Bool) (month : Nat) : Nat :=
  [0, 0, 31, 59, 90, 120, 151, 181, 212, 243, 273, 304, 334].getD month 365
    + (if 2 < month ∧ leap then 1 else 0)

def yearLength (leap : Bool) : Nat := if leap then 366 else 365

def leap (year : Nat) : Bool := decide (IsLeap year)

/-- Days of the years before this one. -/
def daysBeforeYear (year : Nat) : Nat :=
  (year - 1) * 365 + (year - 1) / 4 - (year - 1) / 100 + (year - 1) / 400

structure Date where
  year : Nat
  month : Nat
  day : Nat
  year_pos : 1 ≤ year
  month_mem : 1 ≤ month ∧ month ≤ 12
  day_mem : 1 ≤ day ∧ day ≤ monthLength (leap year) month

/-! ### Years in cycles

Four hundred years, a century, four years and a year each have a fixed number of days, except that
the last of its kind may differ by a day. -/

theorem daysBeforeYear_cycles (cycle : Nat) {century leaps years : Nat} (hcentury : century ≤ 3)
    (hleaps : leaps ≤ 24) (hyears : years ≤ 3) :
    daysBeforeYear (400 * cycle + 100 * century + 4 * leaps + years + 1)
      = 146097 * cycle + 36524 * century + 1461 * leaps + 365 * years := by
  rw [daysBeforeYear, Nat.add_sub_cancel]
  have hfour : (400 * cycle + 100 * century + 4 * leaps + years) / 4
      = 100 * cycle + 25 * century + leaps := by omega
  have hhundred : (400 * cycle + 100 * century + 4 * leaps + years) / 100
      = 4 * cycle + century := by omega
  have hcycle : (400 * cycle + 100 * century + 4 * leaps + years) / 400 = cycle := by omega
  rw [hfour, hhundred, hcycle]
  omega

theorem leap_cycles (cycle : Nat) {century leaps years : Nat} (hcentury : century ≤ 3)
    (hleaps : leaps ≤ 24) (hyears : years ≤ 3) :
    leap (400 * cycle + 100 * century + 4 * leaps + years + 1)
      = decide (years = 3 ∧ (leaps ≠ 24 ∨ century = 3)) := by
  rw [leap, decide_eq_decide, IsLeap]
  have hfour : (400 * cycle + 100 * century + 4 * leaps + years + 1) % 4 = 0 ↔ years = 3 := by
    omega
  have hhundred : (400 * cycle + 100 * century + 4 * leaps + years + 1) % 100 ≠ 0
      ↔ 4 * leaps + years ≠ 99 := by omega
  have hcycle : (400 * cycle + 100 * century + 4 * leaps + years + 1) % 400 = 0
      ↔ 100 * century + 4 * leaps + years = 399 := by omega
  rw [hfour, hhundred, hcycle]
  omega

/-- A year adds a day to its 365 where it is the fourth, unless it is the hundredth, unless it is the
four hundredth. -/
theorem daysBeforeYear_succ {year : Nat} (h : 1 ≤ year) :
    daysBeforeYear (year + 1) = daysBeforeYear year + yearLength (leap year) := by
  obtain ⟨before, rfl⟩ := Nat.exists_eq_add_of_le' h
  simp only [daysBeforeYear, yearLength, leap, IsLeap, Nat.add_sub_cancel, Nat.succ_div,
    Nat.dvd_iff_mod_eq_zero]
  by_cases hfour : (before + 1) % 4 = 0
  · by_cases hhundred : (before + 1) % 100 = 0
    · by_cases hcycle : (before + 1) % 400 = 0
      · simp only [hfour, hhundred, hcycle, if_true, ne_eq, not_true, or_true, and_true, decide_true]
        omega
      · simp only [hfour, hhundred, hcycle, if_true, if_false, ne_eq, not_true, or_false, and_false,
          decide_false, Bool.false_eq_true]
        omega
    · have hcycle : (before + 1) % 400 ≠ 0 := by omega
      simp only [hfour, hhundred, hcycle, if_true, if_false, ne_eq, not_false_iff, or_false,
        and_true, decide_true]
      omega
  · have hhundred : (before + 1) % 100 ≠ 0 := by omega
    have hcycle : (before + 1) % 400 ≠ 0 := by omega
    simp only [hfour, hhundred, hcycle, if_false, ne_eq, not_false_iff, or_false, and_true,
      decide_false, Bool.false_eq_true]
    omega

theorem daysBeforeYear_le {year later : Nat} (h : 1 ≤ year) (hlater : year < later) :
    daysBeforeYear year + yearLength (leap year) ≤ daysBeforeYear later := by
  induction later, hlater using Nat.le_induction with
  | base => exact Nat.le_of_eq (daysBeforeYear_succ h).symm
  | succ later hle ih =>
      rw [daysBeforeYear_succ (by omega)]
      omega

/-- The year of a day and the days of that year before it, both counted from the first day of
year 1. The last century of a cycle and the last year of four are cut at their ends. -/
def yearOf (n : Nat) : Nat × Nat :=
  let cycle := n / 146097
  let n := n % 146097
  let century := min (n / 36524) 3
  let n := n - 36524 * century
  let leaps := n / 1461
  let n := n % 1461
  let years := min (n / 365) 3
  (400 * cycle + 100 * century + 4 * leaps + years + 1, n - 365 * years)

theorem yearOf_spec (n : Nat) :
    1 ≤ (yearOf n).1 ∧ (yearOf n).2 < yearLength (leap (yearOf n).1)
      ∧ daysBeforeYear (yearOf n).1 + (yearOf n).2 = n := by
  simp only [yearOf]
  generalize hcycle : n / 146097 = cycle
  generalize hcentury : min (n % 146097 / 36524) 3 = century
  generalize hrest : n % 146097 - 36524 * century = rest
  generalize hleaps : rest / 1461 = leaps
  generalize hyears : min (rest % 1461 / 365) 3 = years
  have hrange : century ≤ 3 ∧ leaps ≤ 24 ∧ years ≤ 3 := by omega
  obtain ⟨hc, hl, hy⟩ := hrange
  rw [leap_cycles cycle hc hl hy, daysBeforeYear_cycles cycle hc hl hy, yearLength]
  refine ⟨by omega, ?_, by omega⟩
  split
  · omega
  · next hcommon =>
      rw [decide_eq_true_eq] at hcommon
      omega

/-! ### Months -/

/-- The month of a day of the year, counted from 0: one day in 32, and one back where that guess is
beyond the day. -/
def monthOf (leap : Bool) (n : Nat) : Nat :=
  if n < daysBefore leap ((n + 50) / 32) then (n + 50) / 32 - 1 else (n + 50) / 32

theorem monthOf_spec : ∀ leap : Bool, ∀ n < yearLength leap,
    (1 ≤ monthOf leap n ∧ monthOf leap n ≤ 12) ∧ daysBefore leap (monthOf leap n) ≤ n
      ∧ n < daysBefore leap (monthOf leap n) + monthLength leap (monthOf leap n) := by
  decide +kernel

theorem monthOf_day : ∀ leap : Bool, ∀ month < 13, 1 ≤ month → ∀ n < monthLength leap month,
    daysBefore leap month + n < yearLength leap
      ∧ monthOf leap (daysBefore leap month + n) = month := by
  decide +kernel

/-! ### Dates and days -/

namespace Date

/-- The days of the year before the date. -/
def dayOfYear (date : Date) : Nat := daysBefore (leap date.year) date.month + (date.day - 1)

/-- The days before the date, from the first day of year 1. -/
def days (date : Date) : Nat := daysBeforeYear date.year + date.dayOfYear

def ofDays (n : Nat) : Date :=
  let year := (yearOf n).1
  let rest := (yearOf n).2
  let month := monthOf (leap year) rest
  have hmonth := monthOf_spec (leap year) rest (yearOf_spec n).2.1
  { year := year
    month := month
    day := rest - daysBefore (leap year) month + 1
    year_pos := (yearOf_spec n).1
    month_mem := hmonth.1
    day_mem := ⟨Nat.le_add_left 1 _, Nat.sub_lt_left_of_lt_add hmonth.2.1 hmonth.2.2⟩ }

theorem days_ofDays (n : Nat) : (ofDays n).days = n := by
  have hmonth := monthOf_spec _ _ (yearOf_spec n).2.1
  have hyear := (yearOf_spec n).2.2
  simp only [days, dayOfYear, ofDays]
  omega

theorem dayOfYear_spec (date : Date) : date.dayOfYear < yearLength (leap date.year)
    ∧ monthOf (leap date.year) date.dayOfYear = date.month := by
  have hday := date.day_mem
  exact monthOf_day _ _ (by have := date.month_mem; omega) date.month_mem.1 _ (by omega)

/-- **The days count the dates.** -/
theorem days_injective {date date' : Date} (h : date.days = date'.days) : date = date' := by
  obtain ⟨hlt, hmonth⟩ := date.dayOfYear_spec
  obtain ⟨hlt', hmonth'⟩ := date'.dayOfYear_spec
  rw [days, days] at h
  have hyear : date.year = date'.year := by
    rcases Nat.lt_trichotomy date.year date'.year with hlt | heq | hlt
    · have := daysBeforeYear_le date.year_pos hlt
      omega
    · exact heq
    · have := daysBeforeYear_le date'.year_pos hlt
      omega
  have hrest : date.dayOfYear = date'.dayOfYear := by rw [hyear] at h; omega
  have hmonths : date.month = date'.month := by rw [← hmonth, ← hmonth', hyear, hrest]
  have hdays : date.day = date'.day := by
    rw [dayOfYear, dayOfYear, hyear, hmonths] at hrest
    have := date.day_mem
    have := date'.day_mem
    omega
  obtain ⟨year, month, day⟩ := date
  obtain ⟨year', month', day'⟩ := date'
  cases hyear
  cases hmonths
  cases hdays
  rfl

theorem ofDays_days (date : Date) : ofDays date.days = date :=
  days_injective (days_ofDays _)

end Date

end Calendar
