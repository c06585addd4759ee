/-!
## Dates

The proleptic Gregorian calendar, over all years: year 0 exists, and years before it are negative.
A day is counted from 1970-01-01, which is day 0.

* `yearStart`: the day on which a year begins, in closed form.
* `Date.ofDay`, `Date.toDay`: the date of a day, and the day of a date.
* `yearOf_spec`: a day lies between the start of its year and the start of the next.
* `Week.ofDay`: the week of a day, numbered within the year that holds its Thursday.
-/

namespace MetricHistory

/-- A leap year is divisible by four, but a century only when divisible by four hundred. -/
def isLeapYear (year : Int) : Bool :=
  year % 4 == 0 && (year % 100 != 0 || year % 400 == 0)

/-- The day on which `year` begins: 365 days for each year since 1970, and one more for each leap
year passed, of which there were 477 from year 1 to 1969. -/
def yearStart (year : Int) : Int :=
  365 * (year - 1970) + ((year - 1) / 4 - (year - 1) / 100 + (year - 1) / 400) - 477

/-- The year that holds `day`.  Four hundred years are 146097 days, and the year estimated from that
average is at most one off. -/
def yearOf (day : Int) : Int :=
  -- 0001-01-01 lies 719162 days before day 0
  let guess := 400 * (day + 719162) / 146097 + 1
  if day < yearStart guess then guess - 1
  else if yearStart (guess + 1) ≤ day then guess + 1
  else guess

/-- The lengths of the twelve months of `year`. -/
def monthLengths (year : Int) : List Nat :=
  [31, if isLeapYear year then 29 else 28, 31, 30, 31, 30, 31, 31, 30, 31, 30, 31]

/-- A year is as long as its months together. -/
theorem yearStart_succ (year : Int) :
    yearStart (year + 1) = yearStart year + ((monthLengths year).foldr (· + ·) 0 : Nat) := by
  unfold yearStart monthLengths isLeapYear
  by_cases h4 : year % 4 = 0 <;> by_cases h100 : year % 100 = 0 <;>
    by_cases h400 : year % 400 = 0 <;> simp [h4, h100, h400] <;> omega

/-- A day lies between the start of its year and the start of the next. -/
theorem yearOf_spec (day : Int) :
    yearStart (yearOf day) ≤ day ∧ day < yearStart (yearOf day + 1) := by
  unfold yearOf
  dsimp only
  split
  · next h => unfold yearStart at *; omega
  · split
    · next h h' => unfold yearStart at *; omega
    · next h h' => omega

/-- A date of the calendar.  Months and days count from 1. -/
structure Date where
  year : Int
  month : Nat
  day : Nat
deriving DecidableEq, Repr

/-- The position of the `n`-th day in a run of months with the given lengths: how many whole months
come before it, and how many days of its own month. -/
def locateDay : List Nat → Nat → Nat × Nat
  | [], n => (0, n)
  | len :: rest, n =>
    if n < len then (0, n)
    else
      let (months, days) := locateDay rest (n - len)
      (months + 1, days)

namespace Date

/-- Whether the month exists and has that day. -/
def isValid (d : Date) : Bool :=
  1 ≤ d.month && 1 ≤ d.day && d.day ≤ (monthLengths d.year).getD (d.month - 1) 0

/-- The date of `day`. -/
def ofDay (day : Int) : Date :=
  let year := yearOf day
  let (months, days) := locateDay (monthLengths year) (day - yearStart year).toNat
  { year, month := months + 1, day := days + 1 }

/-- The day of a date. -/
def toDay (d : Date) : Int :=
  let before : Nat := ((monthLengths d.year).take (d.month - 1)).foldr (· + ·) 0
  yearStart d.year + before + d.day - 1

end Date

/-- A week from Monday to Sunday.  It belongs to the year that holds its Thursday, and is numbered
from 1 within that year. -/
structure Week where
  year : Int
  number : Int
deriving DecidableEq, Repr

namespace Week

/-- The Thursday of the week that holds `day`.  Day 0 was a Thursday, so `(day + 3) % 7` counts the
days since Monday. -/
def thursday (day : Int) : Int :=
  day - (day + 3) % 7 + 3

/-- The week of `day`. -/
def ofDay (day : Int) : Week :=
  let year := yearOf (thursday day)
  { year, number := (thursday day - yearStart year) / 7 + 1 }

end Week

end MetricHistory
