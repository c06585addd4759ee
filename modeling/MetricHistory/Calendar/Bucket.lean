import MetricHistory.Calendar.Date
import MetricHistory.Calendar.Instant
import MetricHistory.Fault
import MetricHistory.Text.Digits

/-!
## Calendar buckets

Instants are grouped by day, week or month of universal time, and each group is named by a key.

* `BucketSize`: the three sizes and their names.
* `BucketSize.key`: the key of the bucket that an instant falls in.
-/

namespace MetricHistory

/-- How long a calendar bucket is. -/
inductive BucketSize where
  | day
  | week
  | month
deriving DecidableEq, Repr

namespace BucketSize

/-- A day, unless something else is asked for. -/
instance : Inhabited BucketSize := ⟨day⟩

/-- Every size, from short to long. -/
def all : List BucketSize := [day, week, month]

/-- The name of a size. -/
def name : BucketSize → String
  | day => "day"
  | week => "week"
  | month => "month"

/-- The size of that name.  Names are compared exactly. -/
def ofName (text : String) : Except Fault BucketSize :=
  match all.find? (·.name == text) with
  | some size => .ok size
  | none =>
    .error (.invalidArgument ("unknown bucket size '" ++ text ++ "' (expected day, week or month)"))

/-- A size is found by its name. -/
theorem ofName_name (size : BucketSize) : ofName size.name = .ok size := by
  cases size <;> simp [ofName, all, name]

/-- The size of that name, or a day when there is no such name or none is given. -/
def ofNameOrDay : Option String → BucketSize
  | none => default
  | some text => (ofName text).toOption.getD default

end BucketSize

open MetricHistory.Text

/-- The key of a date: year, month and day. -/
def dayKey (date : Date) : List Char :=
  Digits.signed 4 date.year ++ '-' :: Digits.padded 2 date.month ++ '-' :: Digits.padded 2 date.day

/-- The key of a week: the year that it belongs to and its number there. -/
def weekKey (week : Week) : List Char :=
  Digits.signed 4 week.year ++ '-' :: 'W' :: Digits.signed 2 week.number

/-- The key of the month of a date: year and month. -/
def monthKey (date : Date) : List Char :=
  Digits.signed 4 date.year ++ '-' :: Digits.padded 2 date.month

/-- The key of the calendar bucket that holds `t`. -/
def BucketSize.key (size : BucketSize) (t : Instant) : String :=
  String.ofList <|
    match size with
    | .day => dayKey (Date.ofDay t.day)
    | .week => weekKey (Week.ofDay t.day)
    | .month => monthKey (Date.ofDay t.day)

end MetricHistory
