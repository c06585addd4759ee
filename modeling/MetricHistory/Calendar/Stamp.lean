import MetricHistory.Calendar.Date
import MetricHistory.Calendar.Instant
import MetricHistory.Text.Blank
import MetricHistory.Text.Digits

/-!
## Timestamps

The text of an instant: date, `T`, time of day, and `Z` for universal time.

* `Instant.toText` writes one form for each instant: as few groups of three fraction digits as hold
  the nanoseconds, a sign on years outside 0 to 9999, and within a leap second the number of the
  second after it, which is 60 at the end of a minute.
* `Instant.ofText?` reads that form and many looser ones: white space around every part, single
  digits, a space for the `T`, any fraction, and any offset from universal time below 24 hours.
-/

namespace MetricHistory.Instant

open MetricHistory.Text

/-! ### Writing -/

/-- A year: four digits, or a sign and at least four digits outside 0 to 9999. -/
def yearText (year : Int) : List Char :=
  if 0 ≤ year && year ≤ 9999 then Digits.padded 4 year.natAbs
  else (if year < 0 then '-' else '+') :: Digits.padded 4 year.natAbs

/-- The nanoseconds of a second as a fraction of nothing, three, six or nine digits. -/
def fractionText (nano : Nat) : List Char :=
  if nano = 0 then []
  else if nano % 1000000 = 0 then '.' :: Digits.padded 3 (nano / 1000000)
  else if nano % 1000 = 0 then '.' :: Digits.padded 6 (nano / 1000)
  else '.' :: Digits.padded 9 nano

/-- A date as year, month and day. -/
def dateText (date : Date) : List Char :=
  yearText date.year ++ '-' :: Digits.padded 2 date.month ++ '-' :: Digits.padded 2 date.day

/-- The characters of the text of an instant. -/
def chars (t : Instant) : List Char :=
  dateText (Date.ofDay t.day) ++ 'T' :: Digits.padded 2 (t.clock / 3600) ++
    ':' :: Digits.padded 2 (t.clock / 60 % 60) ++
    ':' :: Digits.padded 2 (t.clock % 60 + if t.isLeap then 1 else 0) ++
    fractionText (t.nano % nanosPerSecond) ++ ['Z']

/-- The text of an instant in universal time. -/
def toText (t : Instant) : String :=
  String.ofList t.chars

/-! ### Reading -/

/-- The text after the character `c`, when it starts with it. -/
def skip? (c : Char) : List Char → Option (List Char)
  | [] => none
  | d :: rest => if d = c then some rest else none

/-- A year: one to four digits, or a sign and any number of digits. -/
def takeYear? (text : List Char) : Option (Int × List Char) :=
  match text with
  | '+' :: rest => (Digits.take? rest.length rest).map fun (n, rest) => ((n : Int), rest)
  | '-' :: rest => (Digits.take? rest.length rest).map fun (n, rest) => (-(n : Int), rest)
  | _ => (Digits.take? 4 text).map fun (n, rest) => ((n : Int), rest)

/-- The mark between date and time: a `T` of either case, or one space. -/
def takeMark? : List Char → Option (List Char)
  | 'T' :: rest | 't' :: rest | ' ' :: rest => some rest
  | _ => none

/-- A fraction of a second in nanoseconds.  Without a point there is none; digits after the ninth
are dropped. -/
def takeFraction? : List Char → Option (Nat × List Char)
  | '.' :: rest =>
    let (digits, rest) := Digits.span rest
    if digits.isEmpty then none
    else
      let kept := digits.take 9
      some (Digits.value kept * Nat.pow 10 (9 - kept.length), rest)
  | text => some (0, text)

/-- Hours and minutes of an offset, in minutes; colons and white space may part them. -/
def takeOffset? (text : List Char) : Option (Nat × List Char) := do
  let (hours, text) ← Digits.takeExactly? 2 text
  let (minutes, text) ← Digits.takeExactly? 2 (text.dropWhile fun c => c = ':' || isBlank c)
  if hours ≤ 23 && minutes ≤ 59 then some (60 * hours + minutes, text) else none

/-- A time zone as minutes ahead of universal time. -/
def takeZone? (text : List Char) : Option (Int × List Char) :=
  match text with
  | 'Z' :: rest | 'z' :: rest => some (0, rest)
  | '+' :: rest => (takeOffset? rest).map fun (n, rest) => ((n : Int), rest)
  | '-' :: rest | '−' :: rest => (takeOffset? rest).map fun (n, rest) => (-(n : Int), rest)
  | u :: t :: c :: rest =>
    if u.toLower = 'u' && t.toLower = 't' && c.toLower = 'c' then some (0, rest) else none
  | _ => none

/-- A number of one or two digits after white space. -/
def takeField? (text : List Char) : Option (Nat × List Char) :=
  Digits.take? 2 (dropBlanks text)

/-- A date: year, month and day, parted by hyphens. -/
def takeDate? (text : List Char) : Option (Date × List Char) := do
  let (year, text) ← takeYear? (dropBlanks text)
  let text ← skip? '-' (dropBlanks text)
  let (month, text) ← takeField? text
  let text ← skip? '-' (dropBlanks text)
  let (day, text) ← takeField? text
  let date : Date := { year, month, day }
  if date.isValid then some (date, text) else none

/-- A time of day: the second of the day and the nanoseconds, which hold a leap second when the
second is written 60. -/
def takeTime? (text : List Char) : Option ((Nat × Nat) × List Char) := do
  let (hour, text) ← takeField? text
  let text ← skip? ':' (dropBlanks text)
  let (minute, text) ← takeField? text
  let text ← skip? ':' (dropBlanks text)
  let (second, text) ← takeField? text
  let (nano, text) ← takeFraction? text
  if hour ≤ 23 && minute ≤ 59 && second ≤ 60 then
    some ((3600 * hour + 60 * minute + min second 59,
      if second = 60 then nanosPerSecond + nano else nano), text)
  else none

/-- The instant that a timestamp stands for.  Both the local time and the universal time have to
lie within the range of instants. -/
def ofChars? (text : List Char) : Option Instant := do
  let (date, text) ← takeDate? text
  let text ← takeMark? text
  let ((clock, nano), text) ← takeTime? text
  let (ahead, text) ← takeZone? (dropBlanks text)
  if (dropBlanks text).isEmpty then
    let localTime ← ofParts? (date.toDay * secondsPerDay + clock) nano
    ofParts? (localTime.second - 60 * ahead) nano
  else none

/-- The instant that a timestamp stands for, if the text is one. -/
def ofText? (text : String) : Option Instant :=
  ofChars? text.toList

end MetricHistory.Instant
