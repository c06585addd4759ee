import MetricHistory.Calendar.Date
import MetricHistory.Sample.Recording

/-!
## Fixtures

Small histories of January 2024, known by name.  Each shows one thing: revisions without a
measurement, a merge, a bucket boundary that is crossed, a cycle.
-/

namespace MetricHistory.Fixture

/-- The given hour of a day of January 2024. -/
def january (day hour : Nat) : Instant :=
  let hours := 24 * Date.toDay { year := 2024, month := 1, day } + hour
  (Instant.ofParts? (3600 * hours) 0).getD .epoch

/-- Three measured revisions in a row. -/
def chain : Recording :=
  Recording.ofRepo "repo"
    |>.addPoint "A" [] (january 1 10) 1.0
    |>.addPoint "B" ["A"] (january 1 12) 2.0
    |>.addPoint "C" ["B"] (january 1 14) 3.0

/-- Three measured revisions with unmeasured ones between them. -/
def sparseChain : Recording :=
  Recording.ofRepo "repo"
    |>.addPoint "A" [] (january 1 9) 10.0
    |>.addRevision "u1" ["A"]
    |>.addRevision "u2" ["u1"]
    |>.addPoint "C" ["u2"] (january 1 15) 12.0
    |>.addRevision "u3" ["C"]
    |>.addPoint "E" ["u3"] (january 2 9) 11.0

/-- Two branches that meet in an unmeasured merge. -/
def merge : Recording :=
  Recording.ofRepo "repo"
    |>.addPoint "base" [] (january 3 8) 5.0
    |>.addRevision "left-1" ["base"]
    |>.addPoint "left" ["left-1"] (january 3 10) 7.0
    |>.addRevision "right-1" ["base"]
    |>.addPoint "right" ["right-1"] (january 3 11) 4.0
    |>.addRevision "merge-1" ["left", "right"]
    |>.addPoint "merged" ["merge-1"] (january 3 16) 6.0

/-- Four measured revisions around the end of a week. -/
def weekBoundary : Recording :=
  Recording.ofRepo "repo"
    |>.addPoint "sun-1" [] (january 7 20) 1.0
    |>.addPoint "sun-2" ["sun-1"] (january 7 22) 2.0
    |>.addPoint "mon-1" ["sun-2"] (january 8 1) 3.0
    |>.addPoint "mon-2" ["mon-1"] (january 8 3) 4.0

/-- Two days that are joined by more than one edge. -/
def crossDay : Recording :=
  Recording.ofRepo "repo"
    |>.addPoint "a1" [] (january 1 10) 1.0
    |>.addPoint "a2" ["a1"] (january 1 11) 3.0
    |>.addPoint "b1" ["a1"] (january 2 10) 5.0
    |>.addPoint "b2" ["a2", "b1"] (january 2 11) 7.0

/-- Two unmeasured revisions that are ancestors of each other. -/
def cycle : Recording :=
  Recording.ofRepo "repo"
    |>.addPoint "A" [] (january 1 1) 1.0
    |>.addRevision "B" ["A", "D"]
    |>.addRevision "D" ["B"]
    |>.addPoint "C" ["D"] (january 1 2) 2.0

/-- Every fixture with its name. -/
def all : List (String × Recording) :=
  [("chain", chain), ("sparse-chain", sparseChain), ("merge", merge),
    ("week-boundary", weekBoundary), ("cross-day", crossDay), ("cycle", cycle)]

/-- The names of the fixtures. -/
def names : List String :=
  all.map (·.1)

/-- The fixture of that name. -/
def ofName? (name : String) : Option History :=
  (all.find? (·.1 == name)).map (·.2.history)

end MetricHistory.Fixture
