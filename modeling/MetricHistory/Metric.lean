import MetricHistory.Text.Blank

/-!
## Metrics

What can be measured, and the choice of one metric from a list.

* `Metric.caption`: how a metric is called before a reader.
* `Metric.numeric`, `Metric.byName`: the metrics that can be drawn, and their order in a menu.
* `Metric.choose`: the metric to show first.
-/

namespace MetricHistory

/-- A metric that a repository records. -/
structure Metric where
  name : String
  description : Option String
  unit : Option String
  physicalType : String
deriving DecidableEq, Repr, Inhabited

namespace Metric

/-- Whether the values are numbers. -/
def isNumeric (m : Metric) : Bool :=
  m.physicalType == "DOUBLE" || m.physicalType == "BIGINT"

/-- The name, and the unit in brackets unless it is blank. -/
def caption (m : Metric) : String :=
  match m.unit with
  | some unit => if Text.allBlank unit then m.name else m.name ++ " (" ++ unit ++ ")"
  | none => m.name

/-- The metrics whose values are numbers. -/
def numeric (metrics : List Metric) : List Metric :=
  metrics.filter isNumeric

/-- The metrics in the order of their names, by code points.  Metrics of one name keep their
order. -/
def byName (metrics : List Metric) : List Metric :=
  metrics.mergeSort fun a b => decide (a.name ≤ b.name)

/-- The least of some names, by code points. -/
def leastName : List String → Option String
  | [] => none
  | name :: rest => some (rest.foldl (fun least name => if name < least then name else least) name)

/-- The name of the metric to show: the one shown before, as long as there is a metric of that name,
and otherwise the least of all names. -/
def choose (metrics : List Metric) (previous : Option String) : Option String :=
  match previous with
  | some name =>
    if metrics.any (·.name == name) then some name else leastName (metrics.map (·.name))
  | none => leastName (metrics.map (·.name))

end Metric

end MetricHistory
