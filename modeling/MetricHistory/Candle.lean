import MetricHistory.Component

/-!
## Candles

A component in five numbers: where it lies in time, the values at its beginning and its end, and
the extremes between.

* `Candle.ofComponent`: the candle of one component.
* `Candle.ofComponents`: the candles of a list of components, in their order.
* `Candle.ofComponents?`: the same, unless the middle of a candle lies out of range.
-/

namespace MetricHistory

/-- The smaller of two values.  A value that is not a number gives way to one that is. -/
def smallerValue (a b : Float) : Float :=
  if a.isNaN then b else if b.isNaN then a else if b < a then b else a

/-- The larger of two values.  A value that is not a number gives way to one that is. -/
def largerValue (a b : Float) : Float :=
  if a.isNaN then b else if b.isNaN then a else if a < b then b else a

/-- The values of a component over time. -/
structure Candle where
  bucket : String
  componentId : String
  /-- The middle between the earliest and the latest member. -/
  x : Instant
  /-- The value of the earliest member. -/
  opening : Float
  /-- The value of the latest member. -/
  closing : Float
  low : Float
  high : Float
deriving DecidableEq, Inhabited

namespace Candle

/-- The middle of the body, between the first value and the last. -/
def bodyMiddle (c : Candle) : Float :=
  (c.opening + c.closing) / 2.0

/-- The points of a component in the order of time.  Members at the same time keep their order, and
members without a point are left out. -/
def sortedPoints (last : Std.TreeMap String Point) (c : Component) : List Point :=
  (c.members.filterMap (last[·]?)).mergeSort fun a b => a.time.le b.time

/-- The candle of a component.  One without a point has all values zero, at the epoch. -/
def ofComponent (last : Std.TreeMap String Point) (c : Component) : Candle :=
  match sortedPoints last c with
  | [] =>
    { bucket := c.bucket, componentId := c.id, x := .epoch
      opening := 0.0, closing := 0.0, low := 0.0, high := 0.0 }
  | first :: rest =>
    -- a component with one point begins and ends with it
    let latest := rest.getLastD first
    { bucket := c.bucket
      componentId := c.id
      x := first.time.midpoint latest.time
      opening := first.value
      closing := latest.value
      low := rest.foldl (fun low p => smallerValue low p.value) first.value
      high := rest.foldl (fun high p => largerValue high p.value) first.value }

/-- The candle of each component, in the order of the components. -/
def ofComponents (points : List Point) (components : List Component) : List Candle :=
  let last := lastPoints points
  components.map (ofComponent last)

/-- The middle between the earliest and the latest point of a component, unless it lies out of
range, and the epoch where there is no point. -/
def middle? (last : Std.TreeMap String Point) (c : Component) : Option Instant :=
  match sortedPoints last c with
  | [] => some .epoch
  | first :: rest => first.time.midpoint? (rest.getLastD first).time

/-- The candle of a component, unless its middle lies out of range. -/
def ofComponent? (last : Std.TreeMap String Point) (c : Component) : Option Candle :=
  (middle? last c).map fun x => { ofComponent last c with x }

/-- The candle of each component, unless the middle of one lies out of range. -/
def ofComponents? (points : List Point) (components : List Component) : Option (List Candle) :=
  let last := lastPoints points
  components.mapM (ofComponent? last)

end Candle

end MetricHistory
