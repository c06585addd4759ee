import MetricHistory.Ancestry.MinimalEdges
import MetricHistory.Segment

/-!
## Reports

What is shown of a history: its points with the lines between them, or its components as candles
with the links between them.

* `History.pointsView`, `History.candlesView`: the two views.
* `History.candlesView?`: the candles, unless the middle of one lies out of range.
* `Report`: which view is wanted, and the bucket size of the candles; `Report.render`,
  `Report.render?`.
-/

namespace MetricHistory

/-- The two ways to show a history. -/
inductive ViewMode where
  | points
  | candles
deriving DecidableEq, Repr

namespace ViewMode

/-- Points, unless candles are asked for. -/
instance : Inhabited ViewMode := ⟨points⟩

/-- Every view mode. -/
def all : List ViewMode := [points, candles]

/-- The name of a view mode. -/
def name : ViewMode → String
  | points => "points"
  | candles => "candles"

/-- The view mode of that name.  Names are compared exactly. -/
def ofName (text : String) : Except Fault ViewMode :=
  match all.find? (·.name == text) with
  | some mode => .ok mode
  | none =>
    .error (.invalidArgument ("unknown view mode '" ++ text ++ "' (expected points or candles)"))

/-- A view mode is found by its name. -/
theorem ofName_name (mode : ViewMode) : ofName mode.name = .ok mode := by
  cases mode <;> simp [ofName, all, name]

/-- The view mode of that name, or points when there is no such name or none is given. -/
def ofNameOrPoints : Option String → ViewMode
  | none => default
  | some text => (ofName text).toOption.getD default

end ViewMode

/-- The minimal edges of a history, and the lines between its points. -/
structure PointsView where
  minimalEdges : List MinimalEdge
  segments : List Segment

/-- The components of a history as candles, and the links between them. -/
structure CandlesView where
  bucketSize : BucketSize
  minimalEdges : List MinimalEdge
  partition : Partition
  candles : List Candle
  links : List Segment

/-- One of the two views. -/
inductive View where
  | points (view : PointsView)
  | candles (view : CandlesView)

namespace History

/-- A history as points. -/
def pointsView (h : History) : PointsView :=
  let minimalEdges := h.minimalEdges
  { minimalEdges, segments := Segment.ofEdges h.points minimalEdges }

/-- A history as candles, in buckets of the given size. -/
def candlesView (h : History) (bucketSize : BucketSize) : CandlesView :=
  let minimalEdges := h.minimalEdges
  let partition := Partition.ofPoints bucketSize h.points minimalEdges
  let candles := Candle.ofComponents h.points partition.components.toList
  { bucketSize, minimalEdges, partition, candles
    links := Segment.ofLinks minimalEdges partition candles }

/-- A history as candles, unless the middle of one lies out of range. -/
def candlesView? (h : History) (bucketSize : BucketSize) : Option CandlesView := do
  let minimalEdges := h.minimalEdges
  let partition := Partition.ofPoints bucketSize h.points minimalEdges
  let candles ← Candle.ofComponents? h.points partition.components.toList
  pure
    { bucketSize, minimalEdges, partition, candles
      links := Segment.ofLinks minimalEdges partition candles }

end History

/-- What a report shows. -/
structure Report where
  bucketSize : BucketSize
  viewMode : ViewMode
deriving DecidableEq, Repr, Inhabited

namespace Report

/-- The report with another bucket size. -/
def withBucketSize (r : Report) (bucketSize : BucketSize) : Report :=
  { r with bucketSize }

/-- The report with the bucket size of that name. -/
def withBucketSizeNamed (r : Report) (name : String) : Except Fault Report :=
  (BucketSize.ofName name).map r.withBucketSize

/-- The report with another view mode. -/
def withViewMode (r : Report) (viewMode : ViewMode) : Report :=
  { r with viewMode }

/-- The view of a history that the report asks for. -/
def render (r : Report) (h : History) : View :=
  match r.viewMode with
  | .points => .points h.pointsView
  | .candles => .candles (h.candlesView r.bucketSize)

/-- The view that the report asks for, unless it needs a candle whose middle lies out of range. -/
def render? (r : Report) (h : History) : Option View :=
  match r.viewMode with
  | .points => some (.points h.pointsView)
  | .candles => (h.candlesView? r.bucketSize).map .candles

end Report

end MetricHistory
