import MetricHistory.Candle
import Std.Data.TreeSet

/-!
## Segments

The lines of a drawing: one for each minimal edge between points, or one for each pair of components
that minimal edges join.

* `Segment.ofEdges`: from the point of each parent to the point of its child.
* `Segment.ofLinks`: from the candle of each component to those of the components that follow it.
-/

namespace MetricHistory

/-- A line from one instant and value to another. -/
structure Segment where
  x1 : Instant
  y1 : Float
  x2 : Instant
  y2 : Float
deriving DecidableEq, Inhabited

namespace Segment

/-- Pairs of texts are ordered by their first parts, and by their second parts where those agree. -/
instance : Ord (String × String) := lexOrd

/-- The line between two points. -/
def ofPoints (a b : Point) : Segment :=
  { x1 := a.time, y1 := a.value, x2 := b.time, y2 := b.value }

/-- The line between the middles of two candles. -/
def ofCandles (a b : Candle) : Segment :=
  { x1 := a.x, y1 := a.bodyMiddle, x2 := b.x, y2 := b.bodyMiddle }

/-- The lines of the minimal edges whose ends both have a point. -/
def ofEdges (points : List Point) (edges : List MinimalEdge) : List Segment :=
  let last := lastPoints points
  edges.filterMap fun e =>
    match last[e.parent]?, last[e.child]? with
    | some parent, some child => some (ofPoints parent child)
    | _, _ => none

/-- The components that an edge joins, by their ids: that of the parent and that of the child.  An
edge within one component joins none. -/
def joined? (partition : Partition) (e : MinimalEdge) : Option (String × String) :=
  match partition.idOf? e.parent, partition.idOf? e.child with
  | some a, some b => if a = b then none else some (a, b)
  | _, _ => none

/-- The last candle of each component id. -/
def lastCandles (candles : List Candle) : Std.TreeMap String Candle :=
  candles.foldl (fun table c => table.insert c.componentId c) ∅

/-- Lines drawn so far, and the pairs of components that have one. -/
structure Drawing where
  seen : Std.TreeSet (String × String)
  lines : Array Segment

/-- Draws the line of an edge, unless the edge joins no components, these have a line already, or
one of them has no candle.  Only a pair with a line counts as seen. -/
def Drawing.add (partition : Partition) (last : Std.TreeMap String Candle) (d : Drawing)
    (e : MinimalEdge) : Drawing :=
  match d with
  | ⟨seen, lines⟩ =>
    match joined? partition e with
    | none => ⟨seen, lines⟩
    | some (a, b) =>
      if (a, b) ∈ seen then ⟨seen, lines⟩
      else
        match last[a]?, last[b]? with
        | some parent, some child => ⟨seen.insert (a, b), lines.push (ofCandles parent child)⟩
        | _, _ => ⟨seen, lines⟩

/-- The lines between the components that minimal edges join.  A pair of components has one line,
however many edges join it, and pairs are listed as their first edges are; a pair without both
candles has none. -/
def ofLinks (edges : List MinimalEdge) (partition : Partition) (candles : List Candle) :
    List Segment :=
  let last := lastCandles candles
  (edges.foldl (Drawing.add partition last) { seen := ∅, lines := #[] }).lines.toList

end Segment

end MetricHistory
