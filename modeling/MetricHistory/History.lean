import MetricHistory.Calendar.Instant
import Std.Data.TreeMap

/-!
## Histories

A history is what a metric is reported on: the revisions at which it was measured, and the edges
from each revision to its parents, whether measured or not.

* `Point`: one measurement; `ParentEdge`: one step back in the history.
* `MinimalEdge`: a measured revision and one of its nearest measured ancestors.
* `lastPoints`: the point that counts for each revision.  A revision measured more than once counts
  with its last point.
-/

namespace MetricHistory

/-- The value of the metric at one revision. -/
structure Point where
  repoId : String
  revId : String
  time : Instant
  value : Float
deriving DecidableEq, Inhabited

/-- A revision and one of its direct parents. -/
structure ParentEdge where
  child : String
  parent : String
deriving DecidableEq, Inhabited

/-- A measured revision and one of its nearest measured ancestors, the ancestor first. -/
structure MinimalEdge where
  parent : String
  child : String
deriving DecidableEq, Inhabited

/-- The points of a metric and the parents of the revisions, in the order in which they were
recorded. -/
structure History where
  points : List Point
  parents : List ParentEdge
deriving DecidableEq, Inhabited

/-- The last point of each revision. -/
def lastPoints (points : List Point) : Std.TreeMap String Point :=
  points.foldl (fun table p => table.insert p.revId p) ∅

/-- The point that counts for a revision is the last of those that carry its id. -/
theorem getElem?_lastPoints (points : List Point) (rev : String) :
    (lastPoints points)[rev]? = (points.filter (·.revId == rev)).getLast? := by
  suffices h : ∀ (table : Std.TreeMap String Point),
      (points.foldl (fun table p => table.insert p.revId p) table)[rev]? =
        ((points.filter (·.revId == rev)).getLast?).or table[rev]? by
    simpa [lastPoints] using h ∅
  induction points with
  | nil => simp
  | cons p rest ih =>
    intro table
    rw [List.foldl_cons, ih, Std.TreeMap.getElem?_insert, List.filter_cons]
    by_cases h : p.revId = rev
    · rw [if_pos (by rw [h]; exact Std.ReflCmp.compare_self), if_pos (by simpa using h)]
      cases hl : rest.filter (·.revId == rev) <;> simp [List.getLast?_cons]
    · rw [if_neg (fun hc => h (Std.LawfulEqCmp.eq_of_compare hc)), if_neg (by simpa using h)]

end MetricHistory
