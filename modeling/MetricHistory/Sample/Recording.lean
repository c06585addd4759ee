import MetricHistory.History

/-!
## Recordings

A history of one repository, recorded revision by revision.
-/

namespace MetricHistory

/-- A repository and what was recorded of it. -/
structure Recording where
  repoId : String
  history : History
deriving Inhabited

namespace Recording

/-- Nothing is recorded of a new repository. -/
def ofRepo (repoId : String) : Recording :=
  { repoId, history := { points := [], parents := [] } }

/-- Records that `child` has the parent `parent`. -/
def addParent (r : Recording) (child parent : String) : Recording :=
  { r with history := { r.history with parents := r.history.parents ++ [{ child, parent }] } }

/-- Records a revision and its parents. -/
def addRevision (r : Recording) (revId : String) (parents : List String) : Recording :=
  parents.foldl (fun r parent => r.addParent revId parent) r

/-- Records a revision, its parents and the value of the metric there. -/
def addPoint (r : Recording) (revId : String) (parents : List String) (time : Instant)
    (value : Float) : Recording :=
  let r := r.addRevision revId parents
  let point : Point := { repoId := r.repoId, revId, time, value }
  { r with history := { r.history with points := r.history.points ++ [point] } }

end Recording

end MetricHistory
