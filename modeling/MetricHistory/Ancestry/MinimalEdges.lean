import MetricHistory.Ancestry.Walk

/-!
## Minimal edges

The ancestry among the measured revisions: an edge from each nearest measured ancestor of a point's
revision to that revision.

* `History.minimalBlocks`: the edges of each point, in the order in which the walk finds the
  ancestors.  The points are resolved in order, and what is found for one is known to the next.
* `History.minimalEdges`: all of them, point after point.
-/

namespace MetricHistory

/-- The points resolved so far: what is known of the revisions, and the ancestors of each point. -/
structure Survey (n : Nat) where
  visits : Vector (Visit n) n
  ancestors : Array (List (Fin n))

namespace Survey

/-- Resolves one more revision and notes its ancestors. -/
def add {n : Nat} (p : Pedigree n) (s : Survey n) (root : Fin n) : Survey n :=
  match s with
  | ⟨visits, ancestors⟩ =>
    let visits := p.resolve visits root
    let found := (visits.get root).found
    ⟨visits, ancestors.push found⟩

/-- The nearest measured ancestors of each of `roots`. -/
def nearest {n : Nat} (p : Pedigree n) (roots : List (Fin n)) : List (List (Fin n)) :=
  (roots.foldl (add p) ⟨Pedigree.unexplored, #[]⟩).ancestors.toList

end Survey

namespace History

/-- The minimal edges of each point. -/
def minimalBlocks (h : History) : List (List MinimalEdge) :=
  let revisions := h.revisions
  let roots := h.points.filterMap fun point => revisions.place? point.revId
  let nearest := Survey.nearest (Pedigree.ofHistory h revisions) roots
  List.zipWith
    (fun point ancestors => ancestors.map fun a => ⟨revisions.item a, point.revId⟩)
    h.points nearest

/-- The minimal edges of a history, point after point. -/
def minimalEdges (h : History) : List MinimalEdge :=
  h.minimalBlocks.flatten

end History

end MetricHistory
