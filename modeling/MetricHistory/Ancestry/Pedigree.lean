import MetricHistory.History
import MetricHistory.Roster

/-!
## Pedigrees

The parents of every revision, with the revisions numbered by a roster.

* `History.revisions`: the roster of all revisions of a history, the measured ones first.
* `Pedigree.ofHistory`: the parents of each revision in the order of the edges, repeated edges
  included, and whether it is measured.
* `get_ofEdges`: the parents listed for a revision are those of its edges.
-/

namespace MetricHistory

/-- The revisions of a history: those with a point, then those that only edges mention. -/
def History.revisions (h : History) : Roster String :=
  (Roster.ofList (h.points.map (·.revId))).enterAll
    (h.parents.flatMap fun e => [e.child, e.parent])

/-- The direct parents of `n` numbered revisions, and whether each is measured. -/
structure Pedigree (n : Nat) where
  parents : Vector (List (Fin n)) n
  measured : Vector Bool n

namespace Pedigree

/-- An edge between listed revisions, as places. -/
def placeEdge? (revisions : Roster String) (e : ParentEdge) :
    Option (Fin revisions.size × Fin revisions.size) :=
  match revisions.place? e.child, revisions.place? e.parent with
  | some child, some parent => some (child, parent)
  | _, _ => none

/-- The parents of each place, from pairs of child and parent. -/
def ofEdges {n : Nat} (edges : List (Fin n × Fin n)) : Vector (List (Fin n)) n :=
  edges.foldr
    (fun (child, parent) table => table.put child (parent :: table.get child))
    (Vector.replicate n [])

/-- The parents listed for a place are those of its edges, in the order of the edges. -/
theorem get_ofEdges {n : Nat} (edges : List (Fin n × Fin n)) (i : Fin n) :
    (ofEdges edges).get i = (edges.filter (·.1 = i)).map (·.2) := by
  induction edges with
  | nil => exact Vector.getElem_replicate i.isLt
  | cons e rest ih =>
    obtain ⟨child, parent⟩ := e
    rw [show ofEdges ((child, parent) :: rest) =
      (ofEdges rest).put child (parent :: (ofEdges rest).get child) from rfl, Vector.get_put]
    by_cases h : child = i
    · subst h; simp [ih]
    · simp [h, ih]

/-- The pedigree of a history whose revisions are listed by a roster. -/
def ofHistory (h : History) (revisions : Roster String) : Pedigree revisions.size :=
  let last := lastPoints h.points
  { parents := ofEdges (h.parents.filterMap (placeEdge? revisions))
    measured := Vector.ofFn fun i => last.contains (revisions.item i) }

end Pedigree

end MetricHistory
