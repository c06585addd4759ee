import MetricHistory.Report
import MetricHistory.Proofs.Ancestry.NearestAncestors
import MetricHistory.Proofs.LinkedPairs

/-!
# The segments between points

An edge is drawn only if both of its ends have a point.  Both ends of a minimal edge are measured on
any history, so that none is passed over, and the segments stand beside the edges that they draw.

* `Segment.Draws`: a segment that joins the last points of the ends of an edge.
* `Segment.forall₂_ofEdges`: edges between measured revisions are drawn one by one.
* `History.segments_spec`: the segments of the points view.
-/

namespace MetricHistory

namespace Segment

variable {points : List Point} {edges : List MinimalEdge} {e : MinimalEdge} {s : Segment}

/-- The segment runs from the time and value of the last point of the edge's parent to those of the
last point of its child. -/
def Draws (points : List Point) (e : MinimalEdge) (s : Segment) : Prop :=
  ∃ parent ∈ (points.filter (·.revId == e.parent)).getLast?,
    ∃ child ∈ (points.filter (·.revId == e.child)).getLast?,
      s = ⟨parent.time, parent.value, child.time, child.value⟩

/-- The segment that draws an edge, if both ends have a point. -/
def ofEdge? (points : List Point) (e : MinimalEdge) : Option Segment :=
  match (lastPoints points)[e.parent]?, (lastPoints points)[e.child]? with
  | some parent, some child => some (ofPoints parent child)
  | _, _ => none

theorem ofEdges_eq_filterMap (points : List Point) (edges : List MinimalEdge) :
    ofEdges points edges = edges.filterMap (ofEdge? points) :=
  rfl

theorem draws_of_ofEdge?_eq_some (h : ofEdge? points e = some s) : Draws points e s := by
  rw [ofEdge?] at h
  split at h
  · next parent child hparent hchild =>
    obtain rfl := Option.some.inj h
    rw [getElem?_lastPoints] at hparent hchild
    exact ⟨parent, hparent, child, hchild, rfl⟩
  · cases h

theorem isSome_ofEdge? (hparent : e.parent ∈ points.map (·.revId))
    (hchild : e.child ∈ points.map (·.revId)) : (ofEdge? points e).isSome := by
  obtain ⟨p, hp⟩ := Option.isSome_iff_exists.mp
    (getElem?_lastPoints_isSome.mpr (List.mem_map.mp hparent))
  obtain ⟨c, hc⟩ := Option.isSome_iff_exists.mp
    (getElem?_lastPoints_isSome.mpr (List.mem_map.mp hchild))
  rw [ofEdge?, hp, hc]
  rfl

/-- Edges between measured revisions are drawn one by one. -/
theorem forall₂_ofEdges (hedges : ∀ e ∈ edges,
    e.parent ∈ points.map (·.revId) ∧ e.child ∈ points.map (·.revId)) :
    List.Forall₂ (Draws points) edges (ofEdges points edges) := by
  have hdrawn := forall₂_filter_filterMap (ofEdge? points) edges
  have hall : edges.filter (fun e => (ofEdge? points e).isSome) = edges := by
    rw [List.filter_eq_self]
    intro e he
    obtain ⟨hparent, hchild⟩ := hedges e he
    exact isSome_ofEdge? hparent hchild
  rw [hall] at hdrawn
  rw [ofEdges_eq_filterMap]
  exact hdrawn.imp fun _ _ => draws_of_ofEdge?_eq_some

end Segment

/-- **Segments**: the points view has one segment for each minimal edge, in the order of the edges.
Each runs from the last point of the edge's parent to the last point of its child. -/
theorem History.segments_spec (h : History) :
    h.pointsView.minimalEdges = h.minimalEdges ∧
    List.Forall₂ (Segment.Draws h.points) h.minimalEdges h.pointsView.segments :=
  ⟨rfl, Segment.forall₂_ofEdges fun _ => mem_points_of_mem_minimalEdges⟩

end MetricHistory
