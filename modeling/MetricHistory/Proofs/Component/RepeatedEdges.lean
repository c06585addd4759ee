import MetricHistory.Proofs.Component.Partition

/-!
# Repeated edges

An edge that is listed again joins nothing that was not joined before, and the search meets the
neighbours of a revision in the order of their first edges.  So the partition depends on the edges
only through the first occurrence of each.

* `Adjacency.spread_congr`: the search where neighbours are repeated.
* `Partition.ofPoints_congr`: points with the same revisions and buckets, and edges with the same
  first occurrences, have the same partition.
-/

namespace MetricHistory

namespace Adjacency

variable {n : Nat} {adjacent adjacent' : Adjacency n}

theorem joins_congr (h : ∀ i, appendNew [] (adjacent.get i) = appendNew [] (adjacent'.get i))
    {i j : Fin n} : adjacent.Joins i j ↔ adjacent'.Joins i j := by
  have hmem : j ∈ appendNew [] (adjacent.get i) ↔ j ∈ appendNew [] (adjacent'.get i) := by rw [h]
  rwa [mem_appendNew_nil, mem_appendNew_nil] at hmem

/-- The next level does not depend on which neighbours are repeated. -/
theorem nextLevel_congr (h : ∀ i, appendNew [] (adjacent.get i) = appendNew [] (adjacent'.get i))
    (reached : Vector Bool n) (level : List (Fin n)) :
    nextLevel adjacent reached level = nextLevel adjacent' reached level := by
  have hreached : (nextLevel adjacent reached level).reached =
      (nextLevel adjacent' reached level).reached := by
    apply Vector.ext
    intro k hk
    rw [Bool.eq_iff_iff]
    show (nextLevel adjacent reached level).reached.get ⟨k, hk⟩ = true ↔
      (nextLevel adjacent' reached level).reached.get ⟨k, hk⟩ = true
    rw [reached_nextLevel, reached_nextLevel]
    simp only [joins_congr h]
  have hfresh : (nextLevel adjacent reached level).fresh =
      (nextLevel adjacent' reached level).fresh := by
    apply Array.toList_inj.mp
    rw [fresh_nextLevel, fresh_nextLevel]
    have hlevel := appendNew_flatMap_congr (l := level) (fun i _ => h i) []
    have hfilter := congrArg (List.filter fun i => !reached.get i) hlevel
    rwa [filter_appendNew, filter_appendNew] at hfilter
  exact congrArg₂ Reach.mk hreached hfresh

/-- The search does not depend on which neighbours are repeated. -/
theorem spread_congr (h : ∀ i, appendNew [] (adjacent.get i) = appendNew [] (adjacent'.get i))
    (reached : Vector Bool n) (members : Array (Fin n)) (level : List (Fin n)) :
    spread adjacent reached members level = spread adjacent' reached members level := by
  fun_induction spread adjacent reached members level with
  | case1 reached members => rw [spread]
  | case2 reached members first others following ih =>
    rw [ih, spread]
    simp only [following, nextLevel_congr h]

/-- Neighbours are met in the order of their first edges. -/
theorem appendNew_get_ofEdges {α : Type} [DecidableEq α] (place : α → Option (Fin n × Fin n))
    (edges : List α) (i : Fin n) :
    appendNew [] ((ofEdges ((appendNew [] edges).filterMap place)).get i) =
      appendNew [] ((ofEdges (edges.filterMap place)).get i) := by
  rw [get_ofEdges, get_ofEdges, List.filterMap_eq_flatMap_toList,
    List.filterMap_eq_flatMap_toList, List.flatMap_assoc, List.flatMap_assoc,
    appendNew_flatMap_appendNew]

end Adjacency

namespace Partition

/-- The components of listed revisions with the given buckets. -/
def ofRoster (revisions : Roster String) (buckets : Vector String revisions.size)
    (edges : List MinimalEdge) : Array Component :=
  componentsOf revisions.item buckets
    (Adjacency.ofEdges (edges.filterMap (placeEdge? revisions buckets)))

theorem components_ofPoints_eq_ofRoster (size : BucketSize) (points : List Point)
    (edges : List MinimalEdge) :
    (ofPoints size points edges).components =
      ofRoster (measuredRevisions points) (bucketsOf size points (measuredRevisions points))
        edges :=
  components_ofPoints size points edges

theorem Progress.add_congr {n : Nat} {item : Fin n → String} {keys : Vector String n}
    {adjacent adjacent' : Adjacency n}
    (h : ∀ i, appendNew [] (adjacent.get i) = appendNew [] (adjacent'.get i)) :
    Progress.add item keys adjacent = Progress.add item keys adjacent' := by
  funext p seed
  obtain ⟨reached, components, counts⟩ := p
  simp only [Progress.add, Adjacency.classFrom, Adjacency.spread_congr h]

/-- The components depend on the edges only through the first occurrence of each. -/
theorem ofRoster_appendNew (revisions : Roster String) (buckets : Vector String revisions.size)
    (edges : List MinimalEdge) :
    ofRoster revisions buckets (appendNew [] edges) = ofRoster revisions buckets edges := by
  unfold ofRoster componentsOf
  rw [Progress.add_congr (Adjacency.appendNew_get_ofEdges (placeEdge? revisions buckets) edges)]

/-- Points with the same revisions and buckets, and edges with the same first occurrences, have the
same partition. -/
theorem ofPoints_congr {size : BucketSize} {points points' : List Point}
    {edges edges' : List MinimalEdge}
    (hrevisions : measuredRevisions points = measuredRevisions points')
    (hbuckets : bucketOf? size points = bucketOf? size points')
    (hedges : appendNew [] edges = appendNew [] edges') :
    ofPoints size points edges = ofPoints size points' edges' := by
  apply ofPoints_eq_of_components_eq
  rw [components_ofPoints_eq_ofRoster, components_ofPoints_eq_ofRoster, hrevisions, bucketsOf,
    hbuckets, ← ofRoster_appendNew, hedges, ofRoster_appendNew]
  rfl

end Partition

end MetricHistory
