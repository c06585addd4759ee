import MetricHistory.Proofs.Ancestry.Embedding
import MetricHistory.Proofs.Segments

/-!
# Growing a history

New revisions join a history at its tips: their parents may be revisions that it mentions, and it
mentions none of them itself.  What was drawn before is never drawn differently.  The old history
lies within the grown one (`History.embeds_grow`), and its points are surveyed first, so that the
recursion takes its old course before it comes to the new points.

* `History.grow`: the history with more points and more edges.
* `History.exists_minimalBlocks_grow`: the old blocks of minimal edges come first.
* `Segment.exists_ofEdges_append`: the lines between old points stay the first ones.
* `History.pointsView_grow`: the points view of the grown history.
-/

namespace MetricHistory

/-! ### Segments -/

/-- Points of other revisions do not count for a revision. -/
theorem getElem?_lastPoints_append {points more : List Point} {rev : String}
    (hrev : rev ∉ more.map (·.revId)) :
    (lastPoints (points ++ more))[rev]? = (lastPoints points)[rev]? := by
  have hmore : more.filter (·.revId == rev) = [] := by
    rw [List.filter_eq_nil_iff]
    intro point hpoint heq
    exact hrev (List.mem_map.mpr ⟨point, hpoint, eq_of_beq heq⟩)
  rw [getElem?_lastPoints, getElem?_lastPoints, List.filter_append, hmore, List.append_nil]

/-- The lines between old points are the same among more points, and those of more edges follow. -/
theorem Segment.exists_ofEdges_append (points : List Point) {more : List Point}
    {edges : List MinimalEdge}
    (hedges : ∀ e ∈ edges, e.parent ∉ more.map (·.revId) ∧ e.child ∉ more.map (·.revId))
    (new : List MinimalEdge) :
    ∃ segments, ofEdges (points ++ more) (edges ++ new) = ofEdges points edges ++ segments := by
  refine ⟨ofEdges (points ++ more) new, ?_⟩
  rw [ofEdges_eq_filterMap, ofEdges_eq_filterMap, ofEdges_eq_filterMap, List.filterMap_append]
  congr 1
  apply List.filterMap_congr
  intro e he
  obtain ⟨hparent, hchild⟩ := hedges e he
  rw [ofEdge?, ofEdge?, getElem?_lastPoints_append hparent, getElem?_lastPoints_append hchild]

namespace History

/-! ### Growth -/

/-- The history with more points and more edges, which were recorded later. -/
def grow (h : History) (points : List Point) (parents : List ParentEdge) : History :=
  { points := h.points ++ points, parents := h.parents ++ parents }

variable {h : History} {points : List Point} {parents : List ParentEdge}

/-- A history that grows at its tips lies within the grown one. -/
theorem embeds_grow (hpoints : ∀ point ∈ points, ¬ h.Mentions point.revId)
    (hparents : ∀ e ∈ parents, ¬ h.Mentions e.child) : Embeds id h (h.grow points parents) where
  injOn := Set.injOn_id _
  parentsOf_eq {rev} hrev := by
    have hnew : parents.filter (·.child = rev) = [] := by
      rw [List.filter_eq_nil_iff]
      intro e he heq
      exact hparents e he (of_decide_eq_true heq ▸ hrev)
    rw [List.map_id, id_eq, parentsOf, grow, List.filter_append, hnew, List.append_nil]
    rfl
  isMeasured_iff {rev} hrev := by
    rw [isMeasured_iff_mem, isMeasured_iff_mem, grow, List.map_append, List.mem_append]
    apply or_iff_left
    intro hmem
    obtain ⟨point, hpoint, rfl⟩ := List.mem_map.mp hmem
    exact hpoints point hpoint hrev

/-- The blocks of the old points come first and are the same.  Each new point has a block after
them, whose edges lead to its revision. -/
theorem exists_minimalBlocks_grow (hpoints : ∀ point ∈ points, ¬ h.Mentions point.revId)
    (hparents : ∀ e ∈ parents, ¬ h.Mentions e.child) :
    ∃ ancestors : String → List String,
      (h.grow points parents).minimalBlocks = h.minimalBlocks ++
        points.map fun point => edgesFrom (ancestors point.revId) point.revId := by
  obtain ⟨lists, s, hsurvey, -⟩ := h.exists_surveyed_minimalBlocks
  obtain ⟨t, hold, hmatches⟩ := hsurvey.map (embeds_grow hpoints hparents)
    (Notes.Matches.blank id _) fun _ => mentions_of_mem
  rw [List.map_id] at hold
  obtain ⟨_, u, hgrown, -⟩ := (h.grow points parents).exists_surveyed_minimalBlocks
  have hblocks := hgrown.minimalBlocks_eq
  -- the survey of all points begins with that of the old ones
  rw [grow, List.map_append] at hgrown
  obtain ⟨_, t', _, hfirst, hrest⟩ := hgrown.exists_append
  obtain ⟨-, rfl⟩ := hold.unique hfirst
  refine ⟨fun rev => (u.memo rev).getD [], ?_⟩
  rw [hblocks, hsurvey.minimalBlocks_eq, grow, List.map_append]
  congr 1
  apply List.map_congr_left
  intro point hpoint
  have hrev := List.mem_map_of_mem (f := (·.revId)) hpoint
  obtain ⟨ancestors, hmemo⟩ := hsurvey.exists_memo hrev
  have hsame := hrest.memo_eq (hmatches.memo_eq_some (mentions_of_mem hrev) hmemo)
  rw [List.map_id] at hsame
  rw [hmemo, show u.memo point.revId = some ancestors from hsame]

/-- **Growth**: where a history grows at its tips, by points and by parents of revisions that it
does not mention, its minimal edges stay the first ones and its segments stay the first ones.  All
edges that follow lead to new points. -/
theorem pointsView_grow (h : History) (points : List Point) (parents : List ParentEdge)
    (hpoints : ∀ point ∈ points, ¬ h.Mentions point.revId)
    (hparents : ∀ e ∈ parents, ¬ h.Mentions e.child) :
    ∃ edges segments,
      (h.grow points parents).minimalEdges = h.minimalEdges ++ edges ∧
      (∀ e ∈ edges, ∃ point ∈ points, e.child = point.revId) ∧
      (h.grow points parents).pointsView.segments = h.pointsView.segments ++ segments := by
  obtain ⟨ancestors, hblocks⟩ := exists_minimalBlocks_grow hpoints hparents
  let edges := (points.map fun point => edgesFrom (ancestors point.revId) point.revId).flatten
  have hedges : (h.grow points parents).minimalEdges = h.minimalEdges ++ edges := by
    rw [minimalEdges, hblocks, List.flatten_append]
    rfl
  have hold : ∀ e ∈ h.minimalEdges,
      e.parent ∉ points.map (·.revId) ∧ e.child ∉ points.map (·.revId) := by
    have hnew : ∀ rev ∈ h.points.map (·.revId), rev ∉ points.map (·.revId) := by
      intro rev hrev hmem
      obtain ⟨point, hpoint, rfl⟩ := List.mem_map.mp hmem
      exact hpoints point hpoint (mentions_of_mem hrev)
    intro e he
    obtain ⟨hparent, hchild⟩ := mem_points_of_mem_minimalEdges he
    exact ⟨hnew _ hparent, hnew _ hchild⟩
  obtain ⟨segments, hsegments⟩ := Segment.exists_ofEdges_append h.points hold edges
  refine ⟨edges, segments, hedges, ?_, ?_⟩
  · intro e he
    obtain ⟨block, hblock, hmem⟩ := List.mem_flatten.mp he
    obtain ⟨point, hpoint, rfl⟩ := List.mem_map.mp hblock
    obtain ⟨a, -, rfl⟩ := List.mem_map.mp hmem
    exact ⟨point, hpoint, rfl⟩
  · rw [pointsView, hedges]
    exact hsegments

/-- A cycle of unmeasured revisions between two measured ones. -/
def detour : History :=
  { points := [⟨"", "C", .epoch, 3⟩, ⟨"", "A", .epoch, 1⟩]
    parents := [⟨"C", "X"⟩, ⟨"X", "Y"⟩, ⟨"Y", "X"⟩, ⟨"Y", "A"⟩] }

/-- A new point that leads into the cycle leaves the old edge and its segment in front. -/
theorem pointsView_grow_detour :
    let points : List Point := [⟨"", "N", .epoch, 4⟩]
    let parents : List ParentEdge := [⟨"N", "Y"⟩, ⟨"N", "C"⟩]
    (∀ point ∈ points, ¬ detour.Mentions point.revId) ∧
    (∀ e ∈ parents, ¬ detour.Mentions e.child) ∧
    detour.minimalEdges = [⟨"A", "C"⟩] ∧
    ∃ edges segments,
      (detour.grow points parents).minimalEdges = ⟨"A", "C"⟩ :: edges ∧
      (∀ e ∈ edges, ∃ point ∈ points, e.child = point.revId) ∧
      (detour.grow points parents).pointsView.segments =
        detour.pointsView.segments ++ segments := by
  intro points parents
  have hpoints : ∀ point ∈ points, ¬ detour.Mentions point.revId := by decide
  have hparents : ∀ e ∈ parents, ¬ detour.Mentions e.child := by decide
  have hedges : detour.minimalEdges = [⟨"A", "C"⟩] := by decide +kernel
  obtain ⟨edges, segments, hgrown, hchildren, hsegments⟩ :=
    pointsView_grow detour points parents hpoints hparents
  rw [hedges] at hgrown
  exact ⟨hpoints, hparents, hedges, edges, segments, hgrown, hchildren, hsegments⟩

end History

end MetricHistory
