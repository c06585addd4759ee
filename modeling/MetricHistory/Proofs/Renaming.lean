import MetricHistory.Proofs.Ancestry.Embedding
import MetricHistory.Proofs.Ancestry.NearestAncestors
import MetricHistory.Proofs.Candle
import MetricHistory.Proofs.Component.Renaming
import MetricHistory.Proofs.LinkedPairs
import MetricHistory.Report
import MetricHistory.Sample.Fixture

/-!
# The names of revisions

Revisions are only told apart by their names.  Where a function gives the revisions of a history
other names and no two of them the same, the views show the same under the other names, in the same
order: no order among names decides anything, and no table that is sorted by names shows.

* `History.rename`: the history under other names.
* `History.minimalEdges_rename`: its minimal edges.
* `Candle.ofComponent_rename`, `Segment.ofEdges_rename`, `Segment.ofLinks_rename`: what is drawn.
* `History.views_rename`: both views.
-/

namespace MetricHistory

/-! ### Candles, segments and links -/

section Drawing

variable {f : String → String} {points : List Point}

/-- A candle is the same where the members of its component have other names. -/
theorem Candle.ofComponent_rename (hf : Set.InjOn f {rev | rev ∈ points.map (·.revId)})
    {c : Component} (hc : ∀ rev ∈ c.members, rev ∈ points.map (·.revId)) :
    ofComponent (lastPoints (points.map (Point.rename f))) (c.rename f) =
      ofComponent (lastPoints points) c := by
  have hreadings : (c.rename f).members.filterMap (fun rev =>
        ((lastPoints (points.map (Point.rename f)))[rev]?).map reading) =
      c.members.filterMap fun rev => ((lastPoints points)[rev]?).map reading := by
    rw [Component.rename, List.filterMap_map]
    apply List.filterMap_congr
    intro rev hrev
    rw [Function.comp_apply, getElem?_lastPoints_rename hf (hc rev hrev), Option.map_map]
    rfl
  rw [ofComponent_eq_ofReadings, ofComponent_eq_ofReadings, map_reading_sortedPoints,
    map_reading_sortedPoints, hreadings]
  rfl

namespace Segment

variable {edges : List MinimalEdge}

/-- The lines between points are the same where the revisions have other names. -/
theorem ofEdges_rename (hf : Set.InjOn f {rev | rev ∈ points.map (·.revId)})
    (hedges : ∀ e ∈ edges, e.parent ∈ points.map (·.revId) ∧ e.child ∈ points.map (·.revId)) :
    ofEdges (points.map (Point.rename f)) (edges.map (MinimalEdge.rename f)) =
      ofEdges points edges := by
  unfold ofEdges
  dsimp only
  rw [List.filterMap_map]
  apply List.filterMap_congr
  intro e he
  obtain ⟨hparent, hchild⟩ := hedges e he
  rw [Function.comp_apply, MinimalEdge.rename]
  dsimp only
  rw [getElem?_lastPoints_rename hf hparent, getElem?_lastPoints_rename hf hchild]
  cases (lastPoints points)[e.parent]? <;> cases (lastPoints points)[e.child]? <;> rfl

/-- The links are the same where the components are looked up under other names. -/
theorem ofLinks_rename {p p' : Partition}
    (hedges : ∀ e ∈ edges, p'.idOf? (f e.parent) = p.idOf? e.parent ∧
      p'.idOf? (f e.child) = p.idOf? e.child) (candles : List Candle) :
    ofLinks (edges.map (MinimalEdge.rename f)) p' candles = ofLinks edges p candles := by
  have hjoined : (edges.map (MinimalEdge.rename f)).filterMap (joined? p') =
      edges.filterMap (joined? p) := by
    rw [List.filterMap_map]
    apply List.filterMap_congr
    intro e he
    obtain ⟨hparent, hchild⟩ := hedges e he
    rw [Function.comp_apply, joined?, joined?, MinimalEdge.rename, hparent, hchild]
  rw [ofLinks_eq_filterMap, ofLinks_eq_filterMap, hjoined]

end Segment

end Drawing

/-! ### Histories -/

/-- The edge with both revisions under their other names. -/
def ParentEdge.rename (f : String → String) (e : ParentEdge) : ParentEdge :=
  { child := f e.child, parent := f e.parent }

/-- The view with the revisions under their other names. -/
def PointsView.rename (f : String → String) (view : PointsView) : PointsView :=
  { view with minimalEdges := view.minimalEdges.map (MinimalEdge.rename f) }

namespace History

/-- The history with every revision under its other name. -/
def rename (f : String → String) (h : History) : History :=
  { points := h.points.map (Point.rename f), parents := h.parents.map (ParentEdge.rename f) }

variable {f : String → String} {h : History}

section Renamed

variable (hf : Set.InjOn f {rev | h.Mentions rev}) (size : BucketSize)

include hf

/-- A history lies under other names within the history of these names. -/
theorem embeds_rename : Embeds f h (h.rename f) where
  injOn := hf
  parentsOf_eq {rev} hrev := by
    have hfilter : h.parents.filter ((·.child = f rev) ∘ ParentEdge.rename f) =
        h.parents.filter (·.child = rev) := by
      apply List.filter_congr
      intro e he
      have hchild : h.Mentions e.child := Or.inr ⟨e, he, Or.inl rfl⟩
      rw [Function.comp_apply, decide_eq_decide]
      exact hf.eq_iff hchild hrev
    rw [parentsOf, parentsOf, rename, List.filter_map, List.map_map, List.map_map]
    exact congrArg _ hfilter
  isMeasured_iff {rev} hrev := by
    rw [isMeasured_iff_mem, isMeasured_iff_mem, rename, map_revId_rename, List.mem_map]
    constructor
    · rintro ⟨r, hr, hfr⟩
      rwa [← hf (mentions_of_mem hr) hrev hfr]
    · intro hmem
      exact ⟨rev, hmem, rfl⟩

/-- The blocks of the points are the same under other names. -/
theorem minimalBlocks_rename :
    (h.rename f).minimalBlocks = h.minimalBlocks.map (List.map (MinimalEdge.rename f)) := by
  obtain ⟨lists, s, hsurvey, -⟩ := h.exists_surveyed_minimalBlocks
  obtain ⟨t, hsurvey', hmatches⟩ := hsurvey.map (embeds_rename hf) (Notes.Matches.blank f _)
    fun _ => mentions_of_mem
  rw [← map_revId_rename] at hsurvey'
  have hblocks : (h.rename f).minimalBlocks = (h.rename f).points.map fun point =>
      edgesFrom ((t.memo point.revId).getD []) point.revId := hsurvey'.minimalBlocks_eq
  rw [hblocks, hsurvey.minimalBlocks_eq, rename, List.map_map, List.map_map]
  apply List.map_congr_left
  intro point hpoint
  have hmemo := hmatches.memo_eq point.revId (mentions_of_mem (List.mem_map_of_mem hpoint))
  have hpointMemo : t.memo (point.rename f).revId = (s.memo point.revId).map (List.map f) := hmemo
  rw [Function.comp_apply, Function.comp_apply, hpointMemo, edgesFrom, edgesFrom, List.map_map]
  cases s.memo point.revId with
  | none => rfl
  | some ancestors => exact List.map_map

/-- The minimal edges are the same under other names, in the same order. -/
theorem minimalEdges_rename :
    (h.rename f).minimalEdges = h.minimalEdges.map (MinimalEdge.rename f) := by
  rw [minimalEdges, minimalEdges, minimalBlocks_rename hf, List.map_flatten]

/-! ### Views -/

theorem injOn_points : Set.InjOn f {rev | rev ∈ h.points.map (·.revId)} :=
  hf.mono fun _ => mentions_of_mem

theorem pointsView_rename : (h.rename f).pointsView = h.pointsView.rename f := by
  rw [pointsView, pointsView, PointsView.rename, minimalEdges_rename hf]
  exact congrArg _ (Segment.ofEdges_rename (injOn_points hf) fun _ => mem_points_of_mem_minimalEdges)

theorem partition_rename :
    ((h.rename f).candlesView size).partition =
      Partition.ofPoints size (h.points.map (Point.rename f))
        (h.minimalEdges.map (MinimalEdge.rename f)) := by
  rw [← minimalEdges_rename hf]
  rfl

/-- The components of a view have their members renamed. -/
theorem components_rename :
    ((h.rename f).candlesView size).partition.components =
      (h.candlesView size).partition.components.map (Component.rename f) := by
  rw [partition_rename hf size]
  exact Partition.components_rename size (injOn_points hf) fun _ => mem_points_of_mem_minimalEdges

/-- A measured revision is looked up under its other name. -/
theorem componentOf?_rename {rev : String} (hrev : rev ∈ h.points.map (·.revId)) :
    ((h.rename f).candlesView size).partition.componentOf? (f rev) =
      ((h.candlesView size).partition.componentOf? rev).map (Component.rename f) := by
  rw [partition_rename hf size]
  exact Partition.componentOf?_rename size (injOn_points hf)
    (fun _ => mem_points_of_mem_minimalEdges) hrev

theorem idOf?_rename {rev : String} (hrev : rev ∈ h.points.map (·.revId)) :
    ((h.rename f).candlesView size).partition.idOf? (f rev) =
      (h.candlesView size).partition.idOf? rev := by
  rw [Partition.idOf?, Partition.idOf?, componentOf?_rename hf size hrev, Option.map_map]
  rfl

theorem candles_rename :
    ((h.rename f).candlesView size).candles = (h.candlesView size).candles := by
  show ((h.rename f).candlesView size).partition.components.toList.map
      (Candle.ofComponent (lastPoints (h.points.map (Point.rename f)))) =
    (h.candlesView size).partition.components.toList.map
      (Candle.ofComponent (lastPoints h.points))
  rw [components_rename hf size, Array.toList_map, List.map_map]
  apply List.map_congr_left
  intro c hc
  exact Candle.ofComponent_rename (injOn_points hf) fun _ => Partition.isMeasured_of_mem hc

theorem links_rename :
    ((h.rename f).candlesView size).links = (h.candlesView size).links := by
  show Segment.ofLinks (h.rename f).minimalEdges ((h.rename f).candlesView size).partition
      ((h.rename f).candlesView size).candles =
    Segment.ofLinks h.minimalEdges (h.candlesView size).partition (h.candlesView size).candles
  rw [minimalEdges_rename hf, candles_rename hf size]
  apply Segment.ofLinks_rename
  intro e he
  obtain ⟨hparent, hchild⟩ := mem_points_of_mem_minimalEdges he
  exact ⟨idOf?_rename hf size hparent, idOf?_rename hf size hchild⟩

end Renamed

/-- **Other names**: where a function gives the revisions of a history other names, no two of them
the same, both views show the same under the other names.  The minimal edges and the members of the
components are renamed in their places, and a revision is looked up under its other name; segments,
buckets, ids of components, candles and links stay as they are. -/
theorem views_rename (f : String → String) (h : History) (size : BucketSize)
    (hf : Set.InjOn f {rev | h.Mentions rev}) :
    let view := h.candlesView size
    let view' := (h.rename f).candlesView size
    (h.rename f).pointsView = h.pointsView.rename f ∧
    view'.bucketSize = view.bucketSize ∧
    view'.minimalEdges = view.minimalEdges.map (MinimalEdge.rename f) ∧
    view'.partition.components = view.partition.components.map (Component.rename f) ∧
    (∀ rev, h.IsMeasured rev → view'.partition.componentOf? (f rev) =
      (view.partition.componentOf? rev).map (Component.rename f)) ∧
    view'.candles = view.candles ∧ view'.links = view.links := by
  refine ⟨pointsView_rename hf, rfl, minimalEdges_rename hf, components_rename hf size, ?_,
    candles_rename hf size, links_rename hf size⟩
  intro rev hrev
  exact componentOf?_rename hf size (isMeasured_iff_mem.mp hrev)

/-- Two days that are joined through a cycle of unmeasured revisions. -/
def roundabout : History :=
  { points := [⟨"", "C", Fixture.january 2 1, 3.0⟩, ⟨"", "A", Fixture.january 1 22, 1.0⟩]
    parents := [⟨"C", "D"⟩, ⟨"D", "B"⟩, ⟨"B", "D"⟩, ⟨"B", "A"⟩] }

/-- Two names are exchanged and one is new.  All others become one. -/
def exchange (rev : String) : String :=
  if rev = "A" then "C" else if rev = "C" then "A" else if rev = "B" then "new" else "other"

theorem injOn_exchange : Set.InjOn exchange {rev | roundabout.Mentions rev} := by
  have hlisted : ∀ a ∈ roundabout.revisions.toList, ∀ b ∈ roundabout.revisions.toList,
      exchange a = exchange b → a = b := by decide +kernel
  intro a ha b hb
  exact hlisted a (mem_revisions.mpr ha) b (mem_revisions.mpr hb)

theorem minimalEdges_roundabout : roundabout.minimalEdges = [⟨"A", "C"⟩] := by
  decide +kernel

/-- Names are exchanged by a function that tells four revisions apart, and not others. -/
theorem views_rename_roundabout :
    Set.InjOn exchange {rev | roundabout.Mentions rev} ∧ exchange "X" = exchange "Y" ∧
    (roundabout.rename exchange).minimalEdges = [⟨"C", "A"⟩] ∧
    let view := roundabout.candlesView .day
    let view' := (roundabout.rename exchange).candlesView .day
    view'.partition.components = view.partition.components.map (Component.rename exchange) ∧
      view'.candles = view.candles ∧ view'.links = view.links := by
  obtain ⟨-, -, hedges, hcomponents, -, hcandles, hlinks⟩ :=
    views_rename exchange roundabout .day injOn_exchange
  refine ⟨injOn_exchange, by decide, ?_, hcomponents, hcandles, hlinks⟩
  have hrenamed : (roundabout.rename exchange).minimalEdges =
      roundabout.minimalEdges.map (MinimalEdge.rename exchange) := hedges
  rw [hrenamed, minimalEdges_roundabout]
  decide

end History

end MetricHistory
