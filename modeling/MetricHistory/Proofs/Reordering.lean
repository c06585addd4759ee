import MetricHistory.Proofs.Ancestry.Closure
import MetricHistory.Proofs.Candle
import MetricHistory.Proofs.Links
import MetricHistory.Sample.Fixture
import Mathlib.Data.Finset.Dedup

/-!
# The order of the input

Where revisions and times are distinct and no cycle runs through unmeasured revisions only, the
order in which points and parents are recorded decides how components are named and in which order
things are listed, and nothing else.

What a view shows apart from names and order are its figures, one for each component.  Both the
figures and the pairs of figures that are linked are told by the minimal edges as a set and by the
last point of each revision, neither of which depends on the order.

* `History.Reordered`: two histories with the same points and parents.
* `Reordered.perm_minimalEdges`, `Reordered.perm_figures`, `Reordered.perm_linkedFigures`: what
  their views have in common.
* `History.perm_candlesView`: the views of both.
-/

namespace MetricHistory

/-! ### Figures -/

/-- What is shown of a component, apart from its name. -/
structure Figure where
  members : Finset String
  bucket : String
  x : Instant
  opening : Float
  closing : Float
  low : Float
  high : Float

namespace Figure

/-- The figure of a component with its candle. -/
def ofCandle (component : Component) (candle : Candle) : Figure :=
  { members := component.members.toFinset
    bucket := candle.bucket
    x := candle.x
    opening := candle.opening
    closing := candle.closing
    low := candle.low
    high := candle.high }

/-- The figure of a component whose revisions have the points of a table. -/
def ofComponent (last : Std.TreeMap String Point) (c : Component) : Figure :=
  ofCandle c (Candle.ofComponent last c)

/-- The line between the middles of two figures. -/
def link (f g : Figure) : Segment :=
  { x1 := f.x, y1 := (f.opening + f.closing) / 2.0, x2 := g.x, y2 := (g.opening + g.closing) / 2.0 }

/-- A figure is told by the members, the bucket and the sorted points of its component. -/
theorem ofComponent_congr {last last' : Std.TreeMap String Point} {c d : Component}
    (hmembers : c.members.toFinset = d.members.toFinset) (hbucket : c.bucket = d.bucket)
    (hsorted : Candle.sortedPoints last c = Candle.sortedPoints last' d) :
    ofComponent last c = ofComponent last' d := by
  unfold ofComponent ofCandle Candle.ofComponent
  rw [hmembers, hbucket, hsorted]
  cases Candle.sortedPoints last' d <;> rfl

end Figure

/-- The figures of a view, in the order of its components. -/
def CandlesView.figures (view : CandlesView) : List Figure :=
  List.zipWith Figure.ofCandle view.partition.components.toList view.candles

namespace Partition

/-- Components are told apart by their members. -/
theorem toFinset_members_injOn (size : BucketSize) (points : List Point)
    (edges : List MinimalEdge) :
    Set.InjOn (fun c : Component => c.members.toFinset)
      {c | c ∈ (ofPoints size points edges).components.toList} := by
  intro a ha b hb (hmembers : a.members.toFinset = b.members.toFinset)
  obtain ⟨rev, hrev⟩ := exists_mem_members ha
  have hrev' : rev ∈ b.members := by
    rwa [← List.mem_toFinset, ← hmembers, List.mem_toFinset]
  exact eq_of_mem_of_mem ha hb hrev hrev'

end Partition

namespace History

/-- The figures of the components of a history. -/
def figures (h : History) (size : BucketSize) : List Figure :=
  (h.candlesView size).partition.components.toList.map (Figure.ofComponent (lastPoints h.points))

/-- The pairs of figures that minimal edges lead between. -/
def linkedFigures (h : History) (size : BucketSize) : List (Figure × Figure) :=
  ((h.candlesView size).partition.crossings h.minimalEdges).map fun pair =>
    (Figure.ofComponent (lastPoints h.points) pair.1,
      Figure.ofComponent (lastPoints h.points) pair.2)

theorem figures_candlesView (h : History) (size : BucketSize) :
    (h.candlesView size).figures = h.figures size := by
  have hcandles : (h.candlesView size).candles =
      (h.candlesView size).partition.components.toList.map
        (Candle.ofComponent (lastPoints h.points)) := rfl
  rw [CandlesView.figures, hcandles, List.zipWith_map_right, List.zipWith_self]
  rfl

theorem links_candlesView (h : History) (size : BucketSize) :
    (h.candlesView size).links = (h.linkedFigures size).map fun pair => pair.1.link pair.2 := by
  rw [links_eq_map_crossings, linkedFigures, List.map_map]
  rfl

theorem map_members_figures (h : History) (size : BucketSize) :
    (h.figures size).map (·.members) =
      (h.candlesView size).partition.components.toList.map (·.members.toFinset) := by
  rw [figures, List.map_map]
  rfl

/-- No two figures have the same members. -/
theorem nodup_members_figures (h : History) (size : BucketSize) :
    ((h.figures size).map (·.members)).Nodup := by
  rw [map_members_figures]
  refine List.Nodup.map_on ?_ (Partition.nodup_components size h.points h.minimalEdges)
  intro a ha b hb hab
  exact Partition.toFinset_members_injOn size h.points h.minimalEdges ha hb hab

theorem figure_injOn (h : History) (size : BucketSize) {a b : Component}
    (ha : a ∈ (h.candlesView size).partition.components.toList)
    (hb : b ∈ (h.candlesView size).partition.components.toList)
    (hab : Figure.ofComponent (lastPoints h.points) a =
      Figure.ofComponent (lastPoints h.points) b) : a = b :=
  Partition.toFinset_members_injOn size h.points h.minimalEdges ha hb
    (congrArg Figure.members hab)

/-- Two figures are linked exactly if they differ and a minimal edge leads from a member of the
first to a member of the second. -/
theorem mem_linkedFigures_iff {h : History} {size : BucketSize} {f g : Figure} :
    (f, g) ∈ h.linkedFigures size ↔
      f ∈ h.figures size ∧ g ∈ h.figures size ∧ f ≠ g ∧
        ∃ e ∈ h.minimalEdges, e.parent ∈ f.members ∧ e.child ∈ g.members := by
  rw [linkedFigures, List.mem_map]
  constructor
  · rintro ⟨⟨a, b⟩, hpair, hfigures⟩
    cases hfigures
    obtain ⟨ha, hb, hne, e, he, hparent, hchild⟩ := Partition.mem_crossings_ofPoints.mp hpair
    refine ⟨List.mem_map_of_mem ha, List.mem_map_of_mem hb, ?_, e, he, ?_, ?_⟩
    · intro hab
      exact hne (h.figure_injOn size ha hb hab)
    · exact List.mem_toFinset.mpr hparent
    · exact List.mem_toFinset.mpr hchild
  · rintro ⟨hf, hg, hne, e, he, hparent, hchild⟩
    obtain ⟨a, ha, rfl⟩ := List.mem_map.mp hf
    obtain ⟨b, hb, rfl⟩ := List.mem_map.mp hg
    refine ⟨(a, b), Partition.mem_crossings_ofPoints.mpr ⟨ha, hb, ?_, e, he, ?_, ?_⟩, rfl⟩
    · rintro rfl
      exact hne rfl
    · exact List.mem_toFinset.mp hparent
    · exact List.mem_toFinset.mp hchild

theorem nodup_linkedFigures (h : History) (size : BucketSize) : (h.linkedFigures size).Nodup := by
  have hcrossings : ((h.candlesView size).partition.crossings h.minimalEdges).Nodup :=
    nodup_appendNew List.nodup_nil _
  refine List.Nodup.map_on ?_ hcrossings
  rintro ⟨a, b⟩ hab ⟨c, d⟩ hcd hfigures
  obtain ⟨ha, hb, -⟩ := Partition.mem_crossings_ofPoints.mp hab
  obtain ⟨hc, hd, -⟩ := Partition.mem_crossings_ofPoints.mp hcd
  obtain ⟨hac, hbd⟩ := Prod.mk.inj hfigures
  rw [h.figure_injOn size ha hc hac, h.figure_injOn size hb hd hbd]

/-- The block of a point has distinct edges, and they lead to its revision. -/
def BlockOf (point : Point) (block : List MinimalEdge) : Prop :=
  block.Nodup ∧ ∀ e ∈ block, e.child = point.revId

theorem forall₂_blockOf (h : History) : List.Forall₂ BlockOf h.points h.minimalBlocks := by
  refine h.exists_gathers_minimalBlocks.imp ?_
  rintro point block ⟨ancestors, rfl, hg⟩
  constructor
  · exact hg.nodup.map fun a b hab => congrArg MinimalEdge.parent hab
  · intro e he
    obtain ⟨a, -, rfl⟩ := List.mem_map.mp he
    rfl

theorem child_mem_of_mem_flatten {points : List Point} {blocks : List (List MinimalEdge)}
    (hblocks : List.Forall₂ BlockOf points blocks) {e : MinimalEdge} (he : e ∈ blocks.flatten) :
    e.child ∈ points.map (·.revId) := by
  induction hblocks with
  | nil => cases he
  | cons hblock _ ih =>
    rw [List.flatten_cons, List.mem_append] at he
    rw [List.map_cons, List.mem_cons]
    exact he.imp (hblock.2 e) ih

theorem nodup_flatten {points : List Point} {blocks : List (List MinimalEdge)}
    (hblocks : List.Forall₂ BlockOf points blocks) (hrevs : (points.map (·.revId)).Nodup) :
    blocks.flatten.Nodup := by
  induction hblocks with
  | nil => exact List.nodup_nil
  | cons hblock hrest ih =>
    rw [List.map_cons, List.nodup_cons] at hrevs
    rw [List.flatten_cons, List.nodup_append]
    refine ⟨hblock.1, ih hrevs.2, ?_⟩
    -- an edge of both would lead to two points
    rintro e he _ hmem rfl
    have hchild := child_mem_of_mem_flatten hrest hmem
    rw [hblock.2 e he] at hchild
    exact hrevs.1 hchild

/-- Where no revision has two points, no minimal edge is listed twice. -/
theorem nodup_minimalEdges {h : History} (hrevs : (h.points.map (·.revId)).Nodup) :
    h.minimalEdges.Nodup :=
  nodup_flatten h.forall₂_blockOf hrevs

/-! ### Reordered histories -/

/-- Revisions and times are distinct, and no cycle runs through unmeasured revisions only. -/
structure Unambiguous (h : History) : Prop where
  revs : (h.points.map (·.revId)).Nodup
  times : (h.points.map (·.time)).Nodup
  noUnmeasuredCycle : h.NoUnmeasuredCycle

/-- The same points and parents, recorded in any order. -/
structure Reordered (h h' : History) : Prop where
  points : h.points.Perm h'.points
  parents : h.parents.Perm h'.parents

namespace Reordered

variable {h h' : History}

theorem symm (hr : h.Reordered h') : h'.Reordered h :=
  ⟨hr.points.symm, hr.parents.symm⟩

theorem isMeasured_eq (hr : h.Reordered h') : h.IsMeasured = h'.IsMeasured := by
  funext rev
  unfold IsMeasured
  simp only [hr.points.mem_iff]

theorem stepsTo_eq (hr : h.Reordered h') : h.StepsTo = h'.StepsTo := by
  funext child parent
  exact propext hr.parents.mem_iff

theorem nearestAncestor_eq (hr : h.Reordered h') : h.NearestAncestor = h'.NearestAncestor := by
  have hhidden : h.HiddenStep = h'.HiddenStep := by
    unfold HiddenStep
    rw [hr.isMeasured_eq, hr.stepsTo_eq]
  unfold NearestAncestor
  rw [hhidden, hr.isMeasured_eq, hr.stepsTo_eq]

theorem unambiguous (hr : h.Reordered h') (hu : h.Unambiguous) : h'.Unambiguous where
  revs := (hr.points.map _).nodup_iff.mp hu.revs
  times := (hr.points.map _).nodup_iff.mp hu.times
  noUnmeasuredCycle := by
    have hc := hu.noUnmeasuredCycle
    unfold NoUnmeasuredCycle UnmeasuredStep at *
    rwa [← hr.isMeasured_eq, ← hr.stepsTo_eq]

/-! ### Minimal edges -/

theorem mem_minimalEdges_iff (hr : h.Reordered h') (hu : h.Unambiguous) (e : MinimalEdge) :
    e ∈ h.minimalEdges ↔ e ∈ h'.minimalEdges := by
  have hclear := hu.noUnmeasuredCycle.noHiddenCycle e.child
  have hclear' := (hr.unambiguous hu).noUnmeasuredCycle.noHiddenCycle e.child
  rw [History.mem_minimalEdges_iff hclear, History.mem_minimalEdges_iff hclear',
    hr.isMeasured_eq, hr.nearestAncestor_eq]

theorem perm_minimalEdges (hr : h.Reordered h') (hu : h.Unambiguous) :
    h.minimalEdges.Perm h'.minimalEdges := by
  rw [List.perm_ext_iff_of_nodup (nodup_minimalEdges hu.revs)
    (nodup_minimalEdges (hr.unambiguous hu).revs)]
  exact hr.mem_minimalEdges_iff hu

/-! ### Components -/

theorem getElem?_lastPoints_eq (hr : h.Reordered h') (hu : h.Unambiguous) (rev : String) :
    (lastPoints h.points)[rev]? = (lastPoints h'.points)[rev]? := by
  ext p
  rw [getElem?_lastPoints_eq_some_iff hu.revs,
    getElem?_lastPoints_eq_some_iff (hr.unambiguous hu).revs, hr.points.mem_iff]

theorem bucketOf?_eq (hr : h.Reordered h') (hu : h.Unambiguous) (size : BucketSize) :
    Partition.bucketOf? size h.points = Partition.bucketOf? size h'.points := by
  funext rev
  rw [Partition.bucketOf?_eq_map_lastPoints, Partition.bucketOf?_eq_map_lastPoints,
    hr.getElem?_lastPoints_eq hu]

theorem joined_eq (hr : h.Reordered h') (hu : h.Unambiguous) (size : BucketSize) :
    Partition.Joined size h.points h.minimalEdges =
      Partition.Joined size h'.points h'.minimalEdges := by
  have hstep : Partition.BucketStep size h.points h.minimalEdges =
      Partition.BucketStep size h'.points h'.minimalEdges := by
    funext bucket a b
    unfold Partition.BucketStep
    rw [hr.mem_minimalEdges_iff hu, hr.mem_minimalEdges_iff hu, hr.bucketOf?_eq hu]
  unfold Partition.Joined
  rw [hstep, hr.bucketOf?_eq hu]

/-- Every component of one history has the members of one of the other. -/
theorem exists_component (hr : h.Reordered h') (hu : h.Unambiguous) {size : BucketSize}
    {c : Component} (hc : c ∈ (h.candlesView size).partition.components.toList) :
    ∃ d ∈ (h'.candlesView size).partition.components.toList,
      c.members.Perm d.members ∧ c.bucket = d.bucket := by
  obtain ⟨rev, hrev⟩ := Partition.exists_mem_members hc
  obtain ⟨point, hlast, hkey⟩ := Partition.exists_lastPoint_of_mem hc hrev
  have hlast' := hlast
  rw [hr.getElem?_lastPoints_eq hu] at hlast'
  have hmeasured : rev ∈ h'.points.map (·.revId) := by
    obtain ⟨hpoint, rfl⟩ := of_getElem?_lastPoints hlast'
    exact List.mem_map_of_mem hpoint
  -- the counterpart is the component of any one member
  obtain ⟨d, hd⟩ : ∃ d, (h'.candlesView size).partition.componentOf? rev = some d :=
    Partition.exists_componentOf? hmeasured
  obtain ⟨hd, hrev'⟩ := Partition.componentOf?_eq_some_iff.mp hd
  refine ⟨d, hd, ?_, ?_⟩
  · rw [List.perm_ext_iff_of_nodup (Partition.nodup_members hc) (Partition.nodup_members hd)]
    intro other
    rw [Partition.mem_members_iff_joined hc hrev, Partition.mem_members_iff_joined hd hrev',
      hr.joined_eq hu]
  · have hbucket := Partition.bucketOf?_of_mem hc hrev
    rw [hr.bucketOf?_eq hu, Partition.bucketOf?_of_mem hd hrev', Option.some.injEq] at hbucket
    exact hbucket.symm

theorem sortedPoints_eq (hr : h.Reordered h') (hu : h.Unambiguous) {c d : Component}
    (hmembers : c.members.Perm d.members) :
    Candle.sortedPoints (lastPoints h.points) c = Candle.sortedPoints (lastPoints h'.points) d := by
  have hd : Candle.sortedPoints (lastPoints h.points) d =
      Candle.sortedPoints (lastPoints h'.points) d := by
    unfold Candle.sortedPoints
    simp only [hr.getElem?_lastPoints_eq hu]
  rw [← hd]
  apply Candle.sortedPoints_eq_of_perm hmembers
  intro p hp q hq htime
  obtain ⟨_, -, hp⟩ := Candle.mem_sortedPoints.mp hp
  obtain ⟨_, -, hq⟩ := Candle.mem_sortedPoints.mp hq
  exact List.inj_on_of_nodup_map hu.times (of_getElem?_lastPoints hp).1
    (of_getElem?_lastPoints hq).1 htime

/-! ### Figures -/

theorem mem_figures (hr : h.Reordered h') (hu : h.Unambiguous) {size : BucketSize} {f : Figure}
    (hf : f ∈ h.figures size) : f ∈ h'.figures size := by
  obtain ⟨c, hc, rfl⟩ := List.mem_map.mp hf
  obtain ⟨d, hd, hmembers, hbucket⟩ := hr.exists_component hu hc
  refine List.mem_map.mpr ⟨d, hd, ?_⟩
  exact (Figure.ofComponent_congr (List.toFinset_eq_of_perm _ _ hmembers) hbucket
    (hr.sortedPoints_eq hu hmembers)).symm

theorem mem_figures_iff (hr : h.Reordered h') (hu : h.Unambiguous) {size : BucketSize}
    {f : Figure} : f ∈ h.figures size ↔ f ∈ h'.figures size :=
  ⟨hr.mem_figures hu, hr.symm.mem_figures (hr.unambiguous hu)⟩

theorem perm_figures (hr : h.Reordered h') (hu : h.Unambiguous) (size : BucketSize) :
    (h.figures size).Perm (h'.figures size) := by
  rw [List.perm_ext_iff_of_nodup (h.nodup_members_figures size).of_map
    (h'.nodup_members_figures size).of_map]
  intro f
  exact hr.mem_figures_iff hu

theorem perm_linkedFigures (hr : h.Reordered h') (hu : h.Unambiguous) (size : BucketSize) :
    (h.linkedFigures size).Perm (h'.linkedFigures size) := by
  rw [List.perm_ext_iff_of_nodup (h.nodup_linkedFigures size) (h'.nodup_linkedFigures size)]
  rintro ⟨f, g⟩
  rw [mem_linkedFigures_iff, mem_linkedFigures_iff, hr.mem_figures_iff hu, hr.mem_figures_iff hu]
  simp only [hr.mem_minimalEdges_iff hu]

end Reordered

/-- **The order of the input**: if revisions and times are distinct and no cycle runs through
unmeasured revisions only, the views of the same points and parents in any other order have the same
minimal edges, the same sets of members, the same figures and the same links, up to the order in
which they are listed.  Each component has a figure, and as no two have the same members, the
figures of the two views are matched by their members. -/
theorem perm_candlesView {h h' : History} (hr : h.Reordered h') (hu : h.Unambiguous)
    (size : BucketSize) :
    let view := h.candlesView size
    let view' := h'.candlesView size
    view.minimalEdges.Perm view'.minimalEdges ∧
    (view.partition.components.toList.map (·.members.toFinset)).Perm
      (view'.partition.components.toList.map (·.members.toFinset)) ∧
    view.figures.map (·.members) = view.partition.components.toList.map (·.members.toFinset) ∧
    (view.figures.map (·.members)).Nodup ∧
    view.figures.Perm view'.figures ∧
    view.links.Perm view'.links := by
  intro view view'
  have hfigures := hr.perm_figures hu size
  have hmembers := hfigures.map (·.members)
  rw [map_members_figures, map_members_figures] at hmembers
  refine ⟨hr.perm_minimalEdges hu, hmembers, ?_, ?_, ?_, ?_⟩
  · rw [figures_candlesView]
    exact map_members_figures h size
  · rw [figures_candlesView]
    exact h.nodup_members_figures size
  · rwa [figures_candlesView, figures_candlesView]
  · rw [links_candlesView, links_candlesView]
    exact (hr.perm_linkedFigures hu size).map _

/-- A revision with two unmeasured parents, one of which is a parent of the other. -/
def fork : History :=
  { points := [⟨"", "D", Fixture.january 3 8, 4.0⟩, ⟨"", "A", Fixture.january 1 10, 1.0⟩,
      ⟨"", "B", Fixture.january 2 9, 2.0⟩]
    parents := [⟨"D", "X"⟩, ⟨"D", "Y"⟩, ⟨"X", "Y"⟩, ⟨"X", "B"⟩, ⟨"Y", "A"⟩] }

/-- The same history, recorded backwards. -/
def forkBackwards : History :=
  { points := fork.points.reverse, parents := fork.parents.reverse }

/-- Recording a history backwards only reorders what is shown. -/
theorem perm_candlesView_fork :
    fork.Reordered forkBackwards ∧ fork.Unambiguous ∧
    (fork.candlesView .day).minimalEdges.Perm (forkBackwards.candlesView .day).minimalEdges ∧
    (fork.candlesView .day).figures.Perm (forkBackwards.candlesView .day).figures ∧
    (fork.candlesView .day).links.Perm (forkBackwards.candlesView .day).links := by
  have hr : fork.Reordered forkBackwards :=
    ⟨(List.reverse_perm fork.points).symm, (List.reverse_perm fork.parents).symm⟩
  have hu : fork.Unambiguous :=
    ⟨by decide, by decide,
      noUnmeasuredCycle_of_rank (fun rev => if rev = "X" then 1 else 0) (by decide)⟩
  obtain ⟨hedges, -, -, -, hfigures, hlinks⟩ := perm_candlesView hr hu .day
  exact ⟨hr, hu, hedges, hfigures, hlinks⟩

end History

end MetricHistory
