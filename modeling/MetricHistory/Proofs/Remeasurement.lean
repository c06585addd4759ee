import MetricHistory.Proofs.Ancestry.Embedding
import MetricHistory.Proofs.Candle
import MetricHistory.Proofs.Component.RepeatedEdges
import MetricHistory.Proofs.LinkedPairs
import MetricHistory.Report

/-!
# Repeated measurements

A revision may be measured more than once.  It stands where its first point stands, it counts with
its last point, and the edges to it are listed once more for each of its points.  So a view shows
the same components, candles and links as if each revision had one point only.

* `consolidate`: one point for each revision, in the place of the first with what the last says.
* `map_revId_consolidate`, `reading_lastPoints_consolidate`: what stays as it was.
* `History.candlesView_consolidated`: the views with and without repetitions.
-/

namespace MetricHistory

/-! ### First occurrences -/

section FirstOccurrences

variable {α β : Type}

theorem map_eraseDupsBy_loop [DecidableEq β] (f : α → β) (l found : List α) :
    (List.eraseDupsBy.loop (f · == f ·) l found).map f =
      appendNew (found.reverse.map f) (l.map f) := by
  induction l generalizing found with
  | nil => rfl
  | cons a l ih =>
    have hany : (found.any (f a == f ·)) = true ↔ f a ∈ found.reverse.map f := by
      rw [List.any_eq_true, List.map_reverse, List.mem_reverse, List.mem_map]
      exact exists_congr fun b => and_congr_right fun _ => by rw [beq_iff_eq, eq_comm]
    rw [List.eraseDupsBy.loop, List.map_cons, appendNew_cons]
    split
    · next h => rw [if_pos (hany.mp h), ih]
    · next h =>
      rw [Bool.eq_false_iff] at h
      rw [if_neg (fun hmem => h (hany.mpr hmem)), ih, List.reverse_cons, List.map_append,
        List.map_singleton]

/-- The first items with each key have these keys in the order of their first occurrences. -/
theorem map_eraseDupsBy [DecidableEq β] (f : α → β) (l : List α) :
    (l.eraseDupsBy (f · == f ·)).map f = appendNew [] (l.map f) :=
  map_eraseDupsBy_loop f l []

theorem eraseDupsBy_loop_map (r : β → β → Bool) (f : α → β) (l found : List α) :
    List.eraseDupsBy.loop r (l.map f) (found.map f) =
      (List.eraseDupsBy.loop (fun a b => r (f a) (f b)) l found).map f := by
  induction l generalizing found with
  | nil => exact List.map_reverse.symm
  | cons a l ih =>
    rw [List.map_cons, List.eraseDupsBy.loop, List.eraseDupsBy.loop, List.any_map, ← List.map_cons,
      ih, ih]
    show (match found.any (fun b => r (f a) (f b)) with | true => _ | false => _) = _
    cases found.any fun b => r (f a) (f b) <;> rfl

/-- Items are told apart as well through a function. -/
theorem eraseDupsBy_map (r : β → β → Bool) (f : α → β) (l : List α) :
    (l.map f).eraseDupsBy r = (l.eraseDupsBy fun a b => r (f a) (f b)).map f :=
  eraseDupsBy_loop_map r f l []

end FirstOccurrences

/-! ### One point for each revision -/

/-- One point for each revision: in the place of its first point, with the time and the value of its
last. -/
def consolidate (points : List Point) : List Point :=
  (points.eraseDupsBy (·.revId == ·.revId)).map fun first =>
    let last := ((points.filter (·.revId == first.revId)).getLast?).getD first
    { first with time := last.time, value := last.value }

theorem map_revId_consolidate (points : List Point) :
    (consolidate points).map (·.revId) = appendNew [] (points.map (·.revId)) := by
  rw [consolidate, List.map_map, ← map_eraseDupsBy]
  rfl

theorem mem_map_revId_consolidate {points : List Point} {rev : String} :
    rev ∈ (consolidate points).map (·.revId) ↔ rev ∈ points.map (·.revId) := by
  rw [map_revId_consolidate, mem_appendNew_nil]

/-- A point says what the last point of its revision said. -/
theorem reading_of_mem_consolidate {points : List Point} {p : Point} (hp : p ∈ consolidate points) :
    ((lastPoints points)[p.revId]?).map Candle.reading = some (Candle.reading p) := by
  have hmeasured := mem_map_revId_consolidate.mp (List.mem_map_of_mem hp)
  obtain ⟨last, hlast⟩ := Option.isSome_iff_exists.mp
    (getElem?_lastPoints_isSome.mpr (List.mem_map.mp hmeasured))
  obtain ⟨first, -, rfl⟩ := List.mem_map.mp hp
  have hfirst : (lastPoints points)[first.revId]? = some last := hlast
  rw [hlast, ← getElem?_lastPoints, hfirst]
  rfl

theorem reading_lastPoints_consolidate (points : List Point) (rev : String) :
    ((lastPoints (consolidate points))[rev]?).map Candle.reading =
      ((lastPoints points)[rev]?).map Candle.reading := by
  cases hlast : (lastPoints (consolidate points))[rev]? with
  | some p =>
    obtain ⟨hp, rfl⟩ := of_getElem?_lastPoints hlast
    exact (reading_of_mem_consolidate hp).symm
  | none =>
    have hnone : (lastPoints points)[rev]? = none := by
      rw [← Option.not_isSome_iff_eq_none, getElem?_lastPoints_isSome] at hlast ⊢
      rw [← List.mem_map] at hlast ⊢
      rwa [← mem_map_revId_consolidate]
    rw [hnone]

theorem measuredRevisions_consolidate (points : List Point) :
    Partition.measuredRevisions (consolidate points) = Partition.measuredRevisions points := by
  unfold Partition.measuredRevisions
  rw [map_revId_consolidate, ← Roster.toList_ofList, Roster.ofList_toList_ofList]

theorem bucketOf?_consolidate (size : BucketSize) (points : List Point) :
    Partition.bucketOf? size (consolidate points) = Partition.bucketOf? size points := by
  funext rev
  have hreading := reading_lastPoints_consolidate points rev
  have hkey := congrArg (Option.map fun r => size.key r.1) hreading
  rw [Option.map_map, Option.map_map] at hkey
  rw [Partition.bucketOf?_eq_map_lastPoints, Partition.bucketOf?_eq_map_lastPoints]
  exact hkey

/-- Links depend on the edges only through the first occurrence of each. -/
theorem Segment.ofLinks_congr {edges edges' : List MinimalEdge}
    (h : appendNew [] edges = appendNew [] edges') (partition : Partition)
    (candles : List Candle) :
    ofLinks edges partition candles = ofLinks edges' partition candles := by
  rw [ofLinks_eq_filterMap, ofLinks_eq_filterMap, ← appendNew_filterMap_appendNew, h,
    appendNew_filterMap_appendNew]

namespace History

/-- The history with one point for each revision. -/
def consolidated (h : History) : History :=
  { h with points := consolidate h.points }

theorem flatten_map_block (points : List Point) (block : String → List MinimalEdge) :
    (points.map fun point => block point.revId).flatten =
      (points.map (·.revId)).flatMap block := by
  rw [List.flatMap_map]
  rfl

/-! ### Minimal edges -/

/-- A revision has one block of minimal edges, with repetitions and without. -/
theorem exists_block (h : History) :
    ∃ block : String → List MinimalEdge,
      h.minimalBlocks = h.points.map (fun point => block point.revId) ∧
      h.consolidated.minimalBlocks = h.consolidated.points.map fun point => block point.revId :=
  exists_minimalBlocks_eq_map h h.consolidated rfl (map_revId_consolidate h.points)

/-- Blocks that are repeated list no edge for the first time. -/
theorem appendNew_minimalEdges_consolidated (h : History) :
    appendNew [] h.minimalEdges = appendNew [] h.consolidated.minimalEdges := by
  obtain ⟨block, hblocks, hblocks'⟩ := h.exists_block
  rw [minimalEdges, minimalEdges, hblocks, hblocks', flatten_map_block, flatten_map_block,
    consolidated, map_revId_consolidate, appendNew_flatMap_appendNew]

/-- Each point has the block that the one point of its revision has. -/
theorem forall₂_minimalBlocks_consolidated (h : History) :
    List.Forall₂ (fun point block => ∃ (k : Nat) (p : Point),
        h.consolidated.points[k]? = some p ∧ p.revId = point.revId ∧
        h.consolidated.minimalBlocks[k]? = some block)
      h.points h.minimalBlocks := by
  obtain ⟨block, hblocks, hblocks'⟩ := h.exists_block
  rw [hblocks, hblocks', List.forall₂_map_right_iff, List.forall₂_same]
  intro point hpoint
  have hrev := mem_map_revId_consolidate.mpr (List.mem_map_of_mem hpoint)
  obtain ⟨p, hp, hrevId⟩ := List.mem_map.mp hrev
  obtain ⟨k, hk⟩ := List.mem_iff_getElem?.mp hp
  have hpoints : h.consolidated.points[k]? = some p := hk
  refine ⟨k, p, hpoints, hrevId, ?_⟩
  rw [List.getElem?_map, hpoints, Option.map_some, hrevId]

/-- Without the blocks of repeated points, the blocks are those of the one point of each
revision. -/
theorem minimalBlocks_consolidated (h : History) :
    ((h.points.zip h.minimalBlocks).eraseDupsBy (·.1.revId == ·.1.revId)).map (·.2) =
      h.consolidated.minimalBlocks := by
  obtain ⟨block, hblocks, hblocks'⟩ := h.exists_block
  have hzip : h.points.zip (h.points.map fun point => block point.revId) =
      h.points.map fun point => (point, block point.revId) := by
    have hmap : (h.points.map id).zip (h.points.map fun point => block point.revId) =
        h.points.map fun point => (point, block point.revId) := List.zip_map'
    rwa [List.map_id] at hmap
  rw [hblocks, hblocks', hzip, eraseDupsBy_map, List.map_map, consolidated, consolidate,
    List.map_map]
  rfl

/-! ### Views -/

theorem partition_consolidated (h : History) (size : BucketSize) :
    (h.candlesView size).partition = (h.consolidated.candlesView size).partition :=
  Partition.ofPoints_congr (measuredRevisions_consolidate h.points).symm
    (bucketOf?_consolidate size h.points).symm h.appendNew_minimalEdges_consolidated

theorem candles_consolidated (h : History) (size : BucketSize) :
    (h.candlesView size).candles = (h.consolidated.candlesView size).candles := by
  show Candle.ofComponents h.points (h.candlesView size).partition.components.toList =
    Candle.ofComponents h.consolidated.points
      (h.consolidated.candlesView size).partition.components.toList
  rw [partition_consolidated]
  exact List.map_congr_left fun c _ =>
    Candle.ofComponent_congr (fun rev => (reading_lastPoints_consolidate h.points rev).symm) c

theorem links_consolidated (h : History) (size : BucketSize) :
    (h.candlesView size).links = (h.consolidated.candlesView size).links := by
  show Segment.ofLinks h.minimalEdges (h.candlesView size).partition (h.candlesView size).candles =
    Segment.ofLinks h.consolidated.minimalEdges (h.consolidated.candlesView size).partition
      (h.consolidated.candlesView size).candles
  rw [partition_consolidated, candles_consolidated,
    Segment.ofLinks_congr h.appendNew_minimalEdges_consolidated]

/-- **Repeated measurements**: with one point for each revision, in the place of its first and with
the time and value of its last, a history has the same partition, the same candles and the same
links, in buckets of any size.  Each point has the block of minimal edges that the one point of its
revision has, and without the blocks of repeated points, the blocks are the same. -/
theorem candlesView_consolidated (h : History) (size : BucketSize) :
    let view := h.candlesView size
    let view' := h.consolidated.candlesView size
    view.partition = view'.partition ∧ view.candles = view'.candles ∧ view.links = view'.links ∧
    view.minimalEdges = h.minimalBlocks.flatten ∧
    view'.minimalEdges = h.consolidated.minimalBlocks.flatten ∧
    List.Forall₂ (fun point block => ∃ (k : Nat) (p : Point),
        h.consolidated.points[k]? = some p ∧ p.revId = point.revId ∧
        h.consolidated.minimalBlocks[k]? = some block)
      h.points h.minimalBlocks ∧
    ((h.points.zip h.minimalBlocks).eraseDupsBy (·.1.revId == ·.1.revId)).map (·.2) =
      h.consolidated.minimalBlocks := by
  intro view view'
  exact ⟨h.partition_consolidated size, h.candles_consolidated size, h.links_consolidated size,
    rfl, rfl, h.forall₂_minimalBlocks_consolidated, h.minimalBlocks_consolidated⟩

end History

end MetricHistory
