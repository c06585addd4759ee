import MetricHistory.Proofs.Candle
import MetricHistory.Proofs.Links
import MetricHistory.Sample.Fixture

/-!
# Links run forward in time

Where no minimal edge leads back in time, no link does, whatever the buckets: a link joins two
buckets, the earlier one holds the parent of an edge and the later one its child, and the middles of
the two candles lie in these buckets.  So following links never comes back to where it began.

* `History.LeadsForward`: a minimal edge does not lead back in time.
* `History.x1_lt_x2_of_mem_links`: links of a history.
* `History.links_forward`: links run forward, and form no cycle.
-/

namespace MetricHistory.History

open Relation

/-- The last point of the parent is not after that of the child. -/
def LeadsForward (h : History) (e : MinimalEdge) : Prop :=
  ∀ parent child, (lastPoints h.points)[e.parent]? = some parent →
    (lastPoints h.points)[e.child]? = some child → parent.time ≤ child.time

variable {h : History} {size : BucketSize}

theorem x1_lt_x2_of_mem_links (hleap : ∀ point ∈ h.points, point.time.isLeap = false)
    (hforward : ∀ e ∈ h.minimalEdges, h.LeadsForward e) {link : Segment}
    (hlink : link ∈ (h.candlesView size).links) : link.x1 < link.x2 := by
  rw [links_eq_map_crossings, List.mem_map] at hlink
  obtain ⟨⟨a, b⟩, hpair, rfl⟩ := hlink
  have hbucket := Partition.bucket_ne_of_mem_crossings hpair
  obtain ⟨ha, hb, -, e, he, hparent, hchild⟩ := Partition.mem_crossings_ofPoints.mp hpair
  obtain ⟨parent, hparentLast, hparentKey⟩ := Partition.exists_lastPoint_of_mem ha hparent
  obtain ⟨child, hchildLast, hchildKey⟩ := Partition.exists_lastPoint_of_mem hb hchild
  have hx1 := Partition.key_x_ofComponent ha hleap
  have hx2 := Partition.key_x_ofComponent hb hleap
  have hle : parent.time ≤ child.time := hforward e he parent child hparentLast hchildLast
  rw [← hparentKey, ← hchildKey] at hbucket
  exact size.lt_of_key_ne hle hbucket (hx1.trans hparentKey.symm) (hx2.trans hchildKey.symm)

/-- A link is drawn from one candle to another. -/
def Linked (view : CandlesView) (a b : Candle) : Prop :=
  Segment.ofCandles a b ∈ view.links

theorem x_lt_of_transGen {view : CandlesView} (hlt : ∀ link ∈ view.links, link.x1 < link.x2)
    {a b : Candle} (hpath : TransGen (Linked view) a b) : a.x < b.x := by
  induction hpath with
  | single hlink => exact hlt _ hlink
  | tail _ hlink ih => exact Instant.lt_trans ih (hlt _ hlink)

/-- **Forward in time**: where no minimal edge leads back in time and there is no leap second, every
link leads from a candle to a later one, in buckets of any size, and so the links form no cycle. -/
theorem links_forward (h : History) (size : BucketSize)
    (hleap : ∀ point ∈ h.points, point.time.isLeap = false)
    (hforward : ∀ e ∈ h.minimalEdges, h.LeadsForward e) :
    (∀ link ∈ (h.candlesView size).links, link.x1 < link.x2) ∧
      ∀ candle, ¬ TransGen (Linked (h.candlesView size)) candle candle := by
  have hlt : ∀ link ∈ (h.candlesView size).links, link.x1 < link.x2 :=
    fun _ hlink => x1_lt_x2_of_mem_links hleap hforward hlink
  refine ⟨hlt, ?_⟩
  intro candle hcycle
  exact Instant.lt_irrefl candle.x (x_lt_of_transGen hlt hcycle)

/-- A revision and its measured grandparent, on two days. -/
def overnight : History :=
  { points := [⟨"", "C", Fixture.january 2 1, 3.0⟩, ⟨"", "A", Fixture.january 1 22, 1.0⟩]
    parents := [⟨"C", "B"⟩, ⟨"B", "A"⟩] }

theorem minimalEdges_overnight : overnight.minimalEdges = [⟨"A", "C"⟩] := by
  decide +kernel

theorem leadsForward_overnight : ∀ e ∈ overnight.minimalEdges, overnight.LeadsForward e := by
  rw [minimalEdges_overnight]
  intro e he parent child hparent hchild
  obtain rfl := List.mem_singleton.mp he
  rw [getElem?_lastPoints] at hparent hchild
  cases hparent
  cases hchild
  decide

theorem links_overnight_ne_nil : (overnight.candlesView .day).links ≠ [] := by
  rw [links_eq_map_crossings, minimalEdges_overnight, ne_eq, List.map_eq_nil_iff]
  decide +kernel

/-- The link between the two days runs forward. -/
theorem links_forward_overnight :
    (∀ point ∈ overnight.points, point.time.isLeap = false) ∧
      (∀ e ∈ overnight.minimalEdges, overnight.LeadsForward e) ∧
      (overnight.candlesView .day).links ≠ [] ∧
      (∀ link ∈ (overnight.candlesView .day).links, link.x1 < link.x2) ∧
      ∀ candle, ¬ TransGen (Linked (overnight.candlesView .day)) candle candle := by
  have hleap : ∀ point ∈ overnight.points, point.time.isLeap = false := by decide
  exact ⟨hleap, leadsForward_overnight, links_overnight_ne_nil,
    links_forward overnight .day hleap leadsForward_overnight⟩

end MetricHistory.History
