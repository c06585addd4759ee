import MetricHistory.Segment
import MetricHistory.Proofs.Component.Partition
import Mathlib.Data.List.Forall2
import Mathlib.Data.List.Induction

/-!
# Links between any candles

Links are drawn between the candles of a list, whatever these are: some components may have no
candle, or several, and some candles may belong to no component.  The edges need not be those that
the components were made from.

* `Candle.last?`: the candle that counts for an id.
* `Partition.Crosses`: an edge leads from one component to another.
* `Segment.ofLinks_eq_filterMap`: links are drawn for the pairs of ids that edges join.
* `Segment.ofLinks_spec`: which pairs have a link, in which order, and where their links run.
-/

namespace MetricHistory

/-! ### The candles that count -/

/-- The last of the candles with an id, if there is one. -/
def Candle.last? (candles : List Candle) (id : String) : Option Candle :=
  (candles.filter (·.componentId = id)).getLast?

theorem Candle.isSome_last?_iff {candles : List Candle} {id : String} :
    (last? candles id).isSome ↔ id ∈ candles.map (·.componentId) := by
  rw [last?, List.getLast?_isSome, ne_eq, List.filter_eq_nil_iff, List.mem_map]
  simp

namespace Segment

/-- The last candle with an id is found by that id. -/
theorem getElem?_lastCandles_eq_last? (candles : List Candle) (id : String) :
    (lastCandles candles)[id]? = Candle.last? candles id := by
  induction candles using List.reverseRecOn with
  | nil => rfl
  | append_singleton candles c ih =>
    rw [Candle.last?] at ih ⊢
    rw [lastCandles, List.foldl_concat, ← lastCandles, Std.TreeMap.getElem?_insert,
      List.filter_append, List.getLast?_append, ih]
    by_cases hc : c.componentId = id
    · rw [if_pos (by rw [hc]; exact Std.ReflCmp.compare_self), List.filter_singleton]
      simp [hc]
    · rw [if_neg (fun h => hc (Std.LawfulEqCmp.eq_of_compare h)), List.filter_singleton]
      simp [hc]

/-- The line between the candles that count for two ids, if both ids have one. -/
def between? (candles : List Candle) (pair : String × String) : Option Segment :=
  (Candle.last? candles pair.1).bind fun a => (Candle.last? candles pair.2).map (ofCandles a)

variable {candles : List Candle} {pair : String × String} {link : Segment}

theorem between?_eq_some_iff :
    between? candles pair = some link ↔
      ∃ c ∈ Candle.last? candles pair.1, ∃ d ∈ Candle.last? candles pair.2,
        link = ofCandles c d := by
  simp only [between?, Option.bind_eq_some_iff, Option.map_eq_some_iff, Option.mem_def,
    eq_comm (a := link)]

/-- There is a line if both ids occur. -/
theorem isSome_between?_iff :
    (between? candles pair).isSome ↔
      pair.1 ∈ candles.map (·.componentId) ∧ pair.2 ∈ candles.map (·.componentId) := by
  rw [← Candle.isSome_last?_iff, ← Candle.isSome_last?_iff, Option.isSome_iff_exists,
    Option.isSome_iff_exists, Option.isSome_iff_exists]
  simp only [between?_eq_some_iff]
  constructor
  · rintro ⟨-, c, hc, d, hd, -⟩
    exact ⟨⟨c, hc⟩, ⟨d, hd⟩⟩
  · rintro ⟨⟨c, hc⟩, ⟨d, hd⟩⟩
    exact ⟨_, c, hc, d, hd, rfl⟩

namespace Drawing

variable {partition : Partition} {edges : List MinimalEdge} {d : Drawing} {e : MinimalEdge}

theorem add_of_joined?_eq_none (h : joined? partition e = none)
    (last : Std.TreeMap String Candle) : d.add partition last e = d := by
  obtain ⟨seen, lines⟩ := d
  unfold add
  rw [h]

/-- An edge is drawn if its pair has no line yet and could have one. -/
theorem add_of_joined? (h : joined? partition e = some pair) (candles : List Candle) :
    d.add partition (lastCandles candles) e =
      if pair ∈ d.seen then d
      else (between? candles pair).elim d fun line =>
        { seen := d.seen.insert pair, lines := d.lines.push line } := by
  obtain ⟨seen, lines⟩ := d
  obtain ⟨a, b⟩ := pair
  unfold add
  rw [h]
  dsimp only
  rw [getElem?_lastCandles_eq_last?, getElem?_lastCandles_eq_last?, between?]
  congr 1
  cases Candle.last? candles a <;> cases Candle.last? candles b <;> rfl

/-- What was drawn for some edges: one line for each pair of ids that an edge joins and that has
candles, in the order of the first of these edges. -/
structure Shows (d : Drawing) (partition : Partition) (candles : List Candle)
    (edges : List MinimalEdge) : Prop where
  mem_seen_iff : ∀ pair, pair ∈ d.seen ↔
    pair ∈ edges.filterMap (joined? partition) ∧ (between? candles pair).isSome = true
  lines_eq : d.lines.toList =
    (appendNew [] (edges.filterMap (joined? partition))).filterMap (between? candles)

theorem Shows.start (partition : Partition) (candles : List Candle) :
    Shows { seen := ∅, lines := #[] } partition candles [] where
  mem_seen_iff := by simp
  lines_eq := rfl

/-- One more edge is drawn or passed over.  An edge that is passed over neither keeps a later one
from being drawn nor lets one be drawn twice. -/
theorem Shows.add (h : d.Shows partition candles edges) (e : MinimalEdge) :
    (d.add partition (lastCandles candles) e).Shows partition candles (edges ++ [e]) := by
  obtain ⟨hseen, hlines⟩ := h
  cases hjoined : joined? partition e with
  | none =>
    rw [add_of_joined?_eq_none hjoined]
    refine ⟨?_, ?_⟩ <;>
      rwa [List.filterMap_append, List.filterMap_cons_none hjoined, List.filterMap_nil,
        List.append_nil]
  | some pair =>
    have hpairs : (edges ++ [e]).filterMap (joined? partition) =
        edges.filterMap (joined? partition) ++ [pair] := by
      rw [List.filterMap_append, List.filterMap_cons_some hjoined, List.filterMap_nil]
    rw [add_of_joined? hjoined]
    by_cases hmem : pair ∈ d.seen
    · rw [if_pos hmem]
      have hold := ((hseen pair).mp hmem).1
      refine ⟨fun other => ?_, ?_⟩
      · rw [hseen, hpairs, List.mem_append, List.mem_singleton]
        exact and_congr_left fun _ => (or_iff_left_of_imp fun h => h ▸ hold).symm
      · rw [hpairs, appendNew_concat, if_pos (mem_appendNew_nil.mpr hold), hlines]
    · rw [if_neg hmem]
      cases hline : between? candles pair with
      | none =>
        rw [Option.elim_none]
        refine ⟨fun other => ?_, ?_⟩
        · rw [hseen, hpairs, List.mem_append, List.mem_singleton]
          refine and_congr_left fun hsome => (or_iff_left fun h => ?_).symm
          rw [h, hline] at hsome
          cases hsome
        · rw [hpairs, appendNew_concat, hlines]
          split_ifs
          · rfl
          · rw [List.filterMap_append, List.filterMap_cons_none hline, List.filterMap_nil,
              List.append_nil]
      | some line =>
        rw [Option.elim_some]
        have hnew : pair ∉ edges.filterMap (joined? partition) := fun h =>
          hmem ((hseen pair).mpr ⟨h, by rw [hline]; rfl⟩)
        refine ⟨fun other => ?_, ?_⟩
        · rw [Std.TreeSet.mem_insert, hseen, Std.LawfulEqCmp.compare_eq_iff_eq, hpairs,
            List.mem_append, List.mem_singleton, or_and_right, or_comm, eq_comm (a := pair)]
          refine or_congr_right (and_iff_left_of_imp fun h => ?_).symm
          rw [h, hline]
          rfl
        · rw [hpairs, appendNew_concat, if_neg (fun h => hnew (mem_appendNew_nil.mp h)),
            Array.toList_push, hlines, List.filterMap_append, List.filterMap_cons_some hline,
            List.filterMap_nil]

end Drawing

/-- Links are drawn for the pairs of ids that edges join, in the order of their first edges. -/
theorem ofLinks_eq_filterMap (edges : List MinimalEdge) (partition : Partition)
    (candles : List Candle) :
    ofLinks edges partition candles =
      (appendNew [] (edges.filterMap (joined? partition))).filterMap (between? candles) := by
  have hshows : (edges.foldl (Drawing.add partition (lastCandles candles))
      { seen := ∅, lines := #[] }).Shows partition candles edges := by
    induction edges using List.reverseRecOn with
    | nil => exact Drawing.Shows.start partition candles
    | append_singleton edges e ih =>
      rw [List.foldl_concat]
      exact ih.add e
  exact hshows.lines_eq

end Segment

/-! ### Edges between components -/

namespace Partition

/-- The edge leads from the component with the id `a` to the one with the id `b`. -/
def Crosses (p : Partition) (e : MinimalEdge) (a b : String) : Prop :=
  (∃ c ∈ p.components.toList, c.id = a ∧ e.parent ∈ c.members) ∧
    ∃ c ∈ p.components.toList, c.id = b ∧ e.child ∈ c.members

instance (p : Partition) (e : MinimalEdge) (a b : String) : Decidable (p.Crosses e a b) :=
  inferInstanceAs (Decidable (_ ∧ _))

/-- The position of the first edge from the one component to the other. -/
def firstCrossing (p : Partition) (edges : List MinimalEdge) (pair : String × String) : Nat :=
  edges.findIdx fun e => p.Crosses e pair.1 pair.2

variable {size : BucketSize} {points : List Point} {edges : List MinimalEdge}

theorem idOf?_eq_some_iff {rev id : String} :
    (ofPoints size points edges).idOf? rev = some id ↔
      ∃ c ∈ (ofPoints size points edges).components.toList, c.id = id ∧ rev ∈ c.members := by
  rw [idOf?, Option.map_eq_some_iff]
  constructor
  · rintro ⟨c, hc, hid⟩
    obtain ⟨hmem, hrev⟩ := componentOf?_eq_some_iff.mp hc
    exact ⟨c, hmem, hid, hrev⟩
  · rintro ⟨c, hmem, hid, hrev⟩
    exact ⟨c, componentOf?_eq_some_iff.mpr ⟨hmem, hrev⟩, hid⟩

/-- Two ids are joined by the edges that lead from one component to another. -/
theorem joined?_eq_some_iff {e : MinimalEdge} {a b : String} :
    Segment.joined? (ofPoints size points edges) e = some (a, b) ↔
      (ofPoints size points edges).Crosses e a b ∧ a ≠ b := by
  rw [Crosses, ← idOf?_eq_some_iff, ← idOf?_eq_some_iff, Segment.joined?]
  constructor
  · intro h
    split at h
    · next a' b' ha hb =>
      split_ifs at h with hne
      cases h
      exact ⟨⟨ha, hb⟩, hne⟩
    · cases h
  · rintro ⟨⟨ha, hb⟩, hne⟩
    rw [ha, hb]
    exact if_neg hne

end Partition

/-! ### Links -/

/-- What a function gives, along with the items for which it gives something. -/
theorem forall₂_filter_filterMap {α β : Type} (f : α → Option β) (l : List α) :
    List.Forall₂ (fun a b => f a = some b) (l.filter fun a => (f a).isSome) (l.filterMap f) := by
  induction l with
  | nil => exact .nil
  | cons a l ih =>
    cases hfa : f a with
    | none => rwa [List.filter_cons_of_neg (by simp [hfa]), List.filterMap_cons_none hfa]
    | some b =>
      rw [List.filter_cons_of_pos (by simp [hfa]), List.filterMap_cons_some hfa]
      exact .cons hfa ih

/-- **Links between any candles**: an ordered pair of ids has one link if the ids differ, some edge
leads from the component of the one to that of the other, and both ids occur among the candles.  The
links are in the order of the first of these edges, and each runs from the middle of the last candle
with the first id to the middle of the last candle with the second. -/
theorem Segment.ofLinks_spec (size : BucketSize) (points : List Point)
    (edges edges' : List MinimalEdge) (candles : List Candle) :
    let partition := Partition.ofPoints size points edges'
    let ids := candles.map (·.componentId)
    ∃ pairs : List (String × String),
      pairs.Nodup ∧
      (∀ a b, (a, b) ∈ pairs ↔
        (∃ e ∈ edges, partition.Crosses e a b) ∧ a ≠ b ∧ a ∈ ids ∧ b ∈ ids) ∧
      (pairs.Pairwise fun p q =>
        partition.firstCrossing edges p < partition.firstCrossing edges q) ∧
      List.Forall₂ (fun pair link =>
        ∃ c ∈ Candle.last? candles pair.1, ∃ d ∈ Candle.last? candles pair.2,
          link = ⟨c.x, c.bodyMiddle, d.x, d.bodyMiddle⟩)
        pairs (ofLinks edges partition candles) := by
  intro partition ids
  let joined := appendNew [] (edges.filterMap (joined? partition))
  have hmem : ∀ a b, (a, b) ∈ joined ↔ (∃ e ∈ edges, partition.Crosses e a b) ∧ a ≠ b := by
    intro a b
    simp only [joined, mem_appendNew_nil, List.mem_filterMap, partition,
      Partition.joined?_eq_some_iff, ← and_assoc, exists_and_right]
  have hfirst : ∀ pair ∈ joined, partition.firstCrossing edges pair =
      edges.findIdx (joined? partition · = some pair) := by
    rintro ⟨a, b⟩ hpair
    have hne := ((hmem a b).mp hpair).2
    unfold Partition.firstCrossing
    congr 1
    funext e
    rw [decide_eq_decide, Partition.joined?_eq_some_iff]
    exact (and_iff_left hne).symm
  refine ⟨joined.filter fun pair => (between? candles pair).isSome, ?_, ?_, ?_, ?_⟩
  · exact (nodup_appendNew List.nodup_nil _).filter _
  · intro a b
    rw [List.mem_filter, hmem, isSome_between?_iff, and_assoc]
  · apply List.Pairwise.filter
    refine (pairwise_findIdx_appendNew (joined? partition) edges).imp_of_mem ?_
    intro p q hp hq hpq
    rwa [hfirst p hp, hfirst q hq]
  · rw [ofLinks_eq_filterMap]
    refine (forall₂_filter_filterMap (between? candles) joined).imp ?_
    intro pair link hlink
    exact between?_eq_some_iff.mp hlink

end MetricHistory
