import MetricHistory.Proofs.Component.Coarsening
import MetricHistory.Proofs.Summary
import MetricHistory.Sample.Fixture

/-!
# Candles of weeks and months from candles of days

A component of a week or a month is made of components of days, and its candle tells what the
candles of these days tell together: it begins as the first of them begins, ends as the last of them
ends, and is as low and as high as they get.

* `Candle.IsAtEnd`: the earliest member of a component, or the latest.
* `Partition.exists_day_at_end`: a candle agrees at its ends with the candles of these days.
* `Partition.candles_roll_up`: the candles of wider buckets and those of days.
-/

namespace MetricHistory

namespace Candle

variable {last : Std.TreeMap String Point}

/-- A member whose time comes before that of every member, in the sense of `before`: the earliest
member, or the latest. -/
def IsAtEnd (before : Instant → Instant → Prop) (last : Std.TreeMap String Point) (c : Component)
    (rev : String) : Prop :=
  rev ∈ c.members ∧ ∃ p, last[rev]? = some p ∧
    ∀ other ∈ c.members, ∀ q, last[other]? = some q → before p.time q.time

/-- A figure of candles that each has from the point at its end. -/
def IsValueAtEnd (before : Instant → Instant → Prop) (figure : Candle → Float) : Prop :=
  ∀ (last : Std.TreeMap String Point) (c : Component), sortedPoints last c ≠ [] →
    ∃ p ∈ sortedPoints last c, (∀ q ∈ sortedPoints last c, before p.time q.time) ∧
      figure (ofComponent last c) = p.value

theorem isValueAtEnd_opening : IsValueAtEnd (· ≤ ·) opening := by
  intro last c hne
  obtain ⟨first, hfirst, latest, -, hends, -, hopening, -⟩ := exists_ends hne
  exact ⟨first, hfirst, fun q hq => (hends q hq).1, hopening⟩

theorem isValueAtEnd_closing : IsValueAtEnd (· ≥ ·) closing := by
  intro last c hne
  obtain ⟨first, -, latest, hlatest, hends, -, -, hclosing⟩ := exists_ends hne
  exact ⟨latest, hlatest, fun q hq => (hends q hq).2, hclosing⟩

end Candle

namespace Partition

open Candle (IsAtEnd IsValueAtEnd sortedPoints mem_sortedPoints values mem_values)

variable {size : BucketSize} {points : List Point} {edges : List MinimalEdge}

/-! ### The values of a component and of its days -/

/-- The values of a component are those of its days. -/
theorem mem_values_iff {w : Component} (hw : w ∈ (ofPoints size points edges).components.toList)
    (v : Float) :
    v ∈ values (lastPoints points) w ↔
      ∃ d ∈ {d | d ∈ days points edges w}, v ∈ values (lastPoints points) d := by
  rw [mem_values]
  constructor
  · rintro ⟨rev, hrev, hvalue⟩
    obtain ⟨d, hd, hrevd⟩ := exists_day hw hrev
    exact ⟨d, hd, mem_values.mpr ⟨rev, hrevd, hvalue⟩⟩
  · rintro ⟨d, hd, hvalue⟩
    obtain ⟨rev, hrevd, hvalue⟩ := mem_values.mp hvalue
    exact ⟨rev, (mem_days.mp hd).2 hrevd, hvalue⟩

/-- A figure that is an extreme of the values of each component is, for a component, the extreme of
what it is for its days. -/
theorem extreme_days {le : Float → Float → Prop} {figure : Candle → Float}
    (hfigure : ∀ {c : Component}, sortedPoints (lastPoints points) c ≠ [] →
      Value.IsExtreme le (values (lastPoints points) c)
        (figure (Candle.ofComponent (lastPoints points) c)))
    (heq : ∀ {u v : Float}, u ≠ -0.0 → v ≠ -0.0 → le u v → le v u → u = v)
    (hvalues : ∀ p ∈ points, p.value.isNaN = false ∧ p.value ≠ -0.0) {w : Component}
    (hw : w ∈ (ofPoints size points edges).components.toList) :
    let candle := Candle.ofComponent (lastPoints points)
    figure (candle w) ∈ (fun d => figure (candle d)) '' {d | d ∈ days points edges w} ∧
      ∀ u ∈ (fun d => figure (candle d)) '' {d | d ∈ days points edges w},
        le (figure (candle w)) u := by
  intro candle
  have hproper : ∀ v ∈ values (lastPoints points) w, v.isNaN = false ∧ v ≠ -0.0 := by
    intro v hv
    obtain ⟨rev, -, p, hlast, rfl⟩ := mem_values.mp hv
    exact hvalues p (of_getElem?_lastPoints hlast).1
  refine (hfigure (sortedPoints_ne_nil hw)).of_parts (mem_values_iff hw) ?_ ?_ ?_
  · intro d hd
    exact hfigure (sortedPoints_ne_nil (mem_days.mp hd).1)
  · intro v hv
    exact (hproper v hv).1
  · intro u hu v hv
    exact heq (hproper u hu).2 (hproper v hv).2

/-! ### The ends of a component and of its days -/

/-- Where times are distinct, points of one time are one point. -/
theorem eq_of_time_eq (htimes : (points.map (·.time)).Nodup) {rev rev' : String} {p q : Point}
    (hp : (lastPoints points)[rev]? = some p) (hq : (lastPoints points)[rev']? = some q)
    (h : p.time = q.time) : p = q :=
  List.inj_on_of_nodup_map htimes (of_getElem?_lastPoints hp).1 (of_getElem?_lastPoints hq).1 h

/-- Where times are distinct, a component has one member at its end, that member lies in one day,
and the two candles agree there. -/
theorem exists_day_at_end {before : Instant → Instant → Prop} {figure : Candle → Float}
    (heq : ∀ {s t : Instant}, before s t → before t s → s = t)
    (hfigure : IsValueAtEnd before figure) (htimes : (points.map (·.time)).Nodup) {w : Component}
    (hw : w ∈ (ofPoints size points edges).components.toList) :
    let candle := Candle.ofComponent (lastPoints points)
    ∃ rev d, (∀ other, IsAtEnd before (lastPoints points) w other ↔ other = rev) ∧
      (∀ d', d' ∈ (ofPoints .day points edges).components.toList ∧ rev ∈ d'.members ↔ d' = d) ∧
      figure (candle w) = figure (candle d) := by
  intro candle
  obtain ⟨p, hp, hend, hvalue⟩ := hfigure (lastPoints points) w (sortedPoints_ne_nil hw)
  obtain ⟨rev, hrev, hlast⟩ := mem_sortedPoints.mp hp
  obtain ⟨d, hday, hrevd⟩ := exists_day hw hrev
  obtain ⟨hd, hdw⟩ := mem_days.mp hday
  refine ⟨rev, d, ?_, ?_, ?_⟩
  · intro other
    constructor
    · rintro ⟨hother, q, hq, hqend⟩
      have hpq : before p.time q.time := hend q (mem_sortedPoints.mpr ⟨other, hother, hq⟩)
      obtain rfl := eq_of_time_eq htimes hlast hq (heq hpq (hqend rev hrev p hlast))
      exact (of_getElem?_lastPoints hq).2.symm.trans (of_getElem?_lastPoints hlast).2
    · rintro rfl
      exact ⟨hrev, p, hlast, fun r hr q hq => hend q (mem_sortedPoints.mpr ⟨r, hr, hq⟩)⟩
  · intro d'
    constructor
    · rintro ⟨hd', hrevd'⟩
      exact eq_of_mem_of_mem hd' hd hrevd' hrevd
    · rintro rfl
      exact ⟨hd, hrevd⟩
  · -- the point at the end of the day is the one at the end of the whole
    obtain ⟨q, hq, hqend, hqvalue⟩ := hfigure (lastPoints points) d (sortedPoints_ne_nil hd)
    obtain ⟨r, hr, hqlast⟩ := mem_sortedPoints.mp hq
    have hpq : before p.time q.time := hend q (mem_sortedPoints.mpr ⟨r, hdw hr, hqlast⟩)
    have hqp : before q.time p.time := hqend p (mem_sortedPoints.mpr ⟨rev, hrevd, hlast⟩)
    obtain rfl := eq_of_time_eq htimes hlast hqlast (heq hpq hqp)
    exact hvalue.trans hqvalue.symm

/-- **Candles of wider buckets**: where times are distinct and all values are numbers other than
minus zero, the low of a candle is the least of the lows of the days that its component is made of,
and its high the greatest of their highs.  It begins as the candle of the day that holds its
earliest member, and ends as the candle of the day that holds its latest one. -/
theorem candles_roll_up (size : BucketSize) (points : List Point) (edges : List MinimalEdge)
    (htimes : (points.map (·.time)).Nodup)
    (hvalues : ∀ p ∈ points, p.value.isNaN = false ∧ p.value ≠ -0.0) :
    let candle := Candle.ofComponent (lastPoints points)
    let fine := (ofPoints .day points edges).components.toList
    let coarse := (ofPoints size points edges).components.toList
    Candle.ofComponents points fine = fine.map candle ∧
    Candle.ofComponents points coarse = coarse.map candle ∧
    ∀ w ∈ coarse,
      IsLeast ((fun d => (candle d).low) '' {d | d ∈ fine ∧ d.members ⊆ w.members})
        (candle w).low ∧
      IsGreatest ((fun d => (candle d).high) '' {d | d ∈ fine ∧ d.members ⊆ w.members})
        (candle w).high ∧
      (∃ earliest d,
        (∀ rev, IsAtEnd (· ≤ ·) (lastPoints points) w rev ↔ rev = earliest) ∧
        (∀ d', d' ∈ fine ∧ earliest ∈ d'.members ↔ d' = d) ∧
        (candle w).opening = (candle d).opening) ∧
      ∃ latest d,
        (∀ rev, IsAtEnd (· ≥ ·) (lastPoints points) w rev ↔ rev = latest) ∧
        (∀ d', d' ∈ fine ∧ latest ∈ d'.members ↔ d' = d) ∧
        (candle w).closing = (candle d).closing := by
  intro candle fine coarse
  refine ⟨rfl, rfl, ?_⟩
  intro w hw
  have hdays : {d | d ∈ fine ∧ d.members ⊆ w.members} = {d | d ∈ days points edges w} :=
    Set.ext fun d => mem_days.symm
  rw [hdays]
  refine ⟨?_, ?_, ?_, ?_⟩
  · exact extreme_days Candle.isExtreme_low Value.eq_of_le_of_le hvalues hw
  · exact extreme_days Candle.isExtreme_high
      (fun hu hv huv hvu => Value.eq_of_le_of_le hu hv hvu huv) hvalues hw
  · exact exists_day_at_end Instant.le_antisymm Candle.isValueAtEnd_opening htimes hw
  · exact exists_day_at_end (fun hst hts => Instant.le_antisymm hts hst)
      Candle.isValueAtEnd_closing htimes hw

/-- Edges from Sunday to Monday. -/
def sundayToMonday : List MinimalEdge :=
  [⟨"sun-1", "sun-2"⟩, ⟨"sun-2", "mon-1"⟩, ⟨"mon-1", "mon-2"⟩]

theorem length_components_weekBoundary :
    let points := Fixture.weekBoundary.history.points
    (ofPoints .month points sundayToMonday).components.toList.length = 1 ∧
      (ofPoints .day points sundayToMonday).components.toList.length = 2 := by
  decide +kernel

/-- The candle of one month, in which two days are joined. -/
theorem candles_roll_up_weekBoundary :
    let points := Fixture.weekBoundary.history.points
    let candle := Candle.ofComponent (lastPoints points)
    let fine := (ofPoints .day points sundayToMonday).components.toList
    let coarse := (ofPoints .month points sundayToMonday).components.toList
    (points.map (·.time)).Nodup ∧ (∀ p ∈ points, p.value.isNaN = false ∧ p.value ≠ -0.0) ∧
    coarse.length = 1 ∧ fine.length = 2 ∧
    ∀ w ∈ coarse,
      IsLeast ((fun d => (candle d).low) '' {d | d ∈ fine ∧ d.members ⊆ w.members})
        (candle w).low ∧
      IsGreatest ((fun d => (candle d).high) '' {d | d ∈ fine ∧ d.members ⊆ w.members})
        (candle w).high ∧
      (∃ d ∈ fine, (candle w).opening = (candle d).opening) ∧
      ∃ d ∈ fine, (candle w).closing = (candle d).closing := by
  intro points candle fine coarse
  have htimes : (points.map (·.time)).Nodup := by decide
  have hvalues : ∀ p ∈ points, p.value.isNaN = false ∧ p.value ≠ -0.0 := by decide
  obtain ⟨-, -, hrolled⟩ := candles_roll_up .month points sundayToMonday htimes hvalues
  obtain ⟨hcoarse, hfine⟩ := length_components_weekBoundary
  refine ⟨htimes, hvalues, hcoarse, hfine, ?_⟩
  intro w hw
  obtain ⟨hlow, hhigh, ⟨_, d, -, hd, hopening⟩, _, e, -, he, hclosing⟩ := hrolled w hw
  exact ⟨hlow, hhigh, ⟨d, ((hd d).mpr rfl).1, hopening⟩, e, ((he e).mpr rfl).1, hclosing⟩

end Partition

end MetricHistory
