import MetricHistory.Proofs.Candle
import MetricHistory.Proofs.Value
import MetricHistory.Sample.Fixture

/-!
# What a candle tells of a component

A candle sums up the points of any component, whether or not the component belongs to a partition:
its members may be listed more than once or have no point, and points may share a time or have a
value that is not a number.  The points are sorted by time, and a stable sort decides which of
several earliest points comes first and which of several latest ones comes last.

* `exists_split_of_head?_mergeSort`, `exists_split_of_getLast?_mergeSort`: the ends of a list that
  was sorted by a stable sort.
* `Candle.IsEarliest`, `Candle.IsLatest`: the points with which a candle begins and ends.
* `Candle.isExtreme_low`, `Candle.isExtreme_high`: low and high are extremes of the values.
* `Candle.ofComponents_spec`: the candles of any components.
-/

namespace MetricHistory

/-! ### The ends of a sorted list -/

section StableSort

variable {α : Type} {le : α → α → Bool}

/-- The head of a stably sorted list is the first of the least items. -/
theorem exists_split_of_head?_mergeSort (htrans : ∀ a b c, le a b → le b c → le a c)
    (htotal : ∀ a b, (le a b || le b a) = true) {l : List α} {a : α}
    (h : (l.mergeSort le).head? = some a) :
    ∃ before after, l = before ++ a :: after ∧ (∀ b ∈ before, le b a = false) ∧
      ∀ b ∈ after, le a b = true := by
  induction l with
  | nil => simp at h
  | cons c l ih =>
    obtain ⟨smaller, larger, hcons, hl, hsmaller⟩ := List.mergeSort_cons htrans htotal c l
    cases smaller with
    | nil =>
      -- the new item stands before all others
      rw [hcons] at h
      obtain rfl : c = a := by simpa using h
      have hsorted := List.pairwise_mergeSort htrans htotal (c :: l)
      rw [hcons, List.nil_append, List.pairwise_cons] at hsorted
      refine ⟨[], l, rfl, by simp, ?_⟩
      intro b hb
      apply hsorted.1
      have hmem : b ∈ l.mergeSort le := List.mem_mergeSort.mpr hb
      rwa [hl] at hmem
    | cons d smaller =>
      rw [hcons] at h
      obtain rfl : d = a := by simpa using h
      obtain ⟨before, after, rfl, hbefore, hafter⟩ := ih (by rw [hl]; rfl)
      refine ⟨c :: before, after, rfl, ?_, hafter⟩
      intro b hb
      rcases List.mem_cons.mp hb with rfl | hb
      · simpa using hsmaller d List.mem_cons_self
      · exact hbefore b hb

/-- The last item of a stably sorted list is the last of the greatest items. -/
theorem exists_split_of_getLast?_mergeSort (htrans : ∀ a b c, le a b → le b c → le a c)
    (htotal : ∀ a b, (le a b || le b a) = true) {l : List α} {a : α}
    (h : (l.mergeSort le).getLast? = some a) :
    ∃ before after, l = before ++ a :: after ∧ (∀ b ∈ before, le b a = true) ∧
      ∀ b ∈ after, le a b = false := by
  induction l with
  | nil => simp at h
  | cons c l ih =>
    obtain ⟨smaller, larger, hcons, hl, hsmaller⟩ := List.mergeSort_cons htrans htotal c l
    rw [hcons, List.getLast?_append] at h
    cases hlarger : larger with
    | nil =>
      -- the new item stands after all others
      subst hlarger
      obtain rfl : c = a := by simpa using h
      refine ⟨[], l, rfl, by simp, ?_⟩
      intro b hb
      have hmem : b ∈ l.mergeSort le := List.mem_mergeSort.mpr hb
      rw [hl, List.append_nil] at hmem
      simpa using hsmaller b hmem
    | cons d larger' =>
      subst hlarger
      have hlast : (d :: larger').getLast? = some a := by
        simpa [List.getLast?_cons] using h
      obtain ⟨before, after, rfl, hbefore, hafter⟩ := ih <| by
        rw [hl, List.getLast?_append, hlast]
        rfl
      refine ⟨c :: before, after, rfl, ?_, hafter⟩
      intro b hb
      rcases List.mem_cons.mp hb with rfl | hb
      · have hsorted := List.pairwise_mergeSort htrans htotal (b :: (before ++ a :: after))
        rw [hcons] at hsorted
        have hpairwise := (List.pairwise_append.mp hsorted).2.1
        exact (List.pairwise_cons.mp hpairwise).1 a (List.mem_of_getLast? hlast)
      · exact hbefore b hb

end StableSort

namespace Candle

open Value (IsExtreme Selects)

/-! ### The values -/

section Values

variable {last : Std.TreeMap String Point}

/-- The values of the points of a component, in the order of time. -/
def values (last : Std.TreeMap String Point) (c : Component) : List Float :=
  (sortedPoints last c).map (·.value)

theorem mem_values {c : Component} {v : Float} :
    v ∈ values last c ↔ ∃ rev ∈ c.members, ∃ p, last[rev]? = some p ∧ p.value = v := by
  rw [values, List.mem_map]
  constructor
  · rintro ⟨p, hp, rfl⟩
    obtain ⟨rev, hrev, hlast⟩ := mem_sortedPoints.mp hp
    exact ⟨rev, hrev, p, hlast, rfl⟩
  · rintro ⟨rev, hrev, p, hlast, rfl⟩
    exact ⟨p, mem_sortedPoints.mpr ⟨rev, hrev, hlast⟩, rfl⟩

theorem isExtreme_foldl_value {le : Float → Float → Prop} {pick : Float → Float → Float}
    (hs : Selects le pick) (first : Point) (rest : List Point) :
    IsExtreme le ((first :: rest).map (·.value))
      (rest.foldl (fun v p => pick v p.value) first.value) := by
  have h := hs.foldl (hs.singleton first.value) (rest.map (·.value))
  rwa [List.foldl_map] at h

/-- No number among the values is less than the low of a candle. -/
theorem isExtreme_low {c : Component} (hne : sortedPoints last c ≠ []) :
    IsExtreme (· ≤ ·) (values last c) (ofComponent last c).low := by
  unfold ofComponent values
  cases hsorted : sortedPoints last c with
  | nil => exact absurd hsorted hne
  | cons first rest => exact isExtreme_foldl_value Value.selects_smallerValue first rest

/-- No number among the values is greater than the high of a candle. -/
theorem isExtreme_high {c : Component} (hne : sortedPoints last c ≠ []) :
    IsExtreme (· ≥ ·) (values last c) (ofComponent last c).high := by
  unfold ofComponent values
  cases hsorted : sortedPoints last c with
  | nil => exact absurd hsorted hne
  | cons first rest => exact isExtreme_foldl_value Value.selects_largerValue first rest

end Values

/-! ### The points of the members -/

/-- The points of the members of a component, in the order of the members.  Each has the last of its
points, and members without a point are left out. -/
def memberPoints (points : List Point) (c : Component) : List Point :=
  c.members.filterMap fun rev => (points.filter (·.revId == rev)).getLast?

/-- The first of the earliest points of a list. -/
def IsEarliest (p : Point) (points : List Point) : Prop :=
  ∃ before after, points = before ++ p :: after ∧ (∀ q ∈ before, p.time < q.time) ∧
    ∀ q ∈ after, p.time ≤ q.time

/-- The last of the latest points of a list. -/
def IsLatest (p : Point) (points : List Point) : Prop :=
  ∃ before after, points = before ++ p :: after ∧ (∀ q ∈ before, q.time ≤ p.time) ∧
    ∀ q ∈ after, q.time < p.time

variable {points : List Point} {c : Component}

theorem sortedPoints_lastPoints (points : List Point) (c : Component) :
    sortedPoints (lastPoints points) c =
      (memberPoints points c).mergeSort fun a b => a.time.le b.time := by
  unfold sortedPoints memberPoints
  simp only [getElem?_lastPoints]

theorem mem_sortedPoints_lastPoints {p : Point} :
    p ∈ sortedPoints (lastPoints points) c ↔ p ∈ memberPoints points c := by
  rw [sortedPoints_lastPoints, List.mem_mergeSort]

theorem sortedPoints_eq_nil_iff :
    sortedPoints (lastPoints points) c = [] ↔ memberPoints points c = [] := by
  simp only [List.eq_nil_iff_forall_not_mem, mem_sortedPoints_lastPoints]

theorem isEarliest_of_head? {p : Point}
    (h : (sortedPoints (lastPoints points) c).head? = some p) :
    IsEarliest p (memberPoints points c) := by
  rw [sortedPoints_lastPoints] at h
  obtain ⟨before, after, heq, hbefore, hafter⟩ :=
    exists_split_of_head?_mergeSort le_time_trans le_time_total h
  refine ⟨before, after, heq, ?_, hafter⟩
  intro q hq
  show ¬ q.time.le p.time = true
  rw [hbefore q hq]
  exact Bool.false_ne_true

theorem isLatest_of_getLast? {p : Point}
    (h : (sortedPoints (lastPoints points) c).getLast? = some p) :
    IsLatest p (memberPoints points c) := by
  rw [sortedPoints_lastPoints] at h
  obtain ⟨before, after, heq, hbefore, hafter⟩ :=
    exists_split_of_getLast?_mergeSort le_time_trans le_time_total h
  refine ⟨before, after, heq, hbefore, ?_⟩
  intro q hq
  show ¬ p.time.le q.time = true
  rw [hafter q hq]
  exact Bool.false_ne_true

/-- No point of the list is before the earliest. -/
theorem IsEarliest.le {p q : Point} {ps : List Point} (h : IsEarliest p ps) (hq : q ∈ ps) :
    p.time ≤ q.time := by
  obtain ⟨before, after, rfl, hbefore, hafter⟩ := h
  rcases List.mem_append.mp hq with hq | hq
  · exact (Instant.le_total p.time q.time).resolve_right (hbefore q hq)
  · rcases List.mem_cons.mp hq with rfl | hq
    · exact Instant.le_refl _
    · exact hafter q hq

theorem IsEarliest.mem {p : Point} {ps : List Point} (h : IsEarliest p ps) : p ∈ ps := by
  obtain ⟨before, after, rfl, -⟩ := h
  exact List.mem_append_right before List.mem_cons_self

theorem IsLatest.mem {p : Point} {ps : List Point} (h : IsLatest p ps) : p ∈ ps := by
  obtain ⟨before, after, rfl, -⟩ := h
  exact List.mem_append_right before List.mem_cons_self

theorem mem_map_value_iff (v : Float) :
    v ∈ values (lastPoints points) c ↔ v ∈ (memberPoints points c).map (·.value) := by
  simp only [values, List.mem_map, mem_sortedPoints_lastPoints]

/-! ### The candle of any component -/

/-- Without points all values of a candle are zero, at the epoch. -/
theorem ofComponent_of_memberPoints_eq_nil (h : memberPoints points c = []) :
    ofComponent (lastPoints points) c =
      { bucket := c.bucket, componentId := c.id, x := .epoch
        opening := 0.0, closing := 0.0, low := 0.0, high := 0.0 } := by
  unfold ofComponent
  rw [sortedPoints_eq_nil_iff.mpr h]

/-- A candle begins with the first of its earliest points and ends with the last of its latest
ones. -/
theorem exists_isEarliest_isLatest (hne : memberPoints points c ≠ []) :
    ∃ first latest, IsEarliest first (memberPoints points c) ∧
      IsLatest latest (memberPoints points c) ∧
      (ofComponent (lastPoints points) c).opening = first.value ∧
      (ofComponent (lastPoints points) c).closing = latest.value ∧
      (ofComponent (lastPoints points) c).x = first.time.midpoint latest.time := by
  cases hsorted : sortedPoints (lastPoints points) c with
  | nil => exact absurd (sortedPoints_eq_nil_iff.mp hsorted) hne
  | cons first rest =>
    refine ⟨first, rest.getLastD first, ?_, ?_, ?_⟩
    · apply isEarliest_of_head?
      rw [hsorted, List.head?_cons]
    · apply isLatest_of_getLast?
      rw [hsorted, List.getLast?_cons, List.getLastD_eq_getLast?]
    · unfold ofComponent
      rw [hsorted]
      exact ⟨rfl, rfl, rfl⟩

/-- Outside leap seconds the middle of a candle is half way between two of its points. -/
theorem midpoint_spec {first latest : Point} (hfirst : IsEarliest first (memberPoints points c))
    (hlatest : IsLatest latest (memberPoints points c))
    (hleap : ∀ p ∈ memberPoints points c, p.time.isLeap = false) :
    let x := first.time.midpoint latest.time
    first.time ≤ x ∧ x ≤ latest.time ∧ x.isLeap = false ∧
      x.nanos = first.time.nanos + (latest.time.nanos - first.time.nanos) / 2 := by
  intro x
  have hleapFirst := hleap first hfirst.mem
  have hleapLatest := hleap latest hlatest.mem
  have hbetween := Instant.midpoint_between hleapFirst hleapLatest (hfirst.le hlatest.mem)
  have hnanos := Instant.nanos_midpoint hleapFirst hleapLatest
  refine ⟨hbetween.1, hbetween.2, Instant.isLeap_midpoint hleapFirst hleapLatest, ?_⟩
  show (first.time.midpoint latest.time).nanos = _
  omega

/-- Two revisions at one time.  The first has a point before that, and a value that is not a number
in the end. -/
def simultaneous : List Point :=
  [⟨"repo", "A", Fixture.january 1 10, 5.0⟩, ⟨"repo", "B", Fixture.january 1 12, 2.0⟩,
    ⟨"repo", "A", Fixture.january 1 12, 0.0 / 0.0⟩]

theorem memberPoints_simultaneous :
    (∃ p ∈ memberPoints simultaneous ⟨"any", "1", ["A", "ghost", "B", "A"]⟩,
      p.value.isNaN = false) ∧
    (∀ p ∈ memberPoints simultaneous ⟨"any", "1", ["A", "ghost", "B", "A"]⟩,
      p.time.isLeap = false ∧ p.time = Fixture.january 1 12) ∧
    memberPoints simultaneous ⟨"any", "2", ["ghost"]⟩ = [] := by
  decide +kernel

end Candle

end MetricHistory
