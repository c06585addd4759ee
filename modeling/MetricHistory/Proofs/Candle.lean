import MetricHistory.Candle
import MetricHistory.Proofs.Ancestry.Lineage
import MetricHistory.Proofs.Calendar.Instant
import MetricHistory.Proofs.Calendar.Period
import MetricHistory.Proofs.Component.Partition
import MetricHistory.Sample.Fixture

/-!
# The points of a candle

A candle is made of the points of its component in the order of time.  Where no two of them share a
time, the order in which the members are listed does not matter; and outside leap seconds the middle
of a candle lies in the bucket of its component.

* `Candle.sortedPoints_eq_of_perm`: members listed in another order.
* `Candle.ofComponent_congr`: a candle is told by the times and the values of its points.
* `Candle.exists_ends`, `Candle.x_between`: where a candle begins, where it ends, and its middle.
* `Candle.middle?_eq_none_iff`, `Candle.ofComponents?_eq_some_iff`: when a middle is out of range.
* `Partition.key_x_ofComponent`: the bucket of the middle.
* `Partition.candles_spec`: the candles of all components.
-/

namespace MetricHistory

/-- The last point of a revision is one of its points. -/
theorem of_getElem?_lastPoints {points : List Point} {rev : String} {p : Point}
    (h : (lastPoints points)[rev]? = some p) : p ∈ points ∧ p.revId = rev := by
  rw [getElem?_lastPoints] at h
  obtain ⟨hmem, hrev⟩ := List.mem_filter.mp (List.mem_of_getLast? h)
  exact ⟨hmem, eq_of_beq hrev⟩

/-- Where no revision has two points, the last point of a revision is its only one. -/
theorem getElem?_lastPoints_eq_some_iff {points : List Point}
    (hrevs : (points.map (·.revId)).Nodup) {rev : String} {p : Point} :
    (lastPoints points)[rev]? = some p ↔ p ∈ points ∧ p.revId = rev := by
  constructor
  · exact of_getElem?_lastPoints
  · rintro ⟨hp, rfl⟩
    obtain ⟨q, hq⟩ := Option.isSome_iff_exists.mp (getElem?_lastPoints_isSome.mpr ⟨p, hp, rfl⟩)
    obtain ⟨hmem, hrev⟩ := of_getElem?_lastPoints hq
    rwa [List.inj_on_of_nodup_map hrevs hmem hp hrev] at hq

namespace Candle

variable {last : Std.TreeMap String Point}

/-! ### Sorted points -/

theorem perm_sortedPoints (last : Std.TreeMap String Point) (c : Component) :
    (sortedPoints last c).Perm (c.members.filterMap (last[·]?)) :=
  List.mergeSort_perm _ _

theorem mem_sortedPoints {c : Component} {p : Point} :
    p ∈ sortedPoints last c ↔ ∃ rev ∈ c.members, last[rev]? = some p := by
  rw [(perm_sortedPoints last c).mem_iff, List.mem_filterMap]

theorem le_time_trans (p q r : Point) (hpq : p.time.le q.time = true)
    (hqr : q.time.le r.time = true) : p.time.le r.time = true :=
  Instant.le_trans hpq hqr

theorem le_time_total (p q : Point) : (p.time.le q.time || q.time.le p.time) = true := by
  rw [Bool.or_eq_true]
  exact Instant.le_total p.time q.time

theorem pairwise_sortedPoints (last : Std.TreeMap String Point) (c : Component) :
    (sortedPoints last c).Pairwise fun p q => p.time ≤ q.time :=
  List.pairwise_mergeSort le_time_trans le_time_total _

/-- Where times are distinct, the order of the members does not matter. -/
theorem sortedPoints_eq_of_perm {c d : Component} (hperm : c.members.Perm d.members)
    (hinj : ∀ p ∈ sortedPoints last c, ∀ q ∈ sortedPoints last c, p.time = q.time → p = q) :
    sortedPoints last c = sortedPoints last d := by
  have hsorted : (sortedPoints last c).Perm (sortedPoints last d) :=
    ((perm_sortedPoints last c).trans (hperm.filterMap _)).trans (perm_sortedPoints last d).symm
  refine hsorted.eq_of_pairwise ?_ (pairwise_sortedPoints last c) (pairwise_sortedPoints last d)
  intro p q hp hq hpq hqp
  exact hinj p hp q (hsorted.mem_iff.mpr hq) (Instant.le_antisymm hpq hqp)

/-! ### Readings -/

/-- What a candle shows of a point. -/
def reading (p : Point) : Instant × Float :=
  (p.time, p.value)

/-- The candle of a component whose points have these times and values, in the order of time. -/
def ofReadings (c : Component) : List (Instant × Float) → Candle
  | [] =>
    { bucket := c.bucket, componentId := c.id, x := .epoch
      opening := 0.0, closing := 0.0, low := 0.0, high := 0.0 }
  | first :: rest =>
    { bucket := c.bucket
      componentId := c.id
      x := first.1.midpoint (rest.getLastD first).1
      opening := first.2
      closing := (rest.getLastD first).2
      low := (rest.map (·.2)).foldl smallerValue first.2
      high := (rest.map (·.2)).foldl largerValue first.2 }

/-- A candle is told by the times and values of its points. -/
theorem ofComponent_eq_ofReadings (last : Std.TreeMap String Point) (c : Component) :
    ofComponent last c = ofReadings c ((sortedPoints last c).map reading) := by
  unfold ofComponent
  cases sortedPoints last c with
  | nil => rfl
  | cons first rest =>
    rw [List.map_cons, ofReadings, List.getLastD_map, List.map_map, List.foldl_map, List.foldl_map]
    rfl

/-- Times and values may be taken before the points are sorted. -/
theorem map_reading_sortedPoints (last : Std.TreeMap String Point) (c : Component) :
    (sortedPoints last c).map reading =
      (c.members.filterMap fun rev => (last[rev]?).map reading).mergeSort fun a b => a.1.le b.1 := by
  have hmap : (sortedPoints last c).map reading =
      ((c.members.filterMap (last[·]?)).map reading).mergeSort fun a b => a.1.le b.1 :=
    List.map_mergeSort fun _ _ _ _ => rfl
  rw [hmap, List.map_filterMap]

/-- Tables whose points have the same times and values give the same candles. -/
theorem ofComponent_congr {last' : Std.TreeMap String Point}
    (h : ∀ rev : String, (last[rev]?).map reading = (last'[rev]?).map reading) (c : Component) :
    ofComponent last c = ofComponent last' c := by
  rw [ofComponent_eq_ofReadings, ofComponent_eq_ofReadings, map_reading_sortedPoints,
    map_reading_sortedPoints]
  simp only [h]

/-! ### The ends and the middle -/

@[simp] theorem bucket_ofComponent (last : Std.TreeMap String Point) (c : Component) :
    (ofComponent last c).bucket = c.bucket := by
  unfold ofComponent
  split <;> rfl

@[simp] theorem componentId_ofComponent (last : Std.TreeMap String Point) (c : Component) :
    (ofComponent last c).componentId = c.id := by
  unfold ofComponent
  split <;> rfl

/-- In the order of time no point is before the first or after the last. -/
theorem between_of_pairwise {first p : Point} {rest : List Point}
    (h : (first :: rest).Pairwise fun p q => p.time ≤ q.time) (hp : p ∈ first :: rest) :
    first.time ≤ p.time ∧ p.time ≤ (rest.getLastD first).time := by
  induction rest generalizing first with
  | nil =>
    obtain rfl := List.mem_singleton.mp hp
    exact ⟨Instant.le_refl _, Instant.le_refl _⟩
  | cons second rest ih =>
    obtain ⟨hfirst, hrest⟩ := List.pairwise_cons.mp h
    rw [List.getLastD_cons]
    rcases List.mem_cons.mp hp with rfl | hp
    · exact ⟨Instant.le_refl _, hfirst _ List.getLastD_mem_cons⟩
    · exact ⟨hfirst p hp, (ih hrest hp).2⟩

/-- A candle with points begins with the earliest of them and ends with the latest, and its middle
lies between these two. -/
theorem exists_ends {c : Component} (hne : sortedPoints last c ≠ []) :
    ∃ first ∈ sortedPoints last c, ∃ latest ∈ sortedPoints last c,
      (∀ p ∈ sortedPoints last c, first.time ≤ p.time ∧ p.time ≤ latest.time) ∧
      (ofComponent last c).x = first.time.midpoint latest.time ∧
      (ofComponent last c).opening = first.value ∧
      (ofComponent last c).closing = latest.value := by
  have hpairwise := pairwise_sortedPoints last c
  unfold ofComponent
  cases hsorted : sortedPoints last c with
  | nil => exact absurd hsorted hne
  | cons first rest =>
    rw [hsorted] at hpairwise
    refine ⟨first, List.mem_cons_self, rest.getLastD first, List.getLastD_mem_cons, ?_, rfl, rfl,
      rfl⟩
    intro p hp
    exact between_of_pairwise hpairwise hp

/-- The middle of a candle lies between two of its points, those in time before it and after it. -/
theorem x_between {c : Component} (hne : sortedPoints last c ≠ [])
    (hleap : ∀ p ∈ sortedPoints last c, p.time.isLeap = false) :
    ∃ first ∈ sortedPoints last c, ∃ latest ∈ sortedPoints last c,
      first.time ≤ (ofComponent last c).x ∧ (ofComponent last c).x ≤ latest.time := by
  obtain ⟨first, hfirst, latest, hlatest, hends, hx, -⟩ := exists_ends hne
  have hmiddle := Instant.midpoint_between (hleap first hfirst) (hleap latest hlatest)
    (hends first hfirst).2
  rw [← hx] at hmiddle
  exact ⟨first, hfirst, latest, hlatest, hmiddle⟩

/-! ### Middles out of range -/

section Range

variable {c : Component} {candle : Candle} {x : Instant}

/-- A candle has its middle where it is in range. -/
theorem x_eq_of_middle? (h : middle? last c = some x) : (ofComponent last c).x = x := by
  unfold middle? at h
  unfold ofComponent
  cases hsorted : sortedPoints last c with
  | nil =>
    rw [hsorted] at h
    exact Option.some.inj h
  | cons first rest =>
    rw [hsorted] at h
    exact Instant.midpoint_eq_of_midpoint? h

/-- Only at the end of the last second a middle is out of range: all points of the component lie in
that second, the earliest in no leap second, and half way to the latest is beyond it. -/
theorem middle?_eq_none_iff :
    middle? last c = none ↔ ∃ first rest, sortedPoints last c = first :: rest ∧
      first.time.isLeap = false ∧ first.time.second = lastSecond ∧
      (rest.getLastD first).time.second = lastSecond ∧
      2 * nanosPerSecond ≤ first.time.nano + (rest.getLastD first).time.nano := by
  have hpairwise := pairwise_sortedPoints last c
  unfold middle?
  cases hsorted : sortedPoints last c with
  | nil =>
    refine iff_of_false (Option.some_ne_none _) ?_
    rintro ⟨first, rest, hcons, -⟩
    cases hcons
  | cons first rest =>
    rw [hsorted] at hpairwise
    have hle := (between_of_pairwise hpairwise List.mem_cons_self).2
    dsimp only
    rw [Instant.midpoint?_eq_none_iff hle]
    constructor
    · exact fun h => ⟨first, rest, rfl, h⟩
    · rintro ⟨first', rest', heq, h⟩
      cases heq
      exact h

/-- Outside leap seconds every middle is in range. -/
theorem middle?_ne_none (hleap : ∀ p ∈ sortedPoints last c, p.time.isLeap = false) :
    middle? last c ≠ none := by
  rw [ne_eq, middle?_eq_none_iff]
  rintro ⟨first, rest, hsorted, hfirst, -, -, hbeyond⟩
  have hlatest := hleap (rest.getLastD first) (hsorted ▸ List.getLastD_mem_cons)
  rw [Instant.isLeap_eq_false_iff] at hfirst hlatest
  omega

theorem ofComponent?_eq_some_iff :
    ofComponent? last c = some candle ↔ candle = ofComponent last c ∧ middle? last c ≠ none := by
  unfold ofComponent?
  cases hmiddle : middle? last c with
  | none => simp
  | some x =>
    have hsame : { ofComponent last c with x } = ofComponent last c := by
      rw [← x_eq_of_middle? hmiddle]
    rw [Option.map_some, hsame, Option.some.injEq]
    exact ⟨fun h => ⟨h.symm, Option.some_ne_none x⟩, fun h => h.1.symm⟩

/-- **Candles in range**: there are candles of components exactly if the middle of each is in range,
and then they are those of `ofComponents`. -/
theorem ofComponents?_eq_some_iff {points : List Point} {components : List Component}
    {candles : List Candle} :
    ofComponents? points components = some candles ↔
      candles = ofComponents points components ∧
        ∀ c ∈ components, middle? (lastPoints points) c ≠ none := by
  unfold ofComponents? ofComponents
  dsimp only
  induction components generalizing candles with
  | nil => simp [eq_comm]
  | cons c components ih =>
    rw [List.mapM_cons, List.forall_mem_cons, List.map_cons]
    simp only [Option.bind_eq_bind, Option.bind_eq_some_iff, ofComponent?_eq_some_iff, ih,
      Option.pure_def, Option.some.injEq]
    constructor
    · rintro ⟨_, ⟨rfl, hc⟩, _, ⟨rfl, hcomponents⟩, rfl⟩
      exact ⟨rfl, hc, hcomponents⟩
    · rintro ⟨rfl, hc, hcomponents⟩
      exact ⟨_, ⟨rfl, hc⟩, _, ⟨rfl, hcomponents⟩, rfl⟩

/-- Outside leap seconds all components have candles. -/
theorem ofComponents?_eq_some {points : List Point}
    (hleap : ∀ point ∈ points, point.time.isLeap = false) (components : List Component) :
    ofComponents? points components = some (ofComponents points components) := by
  refine ofComponents?_eq_some_iff.mpr ⟨rfl, fun c _ => middle?_ne_none fun p hp => ?_⟩
  obtain ⟨rev, -, hrev⟩ := mem_sortedPoints.mp hp
  exact hleap p (of_getElem?_lastPoints hrev).1

end Range

end Candle

namespace Partition

variable {size : BucketSize} {points : List Point} {edges : List MinimalEdge}

theorem exists_lastPoint_of_mem {c : Component} {rev : String}
    (hc : c ∈ (ofPoints size points edges).components.toList) (hrev : rev ∈ c.members) :
    ∃ point, (lastPoints points)[rev]? = some point ∧ size.key point.time = c.bucket := by
  have hbucket := bucketOf?_of_mem hc hrev
  rw [bucketOf?_eq_map_lastPoints] at hbucket
  exact Option.map_eq_some_iff.mp hbucket

/-- Every component has points. -/
theorem sortedPoints_ne_nil {c : Component}
    (hc : c ∈ (ofPoints size points edges).components.toList) :
    Candle.sortedPoints (lastPoints points) c ≠ [] := by
  obtain ⟨rev, hrev⟩ := exists_mem_members hc
  obtain ⟨point, hpoint, -⟩ := exists_lastPoint_of_mem hc hrev
  exact List.ne_nil_of_mem (Candle.mem_sortedPoints.mpr ⟨rev, hrev, hpoint⟩)

/-- The middle of a candle lies in the bucket of its component. -/
theorem key_x_ofComponent {c : Component}
    (hc : c ∈ (ofPoints size points edges).components.toList)
    (hleap : ∀ point ∈ points, point.time.isLeap = false) :
    size.key (Candle.ofComponent (lastPoints points) c).x = c.bucket := by
  have hsorted : ∀ point ∈ Candle.sortedPoints (lastPoints points) c,
      size.key point.time = c.bucket ∧ point.time.isLeap = false := by
    intro point hpoint
    obtain ⟨r, hr, hlast⟩ := Candle.mem_sortedPoints.mp hpoint
    obtain ⟨p, hp, hkey⟩ := exists_lastPoint_of_mem hc hr
    obtain rfl : p = point := Option.some.inj (hp.symm.trans hlast)
    exact ⟨hkey, hleap p (of_getElem?_lastPoints hlast).1⟩
  obtain ⟨first, hfirst, latest, hlatest, hafter, hbefore⟩ :=
    Candle.x_between (sortedPoints_ne_nil hc) fun point hpoint => (hsorted point hpoint).2
  have hfirstKey := (hsorted first hfirst).1
  have hlatestKey := (hsorted latest hlatest).1
  rw [size.key_eq_of_between hafter hbefore (hfirstKey.trans hlatestKey.symm), hfirstKey]

/-- **Candles of components**: without leap seconds, there is one candle for each component, in
order, with the bucket and the id of the component.  Every member of the component has a point, so
that the candle begins and ends with points, and its middle lies in its bucket. -/
theorem candles_spec (size : BucketSize) (points : List Point) (edges : List MinimalEdge)
    (hleap : ∀ point ∈ points, point.time.isLeap = false) :
    let last := lastPoints points
    let components := (ofPoints size points edges).components.toList
    let candles := Candle.ofComponents points components
    candles.length = components.length ∧
    List.Forall₂ (fun c candle =>
        candle.bucket = c.bucket ∧ candle.componentId = c.id ∧
        c.members ≠ [] ∧ (∀ rev ∈ c.members, ∃ point, last[rev]? = some point) ∧
        Candle.sortedPoints last c ≠ [] ∧
        (∃ first ∈ Candle.sortedPoints last c, ∃ latest ∈ Candle.sortedPoints last c,
          candle.x = first.time.midpoint latest.time ∧
          candle.opening = first.value ∧ candle.closing = latest.value) ∧
        size.key candle.x = candle.bucket)
      components candles := by
  intro last components candles
  have hmap : candles = components.map (Candle.ofComponent last) := rfl
  refine ⟨List.length_map _, ?_⟩
  rw [hmap, List.forall₂_map_right_iff, List.forall₂_same]
  intro c hc
  obtain ⟨rev, hrev⟩ := exists_mem_members hc
  have hpoints : ∀ rev ∈ c.members, ∃ point, last[rev]? = some point := by
    intro rev hrev
    obtain ⟨point, hpoint, -⟩ := exists_lastPoint_of_mem hc hrev
    exact ⟨point, hpoint⟩
  have hne := sortedPoints_ne_nil hc
  obtain ⟨first, hfirst, latest, hlatest, -, hends⟩ := Candle.exists_ends hne
  refine ⟨Candle.bucket_ofComponent last c, Candle.componentId_ofComponent last c,
    List.ne_nil_of_mem hrev, hpoints, hne, ⟨first, hfirst, latest, hlatest, hends⟩, ?_⟩
  rw [Candle.bucket_ofComponent]
  exact key_x_ofComponent hc hleap

theorem length_components_chain :
    (ofPoints .day Fixture.chain.history.points [⟨"A", "B"⟩]).components.toList.length = 2 := by
  decide +kernel

/-- The two candles of one day, when only two of three revisions are joined. -/
theorem candles_spec_chain :
    let points := Fixture.chain.history.points
    let components := (ofPoints .day points [⟨"A", "B"⟩]).components.toList
    let candles := Candle.ofComponents points components
    (∀ point ∈ points, point.time.isLeap = false) ∧ candles.length = 2 ∧
      ∀ candle ∈ candles, ∃ c ∈ components, candle.componentId = c.id ∧
        Candle.sortedPoints (lastPoints points) c ≠ [] ∧
        BucketSize.day.key candle.x = candle.bucket := by
  intro points components candles
  have hleap : ∀ point ∈ points, point.time.isLeap = false := by decide
  obtain ⟨hlength, hcandles⟩ := candles_spec .day points [⟨"A", "B"⟩] hleap
  refine ⟨hleap, hlength.trans length_components_chain, ?_⟩
  intro candle hcandle
  obtain ⟨i, hi, rfl⟩ := List.mem_iff_getElem.mp hcandle
  have hic : i < components.length := hlength ▸ hi
  obtain ⟨-, hid, -, -, hne, -, hkey⟩ := hcandles.get hic hi
  exact ⟨components[i], List.getElem_mem hic, hid, hne, hkey⟩

end Partition

end MetricHistory
