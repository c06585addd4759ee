import MetricHistory.Calendar.Instant
import Mathlib.Data.Int.Order.Basic

/-!
# Instants and nanoseconds

Outside leap seconds the order of instants is that of their nanoseconds, a span leads as many
nanoseconds on as it is long, and the midpoint of two instants lies between them.  A leap second
shares its nanoseconds with the second after it, so that all this fails there.

* `Instant.le_iff_nanos_le`: the order.
* `Instant.ofNanos?_eq_some_iff`, `Instant.ofNanos?_eq_none_iff`: the instant of some nanoseconds.
* `Instant.exists_midpoint?`: the midpoint outside leap seconds; `Instant.midpoint_between`.
* `Instant.midpoint?_eq_none_iff`: the midpoint is out of range only at the end of the last second.
* `Instant.after?`: some seconds later; `Instant.plus?_eq_after?`, `Instant.after?_eq_none_iff`.
-/

namespace MetricHistory.Instant

variable {t a b m : Instant} {nanos : Int}

theorem lt_trans {a b c : Instant} (hab : a < b) (hbc : b < c) : a < c := by
  rw [lt_iff] at *
  omega

theorem lt_irrefl (a : Instant) : ¬ a < a := by
  rw [lt_iff]
  omega

theorem isLeap_iff : t.isLeap = true ↔ nanosPerSecond ≤ t.nano :=
  decide_eq_true_iff

theorem isLeap_eq_false_iff : t.isLeap = false ↔ t.nano < nanosPerSecond := by
  rw [isLeap, decide_eq_false_iff_not, Nat.not_le]

/-- Outside leap seconds instants are ordered by their nanoseconds. -/
theorem le_iff_nanos_le (ha : a.isLeap = false) (hb : b.isLeap = false) :
    a ≤ b ↔ a.nanos ≤ b.nanos := by
  rw [isLeap_eq_false_iff] at ha hb
  rw [le_iff]
  unfold nanos nanosPerSecond at *
  omega

/-! ### Nanoseconds -/

theorem ofParts?_eq_some_iff {second : Int} {nano : ℕ} :
    ofParts? second nano = some t ↔ t.second = second ∧ t.nano = nano := by
  unfold ofParts?
  split_ifs with h
  · obtain ⟨_, _, _, _, _⟩ := t
    simp only [Option.some.injEq, Instant.mk.injEq]
    exact and_congr eq_comm eq_comm
  · refine iff_of_false not_false ?_
    rintro ⟨rfl, rfl⟩
    exact h ⟨⟨t.firstSecond_le, t.le_lastSecond⟩, t.nano_lt⟩

theorem ofParts?_eq_none_iff {second : Int} {nano : ℕ} (hnano : nano < 2 * nanosPerSecond) :
    ofParts? second nano = none ↔ second < firstSecond ∨ lastSecond < second := by
  unfold ofParts?
  split_ifs with h
  · exact iff_of_false not_false (by omega)
  · exact iff_of_true rfl (by omega)

/-- The instant of some nanoseconds is in no leap second. -/
theorem ofNanos?_eq_some_iff : ofNanos? nanos = some t ↔ t.isLeap = false ∧ t.nanos = nanos := by
  rw [ofNanos?, ofParts?_eq_some_iff, isLeap_eq_false_iff]
  unfold Instant.nanos nanosPerSecond
  omega

theorem ofNanos?_eq_none_iff :
    ofNanos? nanos = none ↔ nanos < firstSecond * (nanosPerSecond : ℕ) ∨
      (lastSecond + 1) * (nanosPerSecond : ℕ) ≤ nanos := by
  rw [ofNanos?, ofParts?_eq_none_iff (by unfold nanosPerSecond; omega)]
  unfold nanosPerSecond
  omega

theorem ofNanos?_add {second : Int} {nano : ℕ} (hnano : nano < nanosPerSecond) :
    ofNanos? (second * (nanosPerSecond : ℕ) + (nano : ℕ)) = ofParts? second nano := by
  unfold ofNanos? nanosPerSecond at *
  congr 1 <;> omega

/-- From an instant in no leap second every span leads straight on. -/
theorem plus?_of_isLeap_eq_false (ht : t.isLeap = false) (d : Span) :
    t.plus? d = ofNanos? (t.nanos + d.nanos) := by
  rw [plus?, if_neg (by rw [ht]; exact Bool.false_ne_true)]

/-! ### The midpoint -/

/-- Within one second no leap second is counted. -/
theorem leapsSince_eq_zero (h : a.second = b.second) : a.leapsSince b = 0 := by
  unfold leapsSince clock
  rw [h, if_neg (by omega), if_neg (by omega)]

theorem leapsSince_nonpos (hb : b.isLeap = false) : a.leapsSince b ≤ 0 := by
  unfold leapsSince
  split_ifs with hpassed
  · rw [hb] at hpassed
    exact absurd hpassed.2 Bool.false_ne_true
  · decide
  · decide

theorem leapsSince_nonneg (ha : a.isLeap = false) : 0 ≤ a.leapsSince b := by
  unfold leapsSince
  split_ifs with hpassed hahead
  · decide
  · rw [ha] at hahead
    exact absurd hahead.2 Bool.false_ne_true
  · decide

/-- Between two instants in no leap second there are as many nanoseconds as their numbers say. -/
theorem nanosSince_of_isLeap_eq_false (ha : a.isLeap = false) (hb : b.isLeap = false) :
    a.nanosSince b = a.nanos - b.nanos := by
  have hleaps : a.leapsSince b = 0 := Int.le_antisymm (leapsSince_nonpos hb) (leapsSince_nonneg ha)
  rw [nanosSince, hleaps]
  omega

/-- Outside leap seconds there is a midpoint, half way in nanoseconds and in no leap second. -/
theorem exists_midpoint? (ha : a.isLeap = false) (hb : b.isLeap = false) :
    ∃ m, a.midpoint? b = some m ∧ m.isLeap = false ∧ m.nanos = (a.nanos + b.nanos) / 2 := by
  have hhalf : a.nanos + (b.since a).half.nanos = (a.nanos + b.nanos) / 2 := by
    show a.nanos + b.nanosSince a / 2 = _
    rw [nanosSince_of_isLeap_eq_false hb ha]
    omega
  have hsome : (ofNanos? ((a.nanos + b.nanos) / 2)).isSome = true := by
    rw [← Option.ne_none_iff_isSome, ne_eq, ofNanos?_eq_none_iff]
    have := a.firstSecond_le
    have := b.firstSecond_le
    have := a.le_lastSecond
    have := b.le_lastSecond
    rw [isLeap_eq_false_iff] at ha hb
    unfold nanos nanosPerSecond at *
    omega
  obtain ⟨m, hm⟩ := Option.isSome_iff_exists.mp hsome
  rw [midpoint?, plus?_of_isLeap_eq_false ha, hhalf]
  exact ⟨m, hm, ofNanos?_eq_some_iff.mp hm⟩

theorem midpoint_eq_of_midpoint? (h : a.midpoint? b = some m) : a.midpoint b = m := by
  rw [midpoint, h, Option.getD_some]

theorem isLeap_midpoint (ha : a.isLeap = false) (hb : b.isLeap = false) :
    (a.midpoint b).isLeap = false := by
  obtain ⟨m, hm, hleap, -⟩ := exists_midpoint? ha hb
  rwa [midpoint_eq_of_midpoint? hm]

theorem nanos_midpoint (ha : a.isLeap = false) (hb : b.isLeap = false) :
    (a.midpoint b).nanos = (a.nanos + b.nanos) / 2 := by
  obtain ⟨m, hm, -, hnanos⟩ := exists_midpoint? ha hb
  rwa [midpoint_eq_of_midpoint? hm]

/-- Outside leap seconds the midpoint lies between the two instants. -/
theorem midpoint_between (ha : a.isLeap = false) (hb : b.isLeap = false) (h : a ≤ b) :
    a ≤ a.midpoint b ∧ a.midpoint b ≤ b := by
  have hmid := isLeap_midpoint ha hb
  rw [le_iff_nanos_le ha hb] at h
  rw [le_iff_nanos_le ha hmid, le_iff_nanos_le hmid hb, nanos_midpoint ha hb]
  omega

/-- Back from a later instant there is no way of a second and more, even where a leap second lies
between them. -/
theorem neg_nanosPerSecond_lt_nanosSince (h : a ≤ b) : -(nanosPerSecond : ℕ) < b.nanosSince a := by
  have ha := a.nano_lt
  rw [le_iff] at h
  unfold nanosSince leapsSince
  simp only [isLeap_iff]
  unfold clock nanos nanosPerSecond secondsPerDay at *
  split_ifs <;> omega

/-- Where the first of two instants is in no leap second, there is no midpoint only if both lie in
the last second and half way is beyond it. -/
theorem midpoint?_eq_none_iff_of_isLeap_eq_false (h : a ≤ b) (hleap : a.isLeap = false) :
    a.midpoint? b = none ↔ a.second = lastSecond ∧ b.second = lastSecond ∧
      2 * nanosPerSecond ≤ a.nano + b.nano := by
  have hfirst := a.firstSecond_le
  have hlast := b.le_lastSecond
  have hnano := b.nano_lt
  have hback := neg_nanosPerSecond_lt_nanosSince h
  have hleaps := leapsSince_nonpos (a := b) hleap
  have hleaps' := leapsSince_nonneg (a := b) (b := a)
  have hbounds := (leapsSince_bounds b a).1
  have hhalf : (b.since a).half.nanos = b.nanosSince a / 2 := rfl
  rw [midpoint?, plus?_of_isLeap_eq_false hleap, ofNanos?_eq_none_iff, hhalf]
  rw [isLeap_eq_false_iff] at hleap hleaps'
  rcases le_iff.mp h with hlt | ⟨hsame, hle⟩
  · -- the first instant is in an earlier second, so that half way is before the end of the last
    unfold nanosSince nanos nanosPerSecond firstSecond lastSecond at *
    omega
  · have hdiff : b.nanos - a.nanos = b.nano - a.nano := by
      unfold nanos
      rw [hsame]
      omega
    rw [nanosSince, leapsSince_eq_zero hsame.symm, hdiff]
    unfold nanos nanosPerSecond firstSecond lastSecond at *
    omega

/-- From a leap second, half of the way to a later instant leads to an instant. -/
theorem midpoint?_ne_none_of_isLeap (h : a ≤ b) (hleap : a.isLeap = true) :
    a.midpoint? b ≠ none := by
  have hfirst := a.firstSecond_le
  have hlast := b.le_lastSecond
  have hnanoA := a.nano_lt
  have hnanoB := b.nano_lt
  have hback := neg_nanosPerSecond_lt_nanosSince h
  have hbounds := (leapsSince_bounds b a).2
  have hhalf : (b.since a).half.nanos = b.nanosSince a / 2 := rfl
  have hseconds := Span.seconds_nonneg (d := (b.since a).half)
    (by rw [hhalf]; unfold nanosPerSecond at *; omega)
  have hsum := (b.since a).half.seconds_mul_add_fraction
  have hfraction := (b.since a).half.natAbs_fraction_lt
  rw [midpoint?, plus?, if_pos hleap]
  rw [hhalf] at hsum
  rw [isLeap_iff] at hleap
  split_ifs with hforward hbackward
  · rw [ne_eq, ofNanos?_eq_none_iff, hhalf]
    rcases le_iff.mp h with hlt | ⟨hsame, hle⟩
    · unfold nanosSince nanos nanosPerSecond firstSecond lastSecond at *
      omega
    · rw [nanosSince, leapsSince_eq_zero hsame.symm] at *
      unfold nanos nanosPerSecond firstSecond lastSecond at *
      omega
  · omega
  · rw [ne_eq, ofParts?_eq_none_iff]
    · have := a.le_lastSecond
      omega
    · unfold nanosPerSecond at *
      omega

/-- Of two instants in order there is a midpoint unless both lie in the last second, the first in no
leap second, and half way is beyond that second. -/
theorem midpoint?_eq_none_iff (h : a ≤ b) :
    a.midpoint? b = none ↔ a.isLeap = false ∧ a.second = lastSecond ∧ b.second = lastSecond ∧
      2 * nanosPerSecond ≤ a.nano + b.nano := by
  cases hleap : a.isLeap with
  | false =>
    rw [midpoint?_eq_none_iff_of_isLeap_eq_false h hleap]
    exact (and_iff_right rfl).symm
  | true => exact iff_of_false (midpoint?_ne_none_of_isLeap h hleap) (by simp)

/-- From 0.9 seconds after the last second of a minute, half of the way to 0.9 seconds after the
beginning of its leap second leads to the next minute. -/
example :
    midpoint? ⟨59, 900000000, by decide, by decide, by decide⟩
        ⟨59, 1900000000, by decide, by decide, by decide⟩ =
      some ⟨60, 400000000, by decide, by decide, by decide⟩ := by
  decide

/-! ### Later instants -/

/-- The instant `seconds` later, unless it lies beyond the last one.  From a leap second the count
starts at the second before it. -/
def after? (t : Instant) (seconds : ℕ) : Option Instant :=
  if seconds = 0 then some t else ofParts? (t.second + seconds) (t.nano % nanosPerSecond)

/-- A span of whole seconds leads so many seconds on. -/
theorem plus?_eq_after? {d : Span} {seconds : ℕ} (hd : d.nanos = seconds * (nanosPerSecond : ℕ)) :
    t.plus? d = t.after? seconds := by
  obtain ⟨hseconds, hfraction⟩ := Span.seconds_of_nanos_eq hd
  unfold plus? after?
  rw [hd, hseconds, hfraction]
  cases hleap : t.isLeap with
  | false =>
    rw [if_neg Bool.false_ne_true]
    split_ifs with hzero
    · subst hzero
      rw [ofNanos?_eq_some_iff]
      exact ⟨hleap, by simp⟩
    · rw [Nat.mod_eq_of_lt (isLeap_eq_false_iff.mp hleap),
        ← ofNanos?_add (isLeap_eq_false_iff.mp hleap), Instant.nanos, Int.add_mul]
      congr 1
      omega
  | true =>
    have hnano := t.nano_lt
    rw [isLeap_iff] at hleap
    rw [if_pos rfl]
    rcases Nat.eq_zero_or_pos seconds with rfl | hpos
    · rw [if_neg (by omega), if_neg (by omega), if_pos rfl, ofParts?_eq_some_iff]
      omega
    · rw [if_pos (by omega), if_neg (by omega), ← ofNanos?_add (Nat.mod_lt _ (by decide))]
      unfold Instant.nanos nanosPerSecond at *
      congr 1
      omega

/-- As many seconds pass as are asked for. -/
theorem second_after? {later : Instant} {seconds : ℕ} (h : t.after? seconds = some later) :
    later.second = t.second + seconds := by
  unfold after? at h
  split_ifs at h with hzero
  · cases h
    omega
  · exact (ofParts?_eq_some_iff.mp h).1

/-- Only seconds that lead to one after the last second cannot pass. -/
theorem after?_eq_none_iff {seconds : ℕ} :
    t.after? seconds = none ↔ lastSecond < t.second + seconds := by
  have hfirst := t.firstSecond_le
  have hlast := t.le_lastSecond
  have hnano : t.nano % nanosPerSecond < nanosPerSecond := Nat.mod_lt _ (by decide)
  unfold after?
  split_ifs with hzero
  · exact iff_of_false not_false (by omega)
  · rw [ofParts?_eq_none_iff (by omega)]
    omega

/-- Outside leap seconds only whole seconds pass. -/
theorem nano_after? {later : Instant} {seconds : ℕ} (h : t.after? seconds = some later)
    (hleap : t.isLeap = false) : later.nano = t.nano := by
  unfold after? at h
  split_ifs at h with hzero
  · cases h
    rfl
  · rw [(ofParts?_eq_some_iff.mp h).2]
    exact Nat.mod_eq_of_lt (isLeap_eq_false_iff.mp hleap)

end MetricHistory.Instant
