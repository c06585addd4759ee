import MetricHistory.Calendar.Span

/-!
## Instants

A point in universal time: whole seconds since 1970-01-01T00:00:00Z and the nanoseconds after them.
A leap second has no number of its own: it is the second before it with 10⁹ nanoseconds and more,
so it comes after that second and before the next.  Any second may have one, although clocks only
have them after the last second of a minute.

* `Instant.le_iff`, `Instant.lt_iff`: the order in time, which is total.
* `Instant.since`: the span from one instant to another.
* `Instant.plus?`: the instant that a span leads to, unless it lies out of range.
* `Instant.midpoint?`, `Instant.midpoint`: the instant half way between two.
-/

namespace MetricHistory

/-- The seconds of a day. -/
def secondsPerDay : Int := 86400

/-- The first second an instant can have, that of -262143-01-01T00:00:00Z. -/
def firstSecond : Int := -8334601228800

/-- The last second an instant can have, that of +262142-12-31T23:59:59Z. -/
def lastSecond : Int := 8210266876799

/-- A point in universal time. -/
structure Instant where
  second : Int
  nano : Nat
  firstSecond_le : firstSecond ≤ second
  le_lastSecond : second ≤ lastSecond
  nano_lt : nano < 2 * nanosPerSecond
deriving DecidableEq

namespace Instant

/-- The instant with the given second and nanoseconds, when there is one. -/
def ofParts? (second : Int) (nano : Nat) : Option Instant :=
  if h : (firstSecond ≤ second ∧ second ≤ lastSecond) ∧ nano < 2 * nanosPerSecond then
    some ⟨second, nano, h.1.1, h.1.2, h.2⟩
  else
    none

/-- The instant so many nanoseconds after 1970-01-01T00:00:00Z, not in a leap second. -/
def ofNanos? (nanos : Int) : Option Instant :=
  ofParts? (nanos / (nanosPerSecond : Nat)) (nanos % (nanosPerSecond : Nat)).toNat

/-- 1970-01-01T00:00:00Z. -/
def epoch : Instant :=
  ⟨0, 0, by decide, by decide, by decide⟩

instance : Inhabited Instant := ⟨epoch⟩

/-- The day that an instant falls on. -/
def day (t : Instant) : Int :=
  t.second / secondsPerDay

/-- Whether the instant lies within a leap second. -/
def isLeap (t : Instant) : Bool :=
  nanosPerSecond ≤ t.nano

/-- Whether `a` is not after `b`. -/
def le (a b : Instant) : Bool :=
  a.second < b.second || (a.second == b.second && a.nano ≤ b.nano)

instance : LE Instant := ⟨fun a b => a.le b⟩

instance : LT Instant := ⟨fun a b => ¬ b ≤ a⟩

instance (a b : Instant) : Decidable (a ≤ b) := inferInstanceAs (Decidable (a.le b = true))

instance (a b : Instant) : Decidable (a < b) := inferInstanceAs (Decidable (¬ b ≤ a))

/-- Seconds come first, nanoseconds second. -/
theorem le_iff {a b : Instant} :
    a ≤ b ↔ a.second < b.second ∨ a.second = b.second ∧ a.nano ≤ b.nano := by
  show a.le b = true ↔ _
  simp [le]

theorem le_refl (a : Instant) : a ≤ a := by
  rw [le_iff]; omega

theorem le_trans {a b c : Instant} (hab : a ≤ b) (hbc : b ≤ c) : a ≤ c := by
  rw [le_iff] at *; omega

theorem le_total (a b : Instant) : a ≤ b ∨ b ≤ a := by
  rw [le_iff, le_iff]; omega

theorem le_antisymm {a b : Instant} (hab : a ≤ b) (hba : b ≤ a) : a = b := by
  rw [le_iff] at *
  have hs : a.second = b.second := by omega
  have hn : a.nano = b.nano := by omega
  obtain ⟨_, _, _, _, _⟩ := a
  obtain ⟨_, _, _, _, _⟩ := b
  simp_all

/-- An instant is before another exactly when the other is not before or at it. -/
theorem lt_iff {a b : Instant} :
    a < b ↔ a.second < b.second ∨ a.second = b.second ∧ a.nano < b.nano := by
  show ¬ b ≤ a ↔ _
  rw [le_iff]; omega

/-! ### Time that passes -/

/-- The nanoseconds since 1970-01-01T00:00:00Z, a leap second being counted with the next. -/
def nanos (t : Instant) : Int :=
  t.second * (nanosPerSecond : Nat) + (t.nano : Nat)

/-- The second of the day that the instant falls on. -/
def clock (t : Instant) : Nat :=
  (t.second % secondsPerDay).toNat

/-- The leap seconds between two times of day: one within `b` has passed by a later time of day, and
one within `a` lies ahead of an earlier one. -/
def leapsSince (a b : Instant) : Int :=
  if b.clock < a.clock ∧ b.isLeap then 1
  else if a.clock < b.clock ∧ a.isLeap then -1
  else 0

theorem leapsSince_bounds (a b : Instant) : -1 ≤ a.leapsSince b ∧ a.leapsSince b ≤ 1 := by
  unfold leapsSince
  split
  · decide
  · split <;> decide

/-- The nanoseconds that lead from `b` to `a`, leap seconds between their times of day included. -/
def nanosSince (a b : Instant) : Int :=
  a.nanos - b.nanos + a.leapsSince b * (nanosPerSecond : Nat)

/-- No two instants are farther apart than a span can be long. -/
theorem nanosSince_le (a b : Instant) : a.nanosSince b ≤ longestSpan := by
  have hleaps := (leapsSince_bounds a b).2
  have ha := a.le_lastSecond
  have hb := b.firstSecond_le
  have hnano := a.nano_lt
  unfold nanosSince nanos longestSpan nanosPerSecond firstSecond lastSecond at *
  omega

theorem neg_le_nanosSince (a b : Instant) : -longestSpan ≤ a.nanosSince b := by
  have hleaps := (leapsSince_bounds a b).1
  have ha := a.firstSecond_le
  have hb := b.le_lastSecond
  have hnano := b.nano_lt
  unfold nanosSince nanos longestSpan nanosPerSecond firstSecond lastSecond at *
  omega

/-- The span that leads from `b` to `a`. -/
def since (a b : Instant) : Span :=
  ⟨a.nanosSince b, neg_le_nanosSince a b, nanosSince_le a b⟩

/-- The instant that a span leads to.  Out of a leap second it leads to an instant that is in none,
and the leap second is counted when it leads back. -/
def plus? (t : Instant) (d : Span) : Option Instant :=
  if t.isLeap then
    if 0 < d.seconds ∨ 0 < d.fraction ∧ 2 * (nanosPerSecond : Nat) ≤ t.nano + d.fraction then
      ofNanos? (t.nanos - (nanosPerSecond : Nat) + d.nanos)
    else if d.seconds < 0 then ofNanos? (t.nanos + d.nanos)
    -- less than a second leads no farther than to the second before the leap second
    else ofParts? t.second (t.nano + d.fraction).toNat
  else ofNanos? (t.nanos + d.nanos)

/-- The instant half way from `a` to `b`, in whole nanoseconds, unless it lies out of range. -/
def midpoint? (a b : Instant) : Option Instant :=
  a.plus? (b.since a).half

/-- The instant half way from `a` to `b`, and `b` where that lies out of range. -/
def midpoint (a b : Instant) : Instant :=
  (a.midpoint? b).getD b

end Instant

end MetricHistory
