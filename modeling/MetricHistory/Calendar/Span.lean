/-!
## Spans of time

A length of time in whole nanoseconds, forward or back, which cannot be longer than 2⁶³ - 1
milliseconds either way.

* `Span.ofNanos?`, `Span.ofMillis?`, `Span.ofSeconds?`: the span of that length, if there is one.
* `Span.seconds`, `Span.fraction`: whole seconds, and the nanoseconds beyond them.
* `Span.half`: half a span, rounded down to a nanosecond.
-/

namespace MetricHistory

/-- The nanoseconds of a second. -/
def nanosPerSecond : Nat := 1000000000

/-- The longest span in nanoseconds, which is 2⁶³ - 1 milliseconds. -/
def longestSpan : Int := 9223372036854775807000000

/-- A length of time, negative if it leads back. -/
structure Span where
  nanos : Int
  neg_le : -longestSpan ≤ nanos
  le_longest : nanos ≤ longestSpan
deriving DecidableEq

namespace Span

/-- The span of so many nanoseconds. -/
def ofNanos? (nanos : Int) : Option Span :=
  if h : -longestSpan ≤ nanos ∧ nanos ≤ longestSpan then some ⟨nanos, h.1, h.2⟩ else none

/-- The span of so many milliseconds. -/
def ofMillis? (millis : Int) : Option Span :=
  ofNanos? (millis * 1000000)

/-- The span of so many seconds. -/
def ofSeconds? (seconds : Int) : Option Span :=
  ofNanos? (seconds * (nanosPerSecond : Nat))

/-- The whole seconds of a span, rounded toward zero. -/
def seconds (d : Span) : Int :=
  d.nanos.tdiv (nanosPerSecond : Nat)

/-- The nanoseconds of a span beyond its whole seconds, negative if it leads back. -/
def fraction (d : Span) : Int :=
  d.nanos.tmod (nanosPerSecond : Nat)

/-- Half a span, rounded down. -/
def half (d : Span) : Span :=
  { nanos := d.nanos / 2
    neg_le := by have := d.neg_le; unfold longestSpan at *; omega
    le_longest := by have := d.le_longest; unfold longestSpan at *; omega }

/-- The span of a number of nanoseconds has that many. -/
theorem ofNanos?_eq_some_iff {nanos : Int} {d : Span} :
    ofNanos? nanos = some d ↔ d.nanos = nanos := by
  unfold ofNanos?
  split
  · obtain ⟨_, _, _⟩ := d
    simp only [Option.some.injEq, Span.mk.injEq]
    exact eq_comm
  · next h =>
    constructor
    · intro hnone
      cases hnone
    · rintro rfl
      exact absurd ⟨d.neg_le, d.le_longest⟩ h

theorem seconds_mul_add_fraction (d : Span) :
    d.seconds * (nanosPerSecond : Nat) + d.fraction = d.nanos := by
  rw [Int.mul_comm]
  exact Int.mul_tdiv_add_tmod d.nanos _

theorem natAbs_fraction_lt (d : Span) : d.fraction.natAbs < nanosPerSecond := by
  unfold fraction
  rw [Int.natAbs_tmod]
  exact Nat.mod_lt _ (by decide)

/-- Less than a second back is no second. -/
theorem seconds_nonneg {d : Span} (h : -(nanosPerSecond : Nat) < d.nanos) : 0 ≤ d.seconds := by
  unfold Span.seconds
  rcases Int.le_total 0 d.nanos with hpos | hneg
  · exact Int.tdiv_nonneg hpos (by decide)
  · rw [← Int.neg_neg d.nanos, Int.neg_tdiv, Int.tdiv_eq_zero_of_lt (by omega) (by omega)]
    decide

/-- A span has as many seconds as some span can be long. -/
theorem seconds_le (d : Span) : d.seconds * (nanosPerSecond : Nat) ≤ longestSpan := by
  have hle : d.seconds ≤ longestSpan.tdiv (nanosPerSecond : Nat) :=
    Int.tdiv_le_tdiv (by decide) d.le_longest
  have hlongest : longestSpan.tdiv (nanosPerSecond : Nat) = 9223372036854775 := by decide
  unfold longestSpan nanosPerSecond at *
  omega

/-- A span of so many seconds is as long as they are. -/
theorem seconds_of_nanos_eq {d : Span} {seconds : Int}
    (h : d.nanos = seconds * (nanosPerSecond : Nat)) : d.seconds = seconds ∧ d.fraction = 0 := by
  unfold Span.seconds fraction
  rw [h]
  exact ⟨Int.mul_tdiv_cancel _ (by decide), Int.mul_tmod_left _ _⟩

end Span

end MetricHistory
