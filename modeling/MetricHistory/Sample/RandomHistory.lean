import MetricHistory.History
import MetricHistory.Sample.ChaCha
import MetricHistory.Sample.Draw

/-!
## Random histories

Histories of any length that are drawn from a stream of words.  Each revision has a parent among the
three before it, may have a second parent further back, comes some seconds after the revision before
it, and may be measured.  The measured value drifts between 0 and 1000.

* `RandomShape`: how long and how dense a random history is.
* `Growth.grow`: adds one revision.
* `History.random`: the history that a seed gives.
-/

namespace MetricHistory

/-- How long and how dense a random history is. -/
structure RandomShape where
  revisions : Nat
  /-- How often a revision is measured. -/
  measuredRatio : Float
  /-- How often a revision has a second parent. -/
  mergeRatio : Float
  /-- When the first revision was made. -/
  start : Instant
  /-- The longest time between two revisions. -/
  maxGap : Span

/-- Why a random history cannot be drawn. -/
inductive GrowthFault where
  /-- A ratio that is needed is not a number. -/
  | ratioNotANumber
  /-- A number would be drawn from a range that holds none. -/
  | emptyRange
  /-- A parent would have a number below zero. -/
  | parentOutOfRange
  /-- A gap would be longer than any span. -/
  | gapOutOfRange
  /-- A revision would come after the last instant. -/
  | timeOutOfRange
deriving DecidableEq, Repr

namespace RandomShape

/-- Two hundred revisions from 2024 on, at most twelve hours apart. -/
def standard : RandomShape :=
  { revisions := 200
    measuredRatio := 0.5
    mergeRatio := 0.1
    start :=
      { Instant.epoch with
        second := 1704067200
        firstSecond_le := by decide
        le_lastSecond := by decide }
    maxGap := ⟨43200000000000, by decide, by decide⟩ }

/-- The longest time between two revisions in whole seconds, and at least one. -/
def maxGapSeconds (shape : RandomShape) : Nat :=
  (max 1 shape.maxGap.seconds).toNat

end RandomShape

/-- A float kept within bounds.  What is not a number stays so. -/
def clampFloat (low high x : Float) : Float :=
  if x < low then low else if high < x then high else x

/-- A random history under way: where the stream of words stands, when the last revision was made
and what its value would be, and what was recorded. -/
structure Growth (σ : Type) where
  source : σ
  time : Instant
  value : Float
  points : Array Point
  parents : Array ParentEdge

namespace Growth

variable {σ : Type} [WordSource σ]

/-- The name of the `i`-th revision. -/
def revName (i : Nat) : String :=
  "rev-" ++ toString i

/-- A result that cannot be done without. -/
def require {α : Type} (fault : GrowthFault) : Option α → Except GrowthFault α
  | some a => .ok a
  | none => .error fault

/-- A toss of a coin that has to be a probability. -/
def toss (ratio : Float) (source : σ) : Except GrowthFault (Bool × σ) :=
  require .ratioNotANumber (Draw.coin? (clampFloat 0.0 1.0 ratio) source)

/-- The first parent of the `i`-th revision, one of the three before it. -/
def firstParent (i : Nat) (source : σ) : Except GrowthFault (ParentEdge × σ) := do
  let (k, source) ← require .emptyRange (Draw.index? (min i 3) source)
  if k + 1 ≤ i then
    return ({ child := revName i, parent := revName (i - (k + 1)) }, source)
  else
    throw .parentOutOfRange

/-- The second parent of the `i`-th revision, if it has one: any but the revision just before. -/
def secondParent (shape : RandomShape) (i : Nat) (source : σ) :
    Except GrowthFault (Option ParentEdge × σ) :=
  if 1 < i then do
    let (merged, source) ← toss shape.mergeRatio source
    if merged then
      let (k, source) ← require .emptyRange (Draw.index? (i - 1) source)
      return (some { child := revName i, parent := revName k }, source)
    else
      return (none, source)
  else
    return (none, source)

/-- The time of the next revision. -/
def nextTime (shape : RandomShape) (time : Instant) (source : σ) :
    Except GrowthFault (Instant × σ) := do
  let (seconds, source) ← require .emptyRange (Draw.gap? shape.maxGapSeconds source)
  let gap ← require .gapOutOfRange (Span.ofSeconds? seconds)
  let time ← require .timeOutOfRange (time.plus? gap)
  return (time, source)

/-- Links the `i`-th revision to those before it.  The first revision has none before it. -/
def link (shape : RandomShape) (i : Nat) (g : Growth σ) : Except GrowthFault (Growth σ) :=
  match g with
  | ⟨source, time, value, points, parents⟩ =>
    if i = 0 then .ok ⟨source, time, value, points, parents⟩
    else do
      let (first, source) ← firstParent i source
      let (second, source) ← secondParent shape i source
      let (time, source) ← nextTime shape time source
      return ⟨source, time, value, points, (parents.push first) ++ second.toList⟩

/-- Measures the `i`-th revision, if the coin says so. -/
def measure (shape : RandomShape) (i : Nat) (g : Growth σ) : Except GrowthFault (Growth σ) :=
  match g with
  | ⟨source, time, value, points, parents⟩ => do
    let (change, source) := Draw.deviation source
    let value := clampFloat 0.0 1000.0 (value + change)
    let (measured, source) ← toss shape.measuredRatio source
    if measured then
      let point : Point := { repoId := "random", revId := revName i, time, value }
      return ⟨source, time, value, points.push point, parents⟩
    else
      return ⟨source, time, value, points, parents⟩

/-- Adds the `i`-th revision. -/
def grow (shape : RandomShape) (g : Growth σ) (i : Nat) : Except GrowthFault (Growth σ) := do
  measure shape i (← link shape i g)

/-- A history before its first revision. -/
def seedling (shape : RandomShape) (source : σ) : Growth σ :=
  { source, time := shape.start, value := 100.0, points := #[], parents := #[] }

/-- What was recorded. -/
def history (g : Growth σ) : History :=
  { points := g.points.toList, parents := g.parents.toList }

end Growth

namespace History

/-- The history of the given shape that a stream of words gives. -/
def drawn {σ : Type} [WordSource σ] (shape : RandomShape) (source : σ) :
    Except GrowthFault History :=
  ((List.range shape.revisions).foldlM (Growth.grow shape) (Growth.seedling shape source)).map
    Growth.history

/-- The history of the given shape that a seed gives. -/
def random (seed : UInt64) (shape : RandomShape) : Except GrowthFault History :=
  drawn shape (ChaCha.ofSeed seed)

end History

end MetricHistory
