/-!
## Gates

A view can be asked for again before the last one is finished.  Each request takes a ticket with a
generation of its own, and a finished view is shown only if no request came after it.

* `Counter`: a counter whose generations number the requests.
* `Gate.enter`: a new request; `Gate.pass?`: a result, if it is still wanted.
* `CyclicCounter`: a counter that goes round.
-/

namespace MetricHistory

/-- A counter that can be moved on and read. -/
class Counter (C : Type) where
  /-- Moves the counter on.  The result is the new generation. -/
  advance : C → UInt64 × C
  /-- The latest generation. -/
  latest : C → UInt64

/-- A counter whose new generation is the one that is read afterwards. -/
class LawfulCounter (C : Type) [Counter C] : Prop where
  latest_advance : ∀ c : C, Counter.latest (Counter.advance c).2 = (Counter.advance c).1

/-- A number counts by one. -/
instance : Counter UInt64 where
  advance n := (n + 1, n + 1)
  latest n := n

instance : LawfulCounter UInt64 where
  latest_advance _ := rfl

/-- A counter that adds `step` and starts again at `modulus`. -/
structure CyclicCounter where
  value : UInt64
  step : UInt64
  modulus : UInt64
deriving DecidableEq, Repr, Inhabited

/-- The counter after one step.  The sum is taken in full before it is reduced. -/
def CyclicCounter.next (c : CyclicCounter) : CyclicCounter :=
  { c with value := UInt64.ofNat ((c.value.toNat + c.step.toNat) % c.modulus.toNat) }

instance : Counter CyclicCounter where
  advance c := (c.next.value, c.next)
  latest c := c.value

instance : LawfulCounter CyclicCounter where
  latest_advance _ := rfl

/-- The generation that a request was started under. -/
structure Ticket where
  generation : UInt64
deriving DecidableEq, Repr, Inhabited

/-- Tickets are ordered by generation. -/
instance : Ord Ticket := ⟨fun a b => compare a.generation b.generation⟩

/-- A gate that lets only the latest request pass. -/
structure Gate (C : Type) where
  counter : C
deriving Inhabited

namespace Gate

/-- A gate that counts by one from `n`. -/
def startingAt (n : UInt64) : Gate UInt64 :=
  { counter := n }

variable {C : Type} [Counter C]

/-- Starts a request, which supersedes all before it. -/
def enter (gate : Gate C) : Ticket × Gate C :=
  let (generation, counter) := Counter.advance gate.counter
  ({ generation }, { counter })

/-- The generation of the latest request. -/
def latest (gate : Gate C) : UInt64 :=
  Counter.latest gate.counter

/-- Whether the ticket carries the latest generation, so that no request came after it. -/
def accepts (gate : Gate C) (ticket : Ticket) : Bool :=
  gate.latest == ticket.generation

/-- The result of a request, if its ticket is accepted. -/
def pass? {α : Type} (gate : Gate C) (ticket : Ticket) (result : α) : Option α :=
  if gate.accepts ticket then some result else none

/-- The ticket of a new request is accepted until another one comes. -/
theorem accepts_enter [LawfulCounter C] (gate : Gate C) :
    gate.enter.2.accepts gate.enter.1 = true := by
  simp [accepts, latest, enter, LawfulCounter.latest_advance]

end Gate

end MetricHistory
