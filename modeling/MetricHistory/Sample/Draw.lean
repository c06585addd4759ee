/-!
## Drawing numbers

Numbers drawn from a stream of random 32-bit words.

* `WordSource`: a state that gives words.
* `Draw.below?`: a number below a bound, if there is one; `Draw.gap?`: a number up to one.
* `Draw.coin?`: true with a given probability.
* `Draw.deviation`: a float from -5 to 5.
-/

namespace MetricHistory

/-- A state that gives one word after another. -/
class WordSource (σ : Type) where
  next : σ → UInt32 × σ

namespace Draw

variable {σ : Type} [WordSource σ]

/-- A word of 32 bits, as a number. -/
def word (s : σ) : Nat × σ :=
  let (w, s) := WordSource.next s
  (w.toNat, s)

/-- A word of 64 bits, as a number.  The low half comes first. -/
def wideWord (s : σ) : Nat × σ :=
  let (low, s) := word s
  let (high, s) := word s
  (low + Nat.pow 2 32 * high, s)

/-- A number below `n`, from words of `bits` bits: the part of `word * n` above those bits.  When
the part within them is so large that the words of a longer number could carry into the result, a
second word decides whether they do.  No number is below zero. -/
def below? (bits : Nat) (draw : σ → Nat × σ) (n : Nat) (s : σ) : Option (Nat × σ) :=
  if n = 0 then none
  else
    let (w, s) := draw s
    let high := w * n / Nat.pow 2 bits
    let low := w * n % Nat.pow 2 bits
    if Nat.pow 2 bits - n < low then
      -- only here can the next word carry
      let (w, s) := draw s
      some (if Nat.pow 2 bits ≤ low + w * n / Nat.pow 2 bits then high + 1 else high, s)
    else some (high, s)

/-- A number below `n`, from words of 32 bits, or of 64 bits where `n` does not fit into 32. -/
def index? (n : Nat) (s : σ) : Option (Nat × σ) :=
  if n < Nat.pow 2 32 then below? 32 word n s else below? 64 wideWord n s

/-- A number from 1 to `n`, from words of 64 bits. -/
def gap? (n : Nat) (s : σ) : Option (Nat × σ) :=
  (below? 64 wideWord n s).map fun (k, s) => (k + 1, s)

/-- The whole part of `p * 2 ^ 64`, for a float `p` from 0 to 1.  A float is a significand of at
most 53 bits times a power of two, both of which are read off its bits. -/
def threshold (p : Float) : Nat :=
  let bits := p.toBits.toNat
  let exponent := bits / Nat.pow 2 52 % Nat.pow 2 11
  let fraction := bits % Nat.pow 2 52
  -- a biased exponent of 1075 is a power of one, and 1075 - 64 = 1011
  if exponent = 0 then 2 * fraction / Nat.pow 2 1011
  else (Nat.pow 2 52 + fraction) * Nat.pow 2 exponent / Nat.pow 2 1011

/-- True with probability `p`, and nothing if that is no probability.  Certainty takes no word. -/
def coin? (p : Float) (s : σ) : Option (Bool × σ) :=
  if p == 1.0 then some (true, s)
  else if 0.0 ≤ p && p < 1.0 then
    let (w, s) := wideWord s
    some (decide (w < threshold p), s)
  else none

/-- A float from -5 to 5: the high bits of a word make one from 1 to 2, which is stretched. -/
def deviation (s : σ) : Float × σ :=
  let (w, s) := wideWord s
  let unit := Float.ofBits (UInt64.ofNat (w / Nat.pow 2 12) ||| 0x3ff0000000000000)
  ((unit - 1.0) * 10.0 + (-5.0), s)

end Draw

end MetricHistory
