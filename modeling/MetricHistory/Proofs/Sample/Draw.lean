import MetricHistory.Proofs.Value.Number
import MetricHistory.Sample.RandomHistory

/-!
# Drawn numbers and tossed coins

Whatever the words of a stream, a number can be drawn below any bound but zero, and stays below it:
where the high part of the product is the last number below the bound, the low part is too small for
a second word to carry.  A coin compares a word with the whole part of its probability times
`2 ^ 64`, so that of two coins that are tossed alike the likelier one always comes up when the other
does.

* `Draw.exists_below?`, `Draw.exists_index?`, `Draw.exists_gap?`: numbers stay in their range.
* `Draw.threshold_eq_floor`, `Draw.threshold_mono`: what a word is compared with.
* `Draw.coin?_of_lt_one`, `Draw.coin?_of_beq_one`: the two kinds of coins.
* `clampFloat_unit_cases`: a number that is kept between 0 and 1 is a probability.
-/

namespace MetricHistory

namespace Draw

variable {σ : Type}

/-! ### Numbers -/

/-- A drawn number stays below the bound, also where a second word carries into it. -/
theorem exists_below? {bits : ℕ} {draw : σ → ℕ × σ} (hdraw : ∀ s, (draw s).1 < 2 ^ bits) {n : ℕ}
    (hn : 0 < n) (s : σ) : ∃ k < n, ∃ s', below? bits draw n s = some (k, s') := by
  have hsplit := Nat.div_add_mod ((draw s).1 * n) (2 ^ bits)
  have hword : ((draw s).1 + 1) * n ≤ 2 ^ bits * n := Nat.mul_le_mul_right n (hdraw s)
  unfold below?
  simp only [Nat.pow_eq]
  set high := (draw s).1 * n / 2 ^ bits with hhigh
  set low := (draw s).1 * n % 2 ^ bits with hlow
  have hhigh_lt : high < n := by
    by_contra hle
    have := Nat.mul_le_mul_left (2 ^ bits) (not_lt.mp hle)
    linarith
  rw [if_neg hn.ne']
  split_ifs with hcarry hover
  · -- with so much in the low part the high part is not the last number below the bound
    have hlarge : 2 ^ bits < low + n := by omega
    refine ⟨high + 1, ?_, _, rfl⟩
    by_contra hle
    have := Nat.mul_le_mul_left (2 ^ bits) (not_lt.mp hle)
    linarith
  · exact ⟨high, hhigh_lt, _, rfl⟩
  · exact ⟨high, hhigh_lt, _, rfl⟩

/-- There is nothing to draw below zero. -/
theorem below?_eq_none_iff {bits : ℕ} {draw : σ → ℕ × σ} {n : ℕ} {s : σ} :
    below? bits draw n s = none ↔ n = 0 := by
  unfold below?
  dsimp only
  split_ifs with hzero
  · exact iff_of_true rfl hzero
  · exact iff_of_false nofun hzero
  · exact iff_of_false nofun hzero

variable [WordSource σ]

theorem word_lt (s : σ) : (word s).1 < 2 ^ 32 :=
  UInt32.toNat_lt _

theorem wideWord_lt (s : σ) : (wideWord s).1 < 2 ^ 64 := by
  have hlow := word_lt s
  have hhigh := word_lt (word s).2
  have heq : (wideWord s).1 = (word s).1 + 2 ^ 32 * (word (word s).2).1 := rfl
  omega

/-- A drawn index stays below its bound. -/
theorem exists_index? {n : ℕ} (hn : 0 < n) (s : σ) : ∃ k < n, ∃ s', index? n s = some (k, s') := by
  unfold index?
  split_ifs
  · exact exists_below? word_lt hn s
  · exact exists_below? wideWord_lt hn s

/-- A drawn gap is at least one and at most as long as the longest. -/
theorem exists_gap? {n : ℕ} (hn : 0 < n) (s : σ) :
    ∃ k, 1 ≤ k ∧ k ≤ n ∧ ∃ s', gap? n s = some (k, s') := by
  obtain ⟨k, hk, s', hbelow⟩ := exists_below? wideWord_lt hn s
  refine ⟨k + 1, by omega, hk, s', ?_⟩
  rw [gap?, hbelow, Option.map_some]

/-! ### Coins -/

variable {p q : Float}

theorem floor_div_two_pow_mul (n j k : ℕ) :
    ⌊(n : ℚ) / 2 ^ (k + j) * 2 ^ j⌋₊ = n / Nat.pow 2 k := by
  have hcast : (2 : ℚ) ^ k = (2 ^ k : ℕ) := by norm_cast
  rw [pow_add, ← div_div, div_mul_cancel₀ _ (by positivity), hcast, Nat.floor_div_eq_div,
    Nat.pow_eq]

/-- A word is compared with the whole part of the probability times `2 ^ 64`. -/
theorem threshold_eq_floor (h0 : 0.0 ≤ p) (hp : p.isFinite = true) :
    threshold p = ⌊Value.number p * 2 ^ 64⌋₊ := by
  have hpow : (2 : ℚ) ^ 1075 = 2 ^ (1011 + 64) := rfl
  rw [Value.number_eq_steps_div h0 hp, hpow]
  unfold threshold
  generalize 1011 = k
  rw [floor_div_two_pow_mul, Value.steps, apply_ite (· / Nat.pow 2 k)]
  rfl

/-- A likelier coin compares with no less. -/
theorem threshold_mono (h0 : 0.0 ≤ p) (hpq : p ≤ q) (hq : q < 1.0) :
    threshold p ≤ threshold q := by
  have h0q := Value.le_trans h0 hpq
  have hpfin := Value.isFinite_of_lt_one h0 (Value.lt_of_le_of_lt hpq hq)
  have hqfin := Value.isFinite_of_lt_one h0q hq
  rw [threshold_eq_floor h0 hpfin, threshold_eq_floor h0q hqfin]
  have hnumber := Value.number_le_number hpfin hqfin hpq
  gcongr

/-- What a word is compared with is a number of 64 bits. -/
theorem threshold_lt (h0 : 0.0 ≤ p) (h1 : p < 1.0) : threshold p < 2 ^ 64 := by
  have hp := Value.isFinite_of_lt_one h0 h1
  have hnumber := Value.number_lt_number hp rfl h1
  rw [Value.number_one] at hnumber
  rw [threshold_eq_floor h0 hp, Nat.floor_lt' (by decide)]
  push_cast
  linarith

/-- A coin that may fail takes a word of 64 bits. -/
theorem coin?_of_lt_one (h0 : 0.0 ≤ p) (h1 : p < 1.0) (s : σ) :
    coin? p s = some (decide ((wideWord s).1 < threshold p), (wideWord s).2) := by
  have hne : (p == 1.0) = false := by
    rw [Bool.eq_false_iff]
    intro heq
    obtain ⟨-, -, hlt⟩ := Value.lt_iff.mp h1
    obtain ⟨-, -, heq⟩ := Value.beq_iff.mp heq
    exact hlt.ne heq
  unfold coin?
  simp [hne, h0, h1]

/-- A coin that cannot fail takes no word. -/
theorem coin?_of_beq_one (h : (p == 1.0) = true) (s : σ) : coin? p s = some (true, s) := by
  rw [coin?, if_pos h]

/-- What is not a number is no probability. -/
theorem coin?_of_isNaN (h : p.isNaN = true) (s : σ) : coin? p s = none := by
  rw [← Bool.not_eq_false] at h
  have hne : ¬ (p == 1.0) = true := fun heq => h (Value.beq_iff.mp heq).1
  have hle : ¬ 0.0 ≤ p := fun hle => h (Value.le_iff.mp hle).2.1
  unfold coin?
  simp [hne, hle]

end Draw

/-! ### Keeping within bounds -/

/-- What is not a number stays so. -/
theorem clampFloat_of_isNaN {low high x : Float} (h : x.isNaN = true) :
    clampFloat low high x = x := by
  rw [← Bool.not_eq_false] at h
  have hlow : ¬ x < low := fun hlt => h (Value.lt_iff.mp hlt).1
  have hhigh : ¬ high < x := fun hlt => h (Value.lt_iff.mp hlt).2.1
  rw [clampFloat, if_neg hlow, if_neg hhigh]

/-- A number that is kept between 0 and 1 is the probability of a coin that may fail or of one that
cannot. -/
theorem clampFloat_unit_cases {x : Float} (h : x.isNaN = false) :
    0.0 ≤ clampFloat 0.0 1.0 x ∧ clampFloat 0.0 1.0 x < 1.0 ∨
      (clampFloat 0.0 1.0 x == 1.0) = true := by
  unfold clampFloat
  split_ifs with hlow hhigh
  · exact Or.inl (by decide)
  · exact Or.inr (by decide)
  · have h0 : 0.0 ≤ x := Value.le_of_not_lt rfl h hlow
    have h1 : x ≤ 1.0 := Value.le_of_not_lt h rfl hhigh
    rcases Value.lt_or_beq_of_le h1 with hlt | heq
    · exact Or.inl ⟨h0, hlt⟩
    · exact Or.inr heq

theorem zero_le_clampFloat_unit {x : Float} (h : (clampFloat 0.0 1.0 x).isNaN = false) :
    0.0 ≤ clampFloat 0.0 1.0 x := by
  have hx : x.isNaN = false := by
    rw [Bool.eq_false_iff]
    intro hnan
    rw [clampFloat_of_isNaN hnan, hnan] at h
    cases h
  rcases clampFloat_unit_cases hx with ⟨h0, -⟩ | hone
  · exact h0
  · exact Value.le_trans (by decide) (Value.le_of_beq hone).2

end MetricHistory
