import MetricHistory.Proofs.Value

/-!
# The numbers that values stand for

A finite value is a whole number times a power of two, and both are read off its bits: the fraction
bits alone with the least power, where the exponent bits are zero, and else with one more bit in
front of them and the power that the exponent bits name.  In that form a larger power always makes a
larger number, so that the order of values is the order of their numbers.

* `Value.number`: the number that a value stands for.
* `Value.Decodes`: what the bits of a finite value say; `Value.decodes_unpack`: how it is unpacked.
* `Value.number_le_number`, `Value.number_lt_number`: the order of values.
-/

namespace MetricHistory

open Float.Model (UnpackedFloat Format)

namespace Value

/-! ### The bits of a value -/

/-- The exponent bits of a value, as a number. -/
def exponentBits (a : Float) : ℕ :=
  a.toBits.toNat / 2 ^ 52 % 2 ^ 11

/-- The fraction bits of a value, as a number. -/
def fractionBits (a : Float) : ℕ :=
  a.toBits.toNat % 2 ^ 52

theorem fractionBits_lt (a : Float) : fractionBits a < 2 ^ 52 :=
  Nat.mod_lt _ (by decide)

theorem toNat_unpackExponent (a : Float) :
    (@UnpackedFloat.unpackExponent Format.binary64 a.toModel.toBits.toBitVec).toNat =
      exponentBits a := by
  simp [UnpackedFloat.unpackExponent, exponentBits, Float.toBits, Nat.shiftRight_eq_div_pow]

theorem toNat_unpackMantissa (a : Float) :
    (@UnpackedFloat.unpackMantissa Format.binary64 a.toModel.toBits.toBitVec).toNat =
      fractionBits a := by
  simp [UnpackedFloat.unpackMantissa, fractionBits, Float.toBits]

/-- What exponent bits and fraction bits say of a finite value: nothing but its sign for a zero, and
else the whole number and the exponent of the power of two. -/
def Decodes (exponent fraction : ℕ) : UnpackedFloat → Prop
  | .zero _ => exponent = 0 ∧ fraction = 0
  | .finite _ m e _ =>
    exponent = 0 ∧ m = fraction ∧ e = -1074 ∨
      0 < exponent ∧ m = 2 ^ 52 + fraction ∧ e = exponent - 1075
  | _ => False

/-- A finite value is unpacked as its bits say. -/
theorem decodes_unpack {a : Float} (ha : a.isFinite = true) :
    Decodes (exponentBits a) (fractionBits a) a.toModel.unpack := by
  have he := toNat_unpackExponent a
  have hm := toNat_unpackMantissa a
  unfold Float.isFinite Float.Model.isFinite at ha
  unfold Float.Model.unpack UnpackedFloat.unpack at ha ⊢
  dsimp only at ha ⊢
  split_ifs at ha ⊢ with hones hnone hzero hfraction
  · cases ha
  · cases ha
  · rw [hzero] at he
    rw [hfraction] at hm
    exact ⟨he.symm, hm.symm⟩
  · rw [hzero] at he
    refine Or.inl ⟨he.symm, hm, ?_⟩
    rw [hzero]
    rfl
  · refine Or.inr ⟨?_, ?_, ?_⟩
    · rw [← he, Nat.pos_iff_ne_zero]
      intro h0
      exact hzero (BitVec.eq_of_toNat_eq h0)
    · rw [← hm, BitVec.toNat_append, ← Nat.shiftLeft_add_eq_or_of_lt (BitVec.isLt _)]
      rfl
    · rw [← he]
      rfl

/-! ### Numbers -/

/-- The number that a value stands for when it is unpacked. -/
def numberOf : UnpackedFloat → ℚ
  | .finite s m e _ => s.apply m * 2 ^ e
  | _ => 0

/-- The number that a finite value stands for.  Other values are put down as zero. -/
def number (a : Float) : ℚ :=
  numberOf a.toModel.unpack

/-- A value without a sign is counted out in steps of `2 ^ -1075`. -/
def steps (a : Float) : ℕ :=
  if exponentBits a = 0 then 2 * fractionBits a
  else (2 ^ 52 + fractionBits a) * 2 ^ exponentBits a

theorem number_eq_steps_div {a : Float} (h0 : 0.0 ≤ a) (ha : a.isFinite = true) :
    number a = steps a / 2 ^ 1075 := by
  have hdecodes := decodes_unpack ha
  obtain ⟨-, -, hrank⟩ := le_iff.mp h0
  rw [show rank 0.0 = toLex (0, toLex (0, 0)) from rfl] at hrank
  unfold rank at hrank
  unfold number
  match a.toModel.unpack, hdecodes, hrank with
  | .zero _, ⟨hexponent, hfraction⟩, _ => simp [numberOf, steps, hexponent, hfraction]
  | .finite .negative .., _, hrank => simp [position, Prod.Lex.toLex_le_toLex] at hrank
  | .finite .positive m e _, .inl ⟨hexponent, hm, he⟩, _ =>
    have he' : e = 1 - 1075 := he
    rw [steps, if_pos hexponent, ← hm, numberOf, he', zpow_sub₀ two_ne_zero, zpow_one, zpow_ofNat]
    simp only [UnpackedFloat.Sign.apply]
    push_cast
    rw [mul_comm 2, mul_div_assoc]
  | .finite .positive m e _, .inr ⟨hexponent, hm, he⟩, _ =>
    rw [steps, if_neg hexponent.ne', ← hm, numberOf, he, zpow_sub₀ two_ne_zero, zpow_natCast,
      zpow_ofNat]
    simp only [UnpackedFloat.Sign.apply]
    push_cast
    rw [mul_div_assoc]

/-- A larger power of two makes a larger number, and of two numbers with the same power the one with
the larger factor is larger. -/
theorem mul_zpow_lt_mul_zpow {exponent fraction exponent' fraction' : ℕ}
    {s s' : UnpackedFloat.Sign} {m m' : ℕ} {e e' : ℤ} {hm : 0 < m} {hm' : 0 < m'}
    (hfraction : fraction < 2 ^ 52)
    (h : Decodes exponent fraction (.finite s m e hm))
    (h' : Decodes exponent' fraction' (.finite s' m' e' hm'))
    (hlt : e < e' ∨ e = e' ∧ m < m') : (m : ℚ) * 2 ^ e < m' * 2 ^ e' := by
  rcases hlt with hlt | ⟨rfl, hlt⟩
  · have hm53 : (m : ℚ) < 2 ^ 53 := by
      have : m < 2 ^ 53 := by rcases h with h | h <;> omega
      exact_mod_cast this
    -- the larger power is not the least one
    have hm52 : (2 : ℚ) ^ 52 ≤ m' := by
      have : 2 ^ 52 ≤ m' := by rcases h with h | h <;> rcases h' with h' | h' <;> omega
      exact_mod_cast this
    calc (m : ℚ) * 2 ^ e < 2 ^ 53 * 2 ^ e := by gcongr
      _ = 2 ^ 52 * 2 ^ (e + 1) := by rw [zpow_add_one₀ two_ne_zero]; ring
      _ ≤ m' * 2 ^ e' := by gcongr <;> [exact one_le_two; omega]
  · gcongr

/-- The order of positions is that of numbers. -/
theorem numberOf_lt_numberOf {exponent fraction exponent' fraction' : ℕ} {u v : UnpackedFloat}
    (hu : Decodes exponent fraction u) (hv : Decodes exponent' fraction' v)
    (hfraction : fraction < 2 ^ 52) (hfraction' : fraction' < 2 ^ 52)
    (hlt : position u < position v) : numberOf u < numberOf v := by
  have hpos : ∀ {m : ℕ} {e : ℤ}, 0 < m → (0 : ℚ) < m * 2 ^ e := fun hm => by positivity
  match u, v with
  | .zero _, .zero _ => exact absurd hlt (lt_irrefl _)
  | .zero _, .finite .negative .. => simp [position, Prod.Lex.toLex_lt_toLex] at hlt
  | .zero _, .finite .positive _ e' hm' =>
    simpa [numberOf, UnpackedFloat.Sign.apply] using hpos (e := e') hm'
  | .finite .negative _ e hm, .zero _ =>
    simpa [numberOf, UnpackedFloat.Sign.apply] using hpos (e := e) hm
  | .finite .positive .., .zero _ => simp [position, Prod.Lex.toLex_lt_toLex] at hlt
  | .finite .positive .., .finite .negative .. =>
    simp [position, Prod.Lex.toLex_lt_toLex] at hlt
  | .finite .negative m e hm, .finite .positive m' e' hm' =>
    have := hpos (e := e) hm
    have := hpos (e := e') hm'
    simp only [numberOf, UnpackedFloat.Sign.apply, Int.cast_neg, Int.cast_natCast]
    linarith
  | .finite .negative m e hm, .finite .negative m' e' hm' =>
    have hlt' : e' < e ∨ e' = e ∧ m' < m := by
      simpa [position, Prod.Lex.toLex_lt_toLex, eq_comm] using hlt
    have := mul_zpow_lt_mul_zpow hfraction' hv hu hlt'
    simp only [numberOf, UnpackedFloat.Sign.apply, Int.cast_neg, Int.cast_natCast]
    linarith
  | .finite .positive m e hm, .finite .positive m' e' hm' =>
    have hlt' : e < e' ∨ e = e' ∧ m < m' := by
      simpa [position, Prod.Lex.toLex_lt_toLex] using hlt
    have := mul_zpow_lt_mul_zpow hfraction hu hv hlt'
    simpa only [numberOf, UnpackedFloat.Sign.apply, Int.cast_natCast] using this

variable {a b : Float}

/-- Smaller values stand for smaller numbers. -/
theorem number_lt_number (ha : a.isFinite = true) (hb : b.isFinite = true) (h : a < b) :
    number a < number b := by
  obtain ⟨-, -, hrank⟩ := lt_iff.mp h
  exact numberOf_lt_numberOf (decodes_unpack ha) (decodes_unpack hb) (fractionBits_lt a)
    (fractionBits_lt b) hrank

theorem number_le_number (ha : a.isFinite = true) (hb : b.isFinite = true) (h : a ≤ b) :
    number a ≤ number b := by
  obtain ⟨hna, hnb, hrank⟩ := le_iff.mp h
  rcases hrank.lt_or_eq with hlt | heq
  · exact (number_lt_number ha hb (lt_iff.mpr ⟨hna, hnb, hlt⟩)).le
  · -- values with one rank are the same, or they are the two zeros
    have hbeq : (a == b) = true := beq_iff.mpr ⟨hna, hnb, heq⟩
    obtain ⟨-, -, rfl | ⟨rfl, rfl⟩ | ⟨rfl, rfl⟩⟩ := Float.beq_iff_ne_nan_and_eq.mp hbeq
    · exact le_rfl
    · exact le_of_eq rfl
    · exact le_of_eq rfl

theorem number_one : number 1.0 = 1 := by
  have hunpack : (1.0 : Float).toModel.unpack =
      .finite .positive (2 ^ 52) (-52) (by decide) := by
    rfl
  rw [number, hunpack]
  norm_num [numberOf, UnpackedFloat.Sign.apply]

/-- Values from zero on and below one are finite. -/
theorem isFinite_of_lt_one (h0 : 0.0 ≤ a) (h1 : a < 1.0) : a.isFinite = true := by
  obtain ⟨-, -, hlow⟩ := le_iff.mp h0
  obtain ⟨hnum, -, hhigh⟩ := lt_iff.mp h1
  unfold rank at hlow hhigh
  unfold Float.isFinite Float.Model.isFinite
  unfold Float.isNaN Float.Model.isNaN at hnum
  generalize a.toModel.unpack = u at *
  match u with
  | .zero _ => rfl
  | .finite .. => rfl
  | .notANumber => cases hnum
  | .infinity .negative => exact absurd hlow (by decide)
  | .infinity .positive => exact absurd hhigh (by decide)

end Value

end MetricHistory
