import MetricHistory.Proofs.Sample.Order

/-!
# When a random history cannot be drawn

Every revision tosses the coin that says whether it is measured, and every revision after the second
the one that says whether it has a second parent; a ratio that is not a number is no coin, any other
is.  Apart from that a history fails only if its time runs out.  It never does where the longest
gaps lead to no second after the last one, and it always does where the shortest gaps lead beyond.
No number is drawn from an empty range, no parent comes before the first revision, and no gap is
longer than a span.

* `RandomShape.LacksCoin`: a ratio that is needed is not a number.
* `History.eq_of_drawn_eq_error`: what a fault says.
* `History.drawn_faults`: when a random history can be drawn.
-/

namespace MetricHistory

/-- A ratio is not a number although it is needed: the one by every revision, the other by every
revision after the second. -/
def RandomShape.LacksCoin (shape : RandomShape) : Prop :=
  shape.measuredRatio.isNaN = true ∨ 3 ≤ shape.revisions ∧ shape.mergeRatio.isNaN = true

instance (shape : RandomShape) : Decidable shape.LacksCoin :=
  inferInstanceAs (Decidable (_ ∨ _))

namespace Growth

variable {σ : Type} {shape : RandomShape} {source : σ} {n : ℕ} {g : Growth σ}

/-- If the time runs out, it would do so with the longest gaps. -/
theorem Chronicled.after?_eq_none {k gap : ℕ} (h : Chronicled shape k g) (hk : 0 < k) (hkn : k < n)
    (hgap : gap ≤ shape.maxGapSeconds) (hnone : g.time.after? gap = none) :
    shape.start.after? ((n - 1) * shape.maxGapSeconds) = none := by
  rw [Instant.after?_eq_none_iff] at hnone ⊢
  have hgaps : (k - 1) * shape.maxGapSeconds + shape.maxGapSeconds ≤
      (n - 1) * shape.maxGapSeconds := by
    rw [← Nat.add_one_mul, Nat.sub_add_cancel hk]
    exact Nat.mul_le_mul_right _ (Nat.le_sub_one_of_lt hkn)
  calc lastSecond < g.time.second + gap := hnone
    _ ≤ shape.start.second + ((k - 1 : ℕ) * shape.maxGapSeconds) + shape.maxGapSeconds := by
        have := h.time.most
        omega
    _ ≤ shape.start.second + ((n - 1) * shape.maxGapSeconds : ℕ) := by
        push_cast at hgaps ⊢
        omega

variable [WordSource σ]

/-- The last revision needs every ratio that any of them needs. -/
theorem isNaN_eq_false_of_grown (h : grown shape source n = .ok g) :
    (0 < n → shape.measuredRatio.isNaN = false) ∧
      (3 ≤ n → shape.mergeRatio.isNaN = false) := by
  cases n with
  | zero => exact ⟨by omega, by omega⟩
  | succ n =>
    obtain ⟨before, -, hgrow⟩ := grown_succ_eq_ok_iff.mp h
    have hadds := adds_of_grow hgrow
    exact ⟨fun _ => hadds.measuredRatio, fun hn => hadds.mergeRatio (by omega)⟩

end Growth

namespace History

variable {σ : Type} [WordSource σ] {shape : RandomShape} {source : σ} {fault : GrowthFault}

/-- A fault says what is wrong. -/
theorem eq_of_drawn_eq_error (hstart : shape.start.isLeap = false)
    (hdrawn : drawn shape source = .error fault) :
    fault = .ratioNotANumber ∧ shape.LacksCoin ∨
      fault = .timeOutOfRange ∧
        shape.start.after? ((shape.revisions - 1) * shape.maxGapSeconds) = none := by
  obtain ⟨k, hk, g, hg, hfails⟩ := Growth.exists_fails_of_grown (drawn_eq_error_iff.mp hdrawn)
  cases hfails with
  | measured hnan => exact Or.inl ⟨rfl, Or.inl hnan⟩
  | merge hlt hnan => exact Or.inl ⟨rfl, Or.inr ⟨by omega, hnan⟩⟩
  | late hpos hgap hnone =>
    have hchron := Growth.chronicled_of_grown hstart hg
    exact Or.inr ⟨rfl, hchron.after?_eq_none hpos hk hgap hnone⟩

theorem exists_drawn (hstart : shape.start.isLeap = false) (hcoins : ¬ shape.LacksCoin)
    (hlast : shape.start.after? ((shape.revisions - 1) * shape.maxGapSeconds) ≠ none) :
    ∃ h, drawn shape source = .ok h := by
  cases hdrawn : drawn shape source with
  | ok h => exact ⟨h, rfl⟩
  | error fault =>
    rcases eq_of_drawn_eq_error hstart hdrawn with ⟨-, hlacks⟩ | ⟨-, hnone⟩
    · exact absurd hlacks hcoins
    · exact absurd hnone hlast

/-- **Faults**: let the first revision of a random history not be made in a leap second.  Only a
ratio that is not a number or time that runs out can stop it: there is always a number to draw, a
revision for the parent, and a span for the gap.  A history without revisions can be drawn.  One
with revisions cannot if a ratio that is needed is not a number.  Else it can if so many of the
longest gaps as lie between its first and its last revision lead to an instant, whatever the ratios,
and its time runs out if so many seconds lead to none. -/
theorem drawn_faults (shape : RandomShape) (source : σ) (hstart : shape.start.isLeap = false) :
    (drawn shape source ≠ .error .emptyRange ∧ drawn shape source ≠ .error .parentOutOfRange ∧
      drawn shape source ≠ .error .gapOutOfRange) ∧
    (shape.revisions = 0 → ∃ h, drawn shape source = .ok h) ∧
    (0 < shape.revisions → shape.LacksCoin → ∃ fault, drawn shape source = .error fault) ∧
    (0 < shape.revisions → ¬ shape.LacksCoin →
      (shape.start.after? ((shape.revisions - 1) * shape.maxGapSeconds) ≠ none →
        ∃ h, drawn shape source = .ok h) ∧
      (shape.start.after? (shape.revisions - 1) = none →
        drawn shape source = .error .timeOutOfRange)) := by
  have hfaults : ∀ fault, drawn shape source = .error fault →
      fault = .ratioNotANumber ∨ fault = .timeOutOfRange := fun fault hdrawn =>
    (eq_of_drawn_eq_error hstart hdrawn).imp And.left And.left
  refine ⟨⟨?_, ?_, ?_⟩, ?_, ?_,
    fun _ hcoins => ⟨fun hlast => exists_drawn hstart hcoins hlast, ?_⟩⟩
  · intro hdrawn
    simpa using hfaults _ hdrawn
  · intro hdrawn
    simpa using hfaults _ hdrawn
  · intro hdrawn
    simpa using hfaults _ hdrawn
  · intro hzero
    exact ⟨_, drawn_eq_ok_iff.mpr ⟨Growth.seedling shape source, by rw [hzero]; rfl, rfl⟩⟩
  · intro hpos hlacks
    cases hdrawn : drawn shape source with
    | error fault => exact ⟨fault, rfl⟩
    | ok h =>
      obtain ⟨g, hg, -⟩ := drawn_eq_ok_iff.mp hdrawn
      obtain ⟨hmeasured, hmerge⟩ := Growth.isNaN_eq_false_of_grown hg
      rcases hlacks with hnan | ⟨hthree, hnan⟩
      · rw [hmeasured hpos] at hnan
        cases hnan
      · rw [hmerge hthree] at hnan
        cases hnan
  · intro hnone
    rw [Instant.after?_eq_none_iff] at hnone
    cases hdrawn : drawn shape source with
    | error fault =>
      rcases eq_of_drawn_eq_error hstart hdrawn with ⟨-, hlacks⟩ | ⟨rfl, -⟩
      · exact absurd hlacks hcoins
      · rfl
    | ok h =>
      obtain ⟨g, hg, -⟩ := drawn_eq_ok_iff.mp hdrawn
      have hleast := (Growth.chronicled_of_grown hstart hg).time.least
      exact absurd (hleast.trans g.time.le_lastSecond) (not_le.mpr hnone)

/-- Three revisions from the last second on. -/
def tooLate : RandomShape :=
  { merged with
    start :=
      { Instant.epoch with
        second := lastSecond
        firstSecond_le := by decide
        le_lastSecond := by decide } }

/-- A small history with a merge can be drawn, but not with a ratio that is not a number, and not at
the end of time, where it is the time that fails and no draw. -/
theorem drawn_faults_merged :
    merged.start.isLeap = false ∧ tooLate.start.isLeap = false ∧
      (∃ h, random 7 merged = .ok h) ∧
      (∃ fault, random 7 { merged with mergeRatio := 0.0 / 0.0 } = .error fault) ∧
      random 7 tooLate = .error .timeOutOfRange := by
  have hstart : merged.start.isLeap = false := by decide
  have hlate : tooLate.start.isLeap = false := by decide
  refine ⟨hstart, hlate, ?_, ?_, ?_⟩
  · obtain ⟨-, -, -, hdrawn⟩ := drawn_faults merged (ChaCha.ofSeed 7) hstart
    exact (hdrawn (by decide) (by decide)).1 (by decide)
  · obtain ⟨-, -, hdrawn, -⟩ :=
      drawn_faults { merged with mergeRatio := 0.0 / 0.0 } (ChaCha.ofSeed 7) hstart
    exact hdrawn (by decide) (by decide)
  · obtain ⟨-, -, -, hdrawn⟩ := drawn_faults tooLate (ChaCha.ofSeed 7) hlate
    exact (hdrawn (by decide) (by decide)).2 (by decide)

end History

end MetricHistory
