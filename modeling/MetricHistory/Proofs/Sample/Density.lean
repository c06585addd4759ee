import MetricHistory.Proofs.Sample.Faults

/-!
# Denser and sparser histories

Whether a revision is measured changes nothing but its point: the coin takes the same word whatever
comes up, and neither the parents nor the times nor the values look at it.  So two histories that
are measured at different ratios grow side by side (`Growth.Within`), and since the likelier coin
always comes up when the other does, the one has every point of the other.

* `EndAlike`: two computations that fail alike, or give results that belong together.
* `Growth.toss_alike`: two coins that are tossed alike.
* `Growth.grown_within`: two histories that grow side by side.
* `History.drawn_density`: how many points a random history has.
-/

namespace MetricHistory

/-- Both computations fail, for the same reason, or both give a result, and the results belong
together. -/
inductive EndAlike {ε α β : Type} (r : α → β → Prop) : Except ε α → Except ε β → Prop where
  | error (fault : ε) : EndAlike r (.error fault) (.error fault)
  | ok {a : α} {b : β} : r a b → EndAlike r (.ok a) (.ok b)

namespace EndAlike

variable {ε α β γ δ : Type} {r : α → β → Prop} {t : γ → δ → Prop}

theorem refl (x : Except ε α) : EndAlike (· = ·) x x := by
  cases x with
  | error fault => exact .error fault
  | ok a => exact .ok rfl

/-- What is done next may depend on the results, as long as it ends alike for those that belong
together. -/
theorem bind {x : Except ε α} {y : Except ε β} (h : EndAlike r x y) {f : α → Except ε γ}
    {k : β → Except ε δ} (hnext : ∀ a b, r a b → EndAlike t (f a) (k b)) :
    EndAlike t (x >>= f) (y >>= k) := by
  cases h with
  | error fault => exact .error fault
  | ok hab => exact hnext _ _ hab

theorem map {x : Except ε α} {y : Except ε β} (h : EndAlike r x y) {f : α → γ} {k : β → δ}
    (hnext : ∀ a b, r a b → t (f a) (k b)) : EndAlike t (x.map f) (y.map k) := by
  cases h with
  | error fault => exact .error fault
  | ok hab => exact .ok (hnext _ _ hab)

end EndAlike

namespace Growth

variable {σ : Type} {shape : RandomShape} {source : σ} {p q : Float} {i : ℕ} {g g' : Growth σ}

/-- Both histories are at the same place, and the second has every point of the first. -/
structure Within (g g' : Growth σ) : Prop where
  source : g'.source = g.source
  time : g'.time = g.time
  value : g'.value = g.value
  parents : g'.parents = g.parents
  points : g.points.toList.Sublist g'.points.toList

variable [WordSource σ]

/-! ### Side by side -/

/-- The likelier of two coins comes up when the other does, and takes the same word. -/
theorem toss_alike (hpq : clampFloat 0.0 1.0 p ≤ clampFloat 0.0 1.0 q)
    (hq : clampFloat 0.0 1.0 q < 1.0) (s : σ) :
    EndAlike (fun a b => (a.1 = true → b.1 = true) ∧ b.2 = a.2) (toss p s) (toss q s) := by
  have h0 := zero_le_clampFloat_unit (Value.le_iff.mp hpq).1
  rw [toss_of_lt_one h0 (Value.lt_of_le_of_lt hpq hq), toss_of_lt_one (Value.le_trans h0 hpq) hq]
  refine .ok ⟨?_, rfl⟩
  have hthreshold := Draw.threshold_mono h0 hpq hq
  simp only [decide_eq_true_eq]
  omega

/-- The links do not look at the points. -/
theorem link_within (h : Within g g') : EndAlike Within (link shape i g) (link shape i g') := by
  obtain ⟨source, time, value, points, parents⟩ := g
  obtain ⟨source', time', value', points', parents'⟩ := g'
  obtain ⟨rfl, rfl, rfl, rfl, hpoints⟩ := h
  unfold link
  dsimp only
  split_ifs with hi
  · exact .ok ⟨rfl, rfl, rfl, rfl, hpoints⟩
  · -- the same words are drawn for both, with the same results
    refine (EndAlike.refl _).bind ?_
    rintro ⟨first, s⟩ _ rfl
    refine (EndAlike.refl _).bind ?_
    rintro ⟨second, s'⟩ _ rfl
    refine (EndAlike.refl _).bind ?_
    rintro ⟨later, s''⟩ _ rfl
    exact .ok ⟨rfl, rfl, rfl, rfl, hpoints⟩

/-- What is measured at the lower ratio is measured at the higher one, with the same value. -/
theorem measure_within (hpq : clampFloat 0.0 1.0 p ≤ clampFloat 0.0 1.0 q)
    (hq : clampFloat 0.0 1.0 q < 1.0) (h : Within g g') :
    EndAlike Within (measure { shape with measuredRatio := p } i g)
      (measure { shape with measuredRatio := q } i g') := by
  obtain ⟨source, time, value, points, parents⟩ := g
  obtain ⟨source', time', value', points', parents'⟩ := g'
  obtain ⟨rfl, rfl, rfl, rfl, hpoints⟩ := h
  unfold measure
  dsimp only
  refine (toss_alike hpq hq _).bind ?_
  rintro ⟨measured, s⟩ ⟨measured', _⟩ ⟨himp, rfl⟩
  dsimp only at himp hpoints ⊢
  -- the coin of the sparser history does not come up alone
  split_ifs with hm hm' hm'
  · refine .ok ⟨rfl, rfl, rfl, rfl, ?_⟩
    simpa only [Array.toList_push] using hpoints.append_right _
  · exact absurd (himp hm) hm'
  · refine .ok ⟨rfl, rfl, rfl, rfl, ?_⟩
    simpa only [Array.toList_push] using hpoints.trans (List.sublist_append_left ..)
  · exact .ok ⟨rfl, rfl, rfl, rfl, hpoints⟩

/-- Whatever the length, two histories that differ in the measured ratio grow side by side. -/
theorem grown_within (hpq : clampFloat 0.0 1.0 p ≤ clampFloat 0.0 1.0 q)
    (hq : clampFloat 0.0 1.0 q < 1.0) (n : ℕ) :
    EndAlike Within (grown { shape with measuredRatio := p } source n)
      (grown { shape with measuredRatio := q } source n) := by
  induction n with
  | zero => exact .ok ⟨rfl, rfl, rfl, rfl, List.Sublist.refl _⟩
  | succ n ih =>
    rw [grown_succ, grown_succ]
    refine ih.bind fun g g' hwithin => ?_
    exact (link_within hwithin).bind fun _ _ hlinked => measure_within hpq hq hlinked

/-! ### No point and every point -/

/-- A coin that never comes up takes a word all the same. -/
theorem toss_of_beq_zero {ratio : Float} (h : (clampFloat 0.0 1.0 ratio == 0.0) = true) (s : σ) :
    toss ratio s = .ok (false, (Draw.wideWord s).2) := by
  obtain ⟨hle, hge⟩ := Value.le_of_beq h
  have hzero : Draw.threshold (clampFloat 0.0 1.0 ratio) ≤ Draw.threshold 0.0 :=
    Draw.threshold_mono hge hle (by decide)
  have hnone : Draw.threshold 0.0 = 0 := by decide +kernel
  rw [toss_of_lt_one hge (Value.lt_of_le_of_lt hle (by decide))]
  simp only [Except.ok.injEq, Prod.mk.injEq, and_true, decide_eq_false_iff_not]
  omega

/-- The coin says whether a revision has a point. -/
theorem exists_toss_of_grow (h : grow shape g i = .ok g') :
    ∃ (s : σ) (measured : Bool) (s' : σ), toss shape.measuredRatio s = .ok (measured, s') ∧
      g'.points.toList.map (·.revId) =
        g.points.toList.map (·.revId) ++ if measured then [revName i] else [] := by
  obtain ⟨linked, hlink, hmeasure⟩ := bind_eq_ok_iff.mp h
  obtain ⟨-, -, -, hpoints⟩ := link_eq_ok hlink
  obtain ⟨s, measured, s', htoss, -, -, hpoints'⟩ := measure_eq_ok hmeasure
  refine ⟨s, measured, s', htoss, ?_⟩
  rw [hpoints', hpoints, List.map_append, apply_ite (List.map _)]
  rfl

/-- Where the coin always says the same, all revisions have a point or none has. -/
theorem map_revId_of_toss {measured : Bool} {n : ℕ}
    (hcoin : ∀ s : σ, ∃ s', toss shape.measuredRatio s = .ok (measured, s'))
    (h : grown shape source n = .ok g) :
    g.points.toList.map (·.revId) = if measured then (List.range n).map revName else [] := by
  refine grown_induction (P := fun n g => g.points.toList.map (·.revId) =
    if measured then (List.range n).map revName else []) ?_ ?_ h
  · cases measured <;> rfl
  · intro n g g' hbefore hgrow
    obtain ⟨s, measured', s', htoss, hrevs⟩ := exists_toss_of_grow hgrow
    obtain ⟨t, ht⟩ := hcoin s
    rw [ht] at htoss
    cases htoss
    rw [hrevs, hbefore]
    cases measured with
    | false => rfl
    | true => simp [List.range_succ]

end Growth

namespace History

open Growth (revName)

variable {σ : Type} [WordSource σ] {source : σ} {shape : RandomShape} {h : History}

/-- A ratio of zero measures no revision. -/
theorem points_eq_nil_of_beq_zero (hratio : (clampFloat 0.0 1.0 shape.measuredRatio == 0.0) = true)
    (hdrawn : drawn shape source = .ok h) : h.points = [] := by
  obtain ⟨g, hg, rfl⟩ := drawn_eq_ok_iff.mp hdrawn
  have hrevs := Growth.map_revId_of_toss (fun s => ⟨_, Growth.toss_of_beq_zero hratio s⟩) hg
  exact List.map_eq_nil_iff.mp hrevs

/-- A ratio of one measures every revision. -/
theorem revIds_of_beq_one (hratio : (clampFloat 0.0 1.0 shape.measuredRatio == 1.0) = true)
    (hdrawn : drawn shape source = .ok h) :
    h.points.map (·.revId) = (List.range shape.revisions).map revName := by
  obtain ⟨g, hg, rfl⟩ := drawn_eq_ok_iff.mp hdrawn
  exact Growth.map_revId_of_toss (fun s => ⟨_, Growth.toss_of_beq_one hratio s⟩) hg

/-- **Density**: of two histories that are drawn alike but for the ratio at which they are measured,
which is below one for both, either both fail or none does.  They have the same parents, and the one
with the higher ratio has every point of the other, in the same order.  A ratio of zero gives no
point, and a ratio of one gives one point for every revision, in order. -/
theorem drawn_density (shape : RandomShape) (source : σ) :
    (∀ p q : Float, clampFloat 0.0 1.0 p ≤ clampFloat 0.0 1.0 q → clampFloat 0.0 1.0 q < 1.0 →
      EndAlike (fun h h' => h'.parents = h.parents ∧ h.points.Sublist h'.points)
        (drawn { shape with measuredRatio := p } source)
        (drawn { shape with measuredRatio := q } source)) ∧
    ∀ h, drawn shape source = .ok h →
      ((clampFloat 0.0 1.0 shape.measuredRatio == 0.0) = true → h.points = []) ∧
      ((clampFloat 0.0 1.0 shape.measuredRatio == 1.0) = true →
        h.points.map (·.revId) = (List.range shape.revisions).map revName) := by
  constructor
  · intro p q hpq hq
    refine (Growth.grown_within hpq hq shape.revisions).map fun g g' hwithin => ?_
    exact ⟨congrArg Array.toList hwithin.parents, hwithin.points⟩
  · intro h hdrawn
    exact ⟨fun hzero => points_eq_nil_of_beq_zero hzero hdrawn,
      fun hone => revIds_of_beq_one hone hdrawn⟩

theorem exists_random_merged_measured (ratio : Float) (hratio : ratio.isNaN = false) :
    ∃ h, random 7 { merged with measuredRatio := ratio } = .ok h := by
  have hstart : merged.start.isLeap = false := by decide
  have hmerge : merged.mergeRatio.isNaN = false := by decide
  have hlast : merged.start.after? ((merged.revisions - 1) * merged.maxGapSeconds) ≠ none := by
    decide
  refine exists_drawn hstart ?_ hlast
  rintro (hnan | ⟨-, hnan⟩)
  · exact absurd (hratio.symm.trans hnan) Bool.false_ne_true
  · exact absurd (hmerge.symm.trans hnan) Bool.false_ne_true

/-- A small history that is measured at several ratios. -/
theorem drawn_density_merged :
    clampFloat 0.0 1.0 0.25 ≤ clampFloat 0.0 1.0 0.5 ∧ clampFloat 0.0 1.0 0.5 < 1.0 ∧
      EndAlike (fun h h' => h'.parents = h.parents ∧ h.points.Sublist h'.points)
        (random 7 { merged with measuredRatio := 0.25 })
        (random 7 { merged with measuredRatio := 0.5 }) ∧
      (∃ h, random 7 { merged with measuredRatio := 0.0 } = .ok h ∧ h.points = []) ∧
      ∃ h, random 7 { merged with measuredRatio := 1.0 } = .ok h ∧
        h.points.map (·.revId) = ["rev-0", "rev-1", "rev-2"] := by
  have hpq : clampFloat 0.0 1.0 0.25 ≤ clampFloat 0.0 1.0 0.5 := by decide
  have hq : clampFloat 0.0 1.0 0.5 < 1.0 := by decide
  refine ⟨hpq, hq, ?_, ?_, ?_⟩
  · exact (drawn_density merged (ChaCha.ofSeed 7)).1 0.25 0.5 hpq hq
  · obtain ⟨h, hrandom⟩ := exists_random_merged_measured 0.0 (by decide)
    exact ⟨h, hrandom, ((drawn_density _ _).2 h hrandom).1 (by decide)⟩
  · obtain ⟨h, hrandom⟩ := exists_random_merged_measured 1.0 (by decide)
    exact ⟨h, hrandom, ((drawn_density _ _).2 h hrandom).2 (by decide)⟩

end History

end MetricHistory
