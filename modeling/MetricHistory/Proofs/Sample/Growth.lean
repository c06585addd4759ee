import MetricHistory.Proofs.Calendar.Instant
import MetricHistory.Proofs.Sample.Draw

/-!
# Random histories revision by revision

What the next revision adds to a random history, whatever words are drawn for it, and when it can be
added.  Everything that is recorded once stays recorded, so that a shorter history of the same shape
is the beginning of a longer one.

* `Growth.Adds`: what the next revision adds; `Growth.adds_of_grow`: that it adds nothing else.
* `Growth.Fails`: why it cannot be added; `Growth.fails_of_grow`: that there are no other reasons.
* `Growth.grown_induction`: what every revision keeps holds however long the history is.
* `History.drawn_isPrefix`: a shorter history.
-/

namespace MetricHistory

theorem bind_eq_ok_iff {ε α β : Type} {x : Except ε α} {f : α → Except ε β} {b : β} :
    (x >>= f) = .ok b ↔ ∃ a, x = .ok a ∧ f a = .ok b := by
  cases x with
  | error e => simp [bind, Except.bind]
  | ok a => simp [bind, Except.bind]

theorem bind_eq_error_iff {ε α β : Type} {x : Except ε α} {f : α → Except ε β} {e : ε} :
    (x >>= f) = .error e ↔ x = .error e ∨ ∃ a, x = .ok a ∧ f a = .error e := by
  cases x with
  | error e' => simp [bind, Except.bind]
  | ok a => simp [bind, Except.bind]

theorem RandomShape.maxGapSeconds_pos (shape : RandomShape) : 0 < shape.maxGapSeconds := by
  unfold maxGapSeconds
  omega

/-- No gap is longer than a span can be. -/
theorem RandomShape.exists_ofSeconds? (shape : RandomShape) {gap : ℕ}
    (hgap : gap ≤ shape.maxGapSeconds) :
    ∃ d : Span, Span.ofSeconds? gap = some d ∧ d.nanos = gap * (nanosPerSecond : ℕ) := by
  have hle := shape.maxGap.seconds_le
  have hrange : -longestSpan ≤ (gap : Int) * (nanosPerSecond : ℕ) ∧
      (gap : Int) * (nanosPerSecond : ℕ) ≤ longestSpan := by
    unfold maxGapSeconds at hgap
    unfold longestSpan nanosPerSecond at *
    omega
  exact ⟨⟨_, hrange.1, hrange.2⟩, Span.ofNanos?_eq_some_iff.mpr rfl, rfl⟩

namespace Growth

variable {σ : Type} {shape : RandomShape} {source : σ} {i : ℕ} {g g' : Growth σ}
  {fault : GrowthFault}

/-! ### What a revision adds -/

/-- The edges that may lead from the `i`-th revision to its parents: none from the first revision,
else one to a revision among the three before it, and perhaps another to any but the one just
before. -/
inductive IsLinked (i : ℕ) : List ParentEdge → Prop where
  | root : i = 0 → IsLinked i []
  | single {k : ℕ} : k < i → i ≤ k + 3 → IsLinked i [⟨revName i, revName k⟩]
  | merge {k l : ℕ} : k < i → i ≤ k + 3 → l + 2 ≤ i →
      IsLinked i [⟨revName i, revName k⟩, ⟨revName i, revName l⟩]

/-- When the `i`-th revision may be made, if the one before it was made at `t`. -/
inductive Elapses (shape : RandomShape) (i : ℕ) (t : Instant) : Instant → Prop where
  | first : i = 0 → Elapses shape i t t
  | later {gap : ℕ} {t' : Instant} : 0 < i → 1 ≤ gap → gap ≤ shape.maxGapSeconds →
      t.after? gap = some t' → Elapses shape i t t'

/-- The points recorded when the `i`-th revision has been made at `t`. -/
inductive Records (i : ℕ) (t : Instant) (points : List Point) : List Point → Prop where
  | unmeasured : Records i t points points
  | measured (value : Float) : Records i t points (points ++ [⟨"random", revName i, t, value⟩])

/-- What the `i`-th revision adds to a random history.  All ratios that are looked at are
numbers. -/
structure Adds (shape : RandomShape) (i : ℕ) (g g' : Growth σ) : Prop where
  measuredRatio : shape.measuredRatio.isNaN = false
  mergeRatio : 1 < i → shape.mergeRatio.isNaN = false
  parents : ∃ links, IsLinked i links ∧ g'.parents.toList = g.parents.toList ++ links
  time : Elapses shape i g.time g'.time
  points : Records i g'.time g.points.toList g'.points.toList

/-- Why the `i`-th revision cannot be added, if the one before it was made at `t`. -/
inductive Fails (shape : RandomShape) (i : ℕ) (t : Instant) : GrowthFault → Prop where
  | measured : shape.measuredRatio.isNaN = true → Fails shape i t .ratioNotANumber
  | merge : 1 < i → shape.mergeRatio.isNaN = true → Fails shape i t .ratioNotANumber
  | late {gap : ℕ} : 0 < i → gap ≤ shape.maxGapSeconds → t.after? gap = none →
      Fails shape i t .timeOutOfRange

theorem Records.isPrefix {t : Instant} {points points' : List Point}
    (h : Records i t points points') : points <+: points' := by
  cases h with
  | unmeasured => exact List.prefix_refl _
  | measured value => exact List.prefix_append ..

/-- What was recorded first stays first. -/
theorem Adds.isPrefix (h : Adds shape i g g') :
    g.points.toList <+: g'.points.toList ∧ g.parents.toList <+: g'.parents.toList := by
  obtain ⟨links, -, hparents⟩ := h.parents
  exact ⟨h.points.isPrefix, ⟨links, hparents.symm⟩⟩

variable [WordSource σ]

theorem ok_bind {α β : Type} (a : α) (f : α → Except GrowthFault β) : (.ok a >>= f) = f a :=
  rfl

theorem require_some {α : Type} (a : α) : require fault (some a) = .ok a :=
  rfl

theorem require_eq_ok_iff {α : Type} {x : Option α} {a : α} :
    require fault x = .ok a ↔ x = some a := by
  cases x with
  | none => exact iff_of_false nofun nofun
  | some b => simp [require]

theorem require_eq_error_iff {α : Type} {x : Option α} {fault' : GrowthFault} :
    require fault x = .error fault' ↔ x = none ∧ fault = fault' := by
  cases x with
  | none => simp [require]
  | some b => simp [require]

/-! ### Tosses -/

variable {ratio : Float}

/-- A coin that may fail takes a word of 64 bits. -/
theorem toss_of_lt_one (h0 : 0.0 ≤ clampFloat 0.0 1.0 ratio) (h1 : clampFloat 0.0 1.0 ratio < 1.0)
    (s : σ) :
    toss ratio s = .ok (decide ((Draw.wideWord s).1 < Draw.threshold (clampFloat 0.0 1.0 ratio)),
      (Draw.wideWord s).2) := by
  rw [toss, Draw.coin?_of_lt_one h0 h1, require]

/-- A coin that cannot fail takes no word. -/
theorem toss_of_beq_one (h : (clampFloat 0.0 1.0 ratio == 1.0) = true) (s : σ) :
    toss ratio s = .ok (true, s) := by
  rw [toss, Draw.coin?_of_beq_one h, require]

theorem toss_of_isNaN (h : ratio.isNaN = true) (s : σ) :
    toss ratio s = .error .ratioNotANumber := by
  rw [toss, clampFloat_of_isNaN h, Draw.coin?_of_isNaN h, require]

/-- Any number will do for a ratio. -/
theorem exists_toss (h : ratio.isNaN = false) (s : σ) : ∃ result, toss ratio s = .ok result := by
  rcases clampFloat_unit_cases h with ⟨h0, h1⟩ | hone
  · exact ⟨_, toss_of_lt_one h0 h1 s⟩
  · exact ⟨_, toss_of_beq_one hone s⟩

theorem isNaN_eq_false_of_toss {s : σ} {result : Bool × σ} (h : toss ratio s = .ok result) :
    ratio.isNaN = false := by
  rw [Bool.eq_false_iff]
  intro hnan
  rw [toss_of_isNaN hnan] at h
  cases h

theorem toss_eq_error {s : σ} (h : toss ratio s = .error fault) :
    fault = .ratioNotANumber ∧ ratio.isNaN = true := by
  cases hnan : ratio.isNaN with
  | false =>
    obtain ⟨result, hok⟩ := exists_toss hnan s
    rw [hok] at h
    cases h
  | true =>
    rw [toss_of_isNaN hnan] at h
    cases h
    exact ⟨rfl, rfl⟩

/-! ### The parents of a revision -/

/-- There is always a first parent, as there is a revision before the `i`-th. -/
theorem exists_firstParent (hi : 0 < i) (s : σ) :
    ∃ k, k < i ∧ i ≤ k + 3 ∧ ∃ s', firstParent i s = .ok (⟨revName i, revName k⟩, s') := by
  obtain ⟨k, hk, s', hindex⟩ := Draw.exists_index? (show 0 < min i 3 by omega) s
  refine ⟨i - (k + 1), by omega, by omega, s', ?_⟩
  rw [firstParent, hindex]
  exact if_pos (by omega)

theorem secondParent_eq_ok {s : σ} {second : Option ParentEdge × σ}
    (h : secondParent shape i s = .ok second) :
    (1 < i → shape.mergeRatio.isNaN = false) ∧
      (second.1 = none ∨ ∃ l, l + 2 ≤ i ∧ second.1 = some ⟨revName i, revName l⟩) := by
  unfold secondParent at h
  split_ifs at h with hi
  · obtain ⟨⟨merged, s'⟩, htoss, h⟩ := bind_eq_ok_iff.mp h
    refine ⟨fun _ => isNaN_eq_false_of_toss htoss, ?_⟩
    dsimp only at h
    split_ifs at h with hmerged
    · obtain ⟨l, hl, s'', hindex⟩ := Draw.exists_index? (show 0 < i - 1 by omega) s'
      rw [hindex] at h
      cases h
      exact Or.inr ⟨l, by omega, rfl⟩
    · cases h
      exact Or.inl rfl
  · cases h
    exact ⟨fun hlt => absurd hlt hi, Or.inl rfl⟩

theorem secondParent_eq_error {s : σ} (h : secondParent shape i s = .error fault) :
    fault = .ratioNotANumber ∧ 1 < i ∧ shape.mergeRatio.isNaN = true := by
  unfold secondParent at h
  split_ifs at h with hi
  · rcases bind_eq_error_iff.mp h with htoss | ⟨⟨merged, s'⟩, -, h⟩
    · obtain ⟨hfault, hnan⟩ := toss_eq_error htoss
      exact ⟨hfault, hi, hnan⟩
    · dsimp only at h
      split_ifs at h
      · -- there is a revision below the one just before
        obtain ⟨l, -, s'', hindex⟩ := Draw.exists_index? (show 0 < i - 1 by omega) s'
        rw [hindex] at h
        cases h
      · cases h
  · cases h

/-! ### The next revision -/

/-- The time of the next revision lies one gap later, if there is such a time. -/
theorem exists_nextTime_eq (shape : RandomShape) (t : Instant) (s : σ) :
    ∃ gap, 1 ≤ gap ∧ gap ≤ shape.maxGapSeconds ∧ ∃ s', nextTime shape t s =
      require .timeOutOfRange (t.after? gap) >>= fun t' => .ok (t', s') := by
  obtain ⟨gap, hone, hle, s', hgap⟩ := Draw.exists_gap? shape.maxGapSeconds_pos s
  obtain ⟨d, hd, hnanos⟩ := shape.exists_ofSeconds? hle
  refine ⟨gap, hone, hle, s', ?_⟩
  rw [← Instant.plus?_eq_after? hnanos, nextTime, hgap, require_some, ok_bind]
  dsimp only
  rw [hd, require_some, ok_bind]
  rfl

theorem nextTime_eq_ok {t : Instant} {s : σ} {next : Instant × σ}
    (h : nextTime shape t s = .ok next) :
    ∃ gap, 1 ≤ gap ∧ gap ≤ shape.maxGapSeconds ∧ t.after? gap = some next.1 := by
  obtain ⟨gap, hone, hle, s', heq⟩ := exists_nextTime_eq shape t s
  rw [heq] at h
  obtain ⟨t', hafter, h⟩ := bind_eq_ok_iff.mp h
  cases h
  exact ⟨gap, hone, hle, require_eq_ok_iff.mp hafter⟩

theorem link_eq_ok (h : link shape i g = .ok g') :
    (1 < i → shape.mergeRatio.isNaN = false) ∧
      (∃ links, IsLinked i links ∧ g'.parents.toList = g.parents.toList ++ links) ∧
      Elapses shape i g.time g'.time ∧ g'.points = g.points := by
  unfold link at h
  dsimp only at h
  split_ifs at h with hi
  · cases h
    exact ⟨by omega, ⟨[], .root hi, (List.append_nil _).symm⟩, .first hi, rfl⟩
  · have hpos := Nat.pos_of_ne_zero hi
    obtain ⟨k, hk, hk3, s, hfirst⟩ := exists_firstParent hpos g.source
    rw [hfirst, ok_bind] at h
    obtain ⟨⟨second, s'⟩, hsecond, h⟩ := bind_eq_ok_iff.mp h
    obtain ⟨⟨time, s''⟩, htime, h⟩ := bind_eq_ok_iff.mp h
    cases h
    obtain ⟨hratio, hsecond⟩ := secondParent_eq_ok hsecond
    obtain ⟨gap, hone, hle, hafter⟩ := nextTime_eq_ok htime
    refine ⟨hratio, ?_, .later hpos hone hle hafter, rfl⟩
    dsimp only at hsecond ⊢
    rcases hsecond with rfl | ⟨l, hl, rfl⟩
    · exact ⟨_, .single hk hk3, by simp⟩
    · exact ⟨_, .merge hk hk3 hl, by simp⟩

/-- The coin says whether there is a point. -/
theorem measure_eq_ok (h : measure shape i g = .ok g') :
    ∃ (s : σ) (measured : Bool) (s' : σ), toss shape.measuredRatio s = .ok (measured, s') ∧
      g'.parents = g.parents ∧ g'.time = g.time ∧
      g'.points.toList = g.points.toList ++
        if measured then [⟨"random", revName i, g'.time, g'.value⟩] else [] := by
  unfold measure at h
  dsimp only at h
  obtain ⟨⟨measured, s'⟩, htoss, h⟩ := bind_eq_ok_iff.mp h
  refine ⟨_, measured, s', htoss, ?_⟩
  dsimp only at h
  split_ifs at h ⊢ with hmeasured
  · cases h
    exact ⟨rfl, rfl, Array.toList_push⟩
  · cases h
    exact ⟨rfl, rfl, (List.append_nil _).symm⟩

theorem records_append {t : Instant} {points : List Point} (measured : Bool) (value : Float) :
    Records i t points
      (points ++ if measured then [⟨"random", revName i, t, value⟩] else []) := by
  cases measured with
  | false =>
    rw [if_neg Bool.false_ne_true, List.append_nil]
    exact .unmeasured
  | true => exact .measured value

/-- The next revision adds its links and perhaps a point, at its time. -/
theorem adds_of_grow (h : grow shape g i = .ok g') : Adds shape i g g' := by
  obtain ⟨linked, hlink, hmeasure⟩ := bind_eq_ok_iff.mp h
  obtain ⟨hmerge, hlinks, htime, hpoints⟩ := link_eq_ok hlink
  obtain ⟨s, measured, s', htoss, hparents', htime', hpoints'⟩ := measure_eq_ok hmeasure
  refine ⟨isNaN_eq_false_of_toss htoss, hmerge, ?_, ?_, ?_⟩
  · rw [hparents']
    exact hlinks
  · rw [htime']
    exact htime
  · rw [hpoints', hpoints]
    exact records_append measured g'.value

theorem nextTime_eq_error {t : Instant} {s : σ} (h : nextTime shape t s = .error fault) :
    fault = .timeOutOfRange ∧ ∃ gap ≤ shape.maxGapSeconds, t.after? gap = none := by
  obtain ⟨gap, -, hle, s', heq⟩ := exists_nextTime_eq shape t s
  rw [heq] at h
  rcases bind_eq_error_iff.mp h with hnone | ⟨t', -, h⟩
  · obtain ⟨hnone, hfault⟩ := require_eq_error_iff.mp hnone
    exact ⟨hfault.symm, gap, hle, hnone⟩
  · cases h

theorem fails_of_link (h : link shape i g = .error fault) : Fails shape i g.time fault := by
  unfold link at h
  dsimp only at h
  split_ifs at h with hi
  have hpos := Nat.pos_of_ne_zero hi
  obtain ⟨k, -, -, s, hfirst⟩ := exists_firstParent hpos g.source
  rw [hfirst, ok_bind] at h
  rcases bind_eq_error_iff.mp h with hsecond | ⟨⟨second, s'⟩, -, h⟩
  · obtain ⟨rfl, hlt, hnan⟩ := secondParent_eq_error hsecond
    exact .merge hlt hnan
  · rcases bind_eq_error_iff.mp h with htime | ⟨next, -, h⟩
    · obtain ⟨rfl, gap, hgap, hnone⟩ := nextTime_eq_error htime
      exact .late hpos hgap hnone
    · cases h

theorem measure_eq_error (h : measure shape i g = .error fault) :
    fault = .ratioNotANumber ∧ shape.measuredRatio.isNaN = true := by
  unfold measure at h
  dsimp only at h
  rcases bind_eq_error_iff.mp h with htoss | ⟨⟨measured, s⟩, -, h⟩
  · exact toss_eq_error htoss
  · dsimp only at h
    split_ifs at h
    · cases h
    · cases h

/-- The next revision can be added unless a ratio that is looked at is not a number or the time runs
out. -/
theorem fails_of_grow (h : grow shape g i = .error fault) : Fails shape i g.time fault := by
  rcases bind_eq_error_iff.mp h with hlink | ⟨linked, -, hmeasure⟩
  · exact fails_of_link hlink
  · obtain ⟨rfl, hnan⟩ := measure_eq_error hmeasure
    exact .measured hnan

/-! ### All revisions -/

/-- A random history under way after its first `n` revisions. -/
def grown (shape : RandomShape) (source : σ) (n : ℕ) : Except GrowthFault (Growth σ) :=
  (List.range n).foldlM (grow shape) (seedling shape source)

theorem grown_succ (n : ℕ) :
    grown shape source (n + 1) = grown shape source n >>= fun g => grow shape g n := by
  rw [grown, List.range_succ, List.foldlM_append]
  simp only [List.foldlM_cons, List.foldlM_nil, bind_pure]
  rfl

theorem grown_succ_eq_ok_iff {n : ℕ} :
    grown shape source (n + 1) = .ok g' ↔
      ∃ g, grown shape source n = .ok g ∧ grow shape g n = .ok g' := by
  rw [grown_succ, bind_eq_ok_iff]

/-- If some number of revisions cannot be added, one of them is the first that cannot. -/
theorem exists_fails_of_grown {n : ℕ} (h : grown shape source n = .error fault) :
    ∃ k < n, ∃ g, grown shape source k = .ok g ∧ Fails shape k g.time fault := by
  induction n with
  | zero => cases h
  | succ n ih =>
    rw [grown_succ] at h
    rcases bind_eq_error_iff.mp h with hbefore | ⟨g, hg, hgrow⟩
    · obtain ⟨k, hk, hfails⟩ := ih hbefore
      exact ⟨k, hk.trans (Nat.lt_succ_self n), hfails⟩
    · exact ⟨n, Nat.lt_succ_self n, g, hg, fails_of_grow hgrow⟩

/-- What holds at first and is kept by every revision holds after any number of revisions. -/
theorem grown_induction {P : ℕ → Growth σ → Prop} (hzero : P 0 (seedling shape source))
    (hsucc : ∀ n g g', P n g → grow shape g n = .ok g' → P (n + 1) g') {n : ℕ}
    (h : grown shape source n = .ok g) : P n g := by
  induction n generalizing g with
  | zero =>
    cases h
    exact hzero
  | succ n ih =>
    obtain ⟨before, hbefore, hgrow⟩ := grown_succ_eq_ok_iff.mp h
    exact hsucc n before g (ih hbefore) hgrow

/-- A history of more revisions begins with any number of them. -/
theorem exists_grown_isPrefix {n m : ℕ} (hnm : n ≤ m) (h : grown shape source m = .ok g') :
    ∃ g, grown shape source n = .ok g ∧ g.points.toList <+: g'.points.toList ∧
      g.parents.toList <+: g'.parents.toList := by
  induction m, hnm using Nat.le_induction generalizing g' with
  | base => exact ⟨g', h, List.prefix_refl _, List.prefix_refl _⟩
  | succ m _ ih =>
    obtain ⟨before, hbefore, hgrow⟩ := grown_succ_eq_ok_iff.mp h
    obtain ⟨g, hg, hpoints, hparents⟩ := ih hbefore
    obtain ⟨hpoints', hparents'⟩ := (adds_of_grow hgrow).isPrefix
    exact ⟨g, hg, hpoints.trans hpoints', hparents.trans hparents'⟩

end Growth

namespace History

variable {σ : Type} [WordSource σ]

theorem drawn_eq_ok_iff {shape : RandomShape} {source : σ} {h : History} :
    drawn shape source = .ok h ↔
      ∃ g, Growth.grown shape source shape.revisions = .ok g ∧ g.history = h := by
  have heq : drawn shape source =
      (Growth.grown shape source shape.revisions).map Growth.history := rfl
  rw [heq]
  cases Growth.grown shape source shape.revisions with
  | error fault => simp [Except.map]
  | ok g => simp [Except.map]

theorem drawn_eq_error_iff {shape : RandomShape} {source : σ} {fault : GrowthFault} :
    drawn shape source = .error fault ↔
      Growth.grown shape source shape.revisions = .error fault := by
  have heq : drawn shape source =
      (Growth.grown shape source shape.revisions).map Growth.history := rfl
  rw [heq]
  cases Growth.grown shape source shape.revisions with
  | error fault' => simp [Except.map]
  | ok g => simp [Except.map]

/-- **Length**: where a history of some length can be drawn from a stream of words, a shorter one of
the same shape can be drawn from it as well, and is its beginning: the points of the shorter one are
the first points of the longer one, and the parents are the first parents. -/
theorem drawn_isPrefix (shape : RandomShape) (source : σ) {n : ℕ} (hn : n ≤ shape.revisions)
    {h : History} (hdrawn : drawn shape source = .ok h) :
    ∃ shorter, drawn { shape with revisions := n } source = .ok shorter ∧
      shorter.points <+: h.points ∧ shorter.parents <+: h.parents := by
  obtain ⟨g', hg', rfl⟩ := drawn_eq_ok_iff.mp hdrawn
  obtain ⟨g, hg, hpoints, hparents⟩ := Growth.exists_grown_isPrefix hn hg'
  exact ⟨g.history, drawn_eq_ok_iff.mpr ⟨g, hg, rfl⟩, hpoints, hparents⟩

/-- Three revisions, the last of them with two parents. -/
def merged : RandomShape :=
  { RandomShape.standard with revisions := 3, mergeRatio := 1.0 }

theorem exists_random_merged : ∃ h, random 7 merged = .ok h := by
  have hok : (random 7 merged).isOk = true := by decide +kernel
  cases hrandom : random 7 merged with
  | ok h => exact ⟨h, rfl⟩
  | error fault =>
    rw [hrandom] at hok
    cases hok

/-- The first two revisions are drawn alike. -/
theorem drawn_isPrefix_merged :
    ∃ h shorter, random 7 merged = .ok h ∧ 2 ≤ merged.revisions ∧
      random 7 { merged with revisions := 2 } = .ok shorter ∧
      shorter.points <+: h.points ∧ shorter.parents <+: h.parents := by
  obtain ⟨h, hrandom⟩ := exists_random_merged
  have hn : 2 ≤ merged.revisions := by decide
  obtain ⟨shorter, hshorter, hpoints, hparents⟩ :=
    drawn_isPrefix merged (ChaCha.ofSeed 7) hn hrandom
  exact ⟨h, shorter, hrandom, hn, hshorter, hpoints, hparents⟩

end History

end MetricHistory
