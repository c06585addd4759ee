import MetricHistory.Proofs.Ancestry.Closure
import MetricHistory.Proofs.Component.Naming
import MetricHistory.Proofs.Sample.Growth

/-!
# Random histories run forward

The revisions of a random history are numbered as they are made.  Parents have smaller numbers than
their children, so that there is no cycle, and points are listed by their numbers.  Between two
revisions there pass at least as many seconds as gaps lie between them, and at most that many of the
longest gaps.

* `Growth.GapsApart`: the time that some gaps take.
* `Growth.Descends`: from a revision to one with a smaller number.
* `Growth.Precedes`: two points in the order of their revisions, with the time between them.
* `Growth.Chronicled`: what every revision keeps; `Growth.Chronicled.add`: that it is kept.
* `History.drawn_chronicled`: the order of a random history.
-/

namespace MetricHistory

open Relation

namespace Growth

/-! ### The time that gaps take -/

/-- From `a` to `b` there pass as many whole seconds as `k` gaps can take. -/
structure GapsApart (shape : RandomShape) (k : ℕ) (a b : Instant) : Prop where
  nano_eq : b.nano = a.nano
  least : a.second + k ≤ b.second
  most : b.second ≤ a.second + k * shape.maxGapSeconds

namespace GapsApart

variable {shape : RandomShape} {k l : ℕ} {a b c : Instant}

theorem refl (a : Instant) : GapsApart shape 0 a a :=
  ⟨rfl, by omega, by omega⟩

theorem trans (hab : GapsApart shape k a b) (hbc : GapsApart shape l b c) :
    GapsApart shape (k + l) a c where
  nano_eq := hbc.nano_eq.trans hab.nano_eq
  least := by
    have := hab.least
    have := hbc.least
    omega
  most := by
    have := hab.most
    have := hbc.most
    push_cast
    linarith

theorem lt (h : GapsApart shape k a b) (hk : 0 < k) : a < b := by
  have := h.least
  rw [Instant.lt_iff]
  omega

theorem isLeap_eq (h : GapsApart shape k a b) : b.isLeap = a.isLeap := by
  rw [Instant.isLeap, Instant.isLeap, h.nano_eq]

end GapsApart

variable {shape : RandomShape} {i n : ℕ}

/-- From one revision to the next there passes one gap. -/
theorem Elapses.gapsApart {t t' : Instant} (h : Elapses shape i t t') (hi : 0 < i)
    (hleap : t.isLeap = false) : GapsApart shape 1 t t' := by
  cases h with
  | first hzero => exact absurd hzero hi.ne'
  | later _ hgap hgap' hafter =>
    have hsecond := Instant.second_after? hafter
    exact ⟨Instant.nano_after? hafter hleap, by omega, by omega⟩

theorem Elapses.eq_of_zero {t t' : Instant} (h : Elapses shape 0 t t') : t' = t := by
  cases h with
  | first => rfl
  | later hpos => exact absurd hpos (Nat.lt_irrefl 0)

/-! ### Numbers of revisions -/

theorem revName_injective : Function.Injective revName := by
  intro i j h
  have hlist := congrArg String.toList h
  rw [revName, revName, String.toList_append, String.toList_append] at hlist
  exact Partition.repr_inj (List.append_cancel_left hlist)

/-- The parent has a smaller number than the child. -/
def Descends (child parent : String) : Prop :=
  ∃ i j, i < j ∧ parent = revName i ∧ child = revName j

theorem Descends.trans {a b c : String} (hab : Descends a b) (hbc : Descends b c) :
    Descends a c := by
  obtain ⟨j, k, hjk, rfl, rfl⟩ := hab
  obtain ⟨i, j', hij, rfl, hj⟩ := hbc
  obtain rfl := revName_injective hj
  exact ⟨i, k, hij.trans hjk, rfl, rfl⟩

theorem not_descends_self (rev : String) : ¬ Descends rev rev := by
  rintro ⟨i, j, hij, hi, hj⟩
  exact hij.ne (revName_injective (hi.symm.trans hj))

theorem IsLinked.descends {links : List ParentEdge} (h : IsLinked i links) {e : ParentEdge}
    (he : e ∈ links) : Descends e.child e.parent := by
  cases h with
  | root => cases he
  | single hk =>
    obtain rfl := List.mem_singleton.mp he
    exact ⟨_, _, hk, rfl, rfl⟩
  | merge hk _ hl =>
    rcases List.mem_cons.mp he with rfl | he
    · exact ⟨_, _, hk, rfl, rfl⟩
    · obtain rfl := List.mem_singleton.mp he
      exact ⟨_, _, by omega, rfl, rfl⟩

/-- The revision of `p` was made before that of `q`, by as many gaps as their numbers say. -/
def Precedes (shape : RandomShape) (p q : Point) : Prop :=
  ∃ i j, i < j ∧ p.revId = revName i ∧ q.revId = revName j ∧ GapsApart shape (j - i) p.time q.time

/-! ### What every revision keeps -/

variable {σ : Type} {g g' : Growth σ}

/-- What holds of a random history after its first `n` revisions. -/
structure Chronicled (shape : RandomShape) (n : ℕ) (g : Growth σ) : Prop where
  time : GapsApart shape (n - 1) shape.start g.time
  parents : ∃ blocks, List.Forall₂ IsLinked (List.range n) blocks ∧
    g.parents.toList = blocks.flatten
  numbered : ∀ p ∈ g.points.toList, ∃ i < n, p.revId = revName i ∧
    GapsApart shape (n - 1 - i) p.time g.time
  ordered : g.points.toList.Pairwise (Precedes shape)

theorem chronicled_seedling (shape : RandomShape) (source : σ) :
    Chronicled shape 0 (seedling shape source) where
  time := .refl _
  parents := ⟨[], .nil, rfl⟩
  numbered := by simp [seedling]
  ordered := .nil

/-- The points so far precede what is recorded with the next revision. -/
theorem Records.chronicled {t' : Instant} {points points' : List Point}
    (h : Records n t' points points')
    (hnumbered : ∀ p ∈ points, ∃ i < n, p.revId = revName i ∧ GapsApart shape (n - i) p.time t')
    (hordered : points.Pairwise (Precedes shape)) :
    (∀ p ∈ points', ∃ i < n + 1, p.revId = revName i ∧ GapsApart shape (n - i) p.time t') ∧
      points'.Pairwise (Precedes shape) := by
  have hold : ∀ p ∈ points, ∃ i < n + 1, p.revId = revName i ∧
      GapsApart shape (n - i) p.time t' := by
    intro p hp
    obtain ⟨i, hi, hrev, hgaps⟩ := hnumbered p hp
    exact ⟨i, by omega, hrev, hgaps⟩
  cases h with
  | unmeasured => exact ⟨hold, hordered⟩
  | measured value =>
    constructor
    · intro p hp
      rcases List.mem_append.mp hp with hp | hp
      · exact hold p hp
      · obtain rfl := List.mem_singleton.mp hp
        refine ⟨n, Nat.lt_succ_self n, rfl, ?_⟩
        rw [Nat.sub_self]
        exact .refl _
    · rw [List.pairwise_append]
      refine ⟨hordered, List.pairwise_singleton _ _, ?_⟩
      intro p hp q hq
      obtain ⟨i, hi, hrev, hgaps⟩ := hnumbered p hp
      obtain rfl := List.mem_singleton.mp hq
      exact ⟨i, n, hi, hrev, rfl, hgaps⟩

/-- Another revision keeps the order. -/
theorem Chronicled.add (hstart : shape.start.isLeap = false) (h : Chronicled shape n g)
    (hadds : Adds shape n g g') : Chronicled shape (n + 1) g' := by
  have hgap : 0 < n → GapsApart shape 1 g.time g'.time := fun hn =>
    hadds.time.gapsApart hn (h.time.isLeap_eq.trans hstart)
  -- what was recorded lies one more gap back
  have hreach : ∀ p ∈ g.points.toList, ∃ i < n, p.revId = revName i ∧
      GapsApart shape (n - i) p.time g'.time := by
    intro p hp
    obtain ⟨i, hi, hrev, hgaps⟩ := h.numbered p hp
    refine ⟨i, hi, hrev, ?_⟩
    rw [show n - i = n - 1 - i + 1 by omega]
    exact hgaps.trans (hgap (by omega))
  obtain ⟨hnumbered, hordered⟩ := hadds.points.chronicled hreach h.ordered
  refine ⟨?_, ?_, hnumbered, hordered⟩
  · rcases Nat.eq_zero_or_pos n with rfl | hn
    · rw [hadds.time.eq_of_zero]
      exact h.time
    · rw [show n + 1 - 1 = n - 1 + 1 by omega]
      exact h.time.trans (hgap hn)
  · obtain ⟨blocks, hblocks, hparents⟩ := h.parents
    obtain ⟨links, hlinks, hparents'⟩ := hadds.parents
    refine ⟨blocks ++ [links], ?_, ?_⟩
    · rw [List.range_succ]
      exact List.rel_append hblocks (.cons hlinks .nil)
    · rw [hparents', hparents, List.flatten_append, List.flatten_singleton]

/-- Every history is in order after any number of revisions. -/
theorem chronicled_of_grown [WordSource σ] {source : σ} (hstart : shape.start.isLeap = false)
    (h : grown shape source n = .ok g) : Chronicled shape n g :=
  grown_induction (chronicled_seedling shape source)
    (fun _ _ _ hbefore hgrow => hbefore.add hstart (adds_of_grow hgrow)) h

/-- Every edge leads to a revision with a smaller number. -/
theorem Chronicled.descends (h : Chronicled shape n g) {e : ParentEdge}
    (he : e ∈ g.parents.toList) : Descends e.child e.parent := by
  obtain ⟨blocks, hblocks, hparents⟩ := h.parents
  rw [hparents] at he
  obtain ⟨links, hlinks, he⟩ := List.mem_flatten.mp he
  obtain ⟨k, hk, rfl⟩ := List.mem_iff_getElem.mp hlinks
  exact (hblocks.get (hblocks.length_eq ▸ hk) hk).descends he

/-! ### Points in order -/

variable {p q : Point}

theorem Precedes.lt (h : Precedes shape p q) : p.time < q.time := by
  obtain ⟨i, j, hij, -, -, hgaps⟩ := h
  exact hgaps.lt (Nat.sub_pos_of_lt hij)

theorem Precedes.descends (h : Precedes shape p q) : Descends q.revId p.revId := by
  obtain ⟨i, j, hij, hp, hq, -⟩ := h
  exact ⟨i, j, hij, hp, hq⟩

/-- Of two points the one whose revision has the smaller number comes first. -/
theorem Descends.time_lt {points : List Point} (hordered : points.Pairwise (Precedes shape))
    (hp : p ∈ points) (hq : q ∈ points) (h : Descends q.revId p.revId) : p.time < q.time := by
  obtain ⟨a, ha, rfl⟩ := List.mem_iff_getElem.mp hp
  obtain ⟨b, hb, rfl⟩ := List.mem_iff_getElem.mp hq
  have hall := List.pairwise_iff_getElem.mp hordered
  rcases Nat.lt_trichotomy a b with hab | rfl | hba
  · exact (hall a b ha hb hab).lt
  · exact absurd h (not_descends_self _)
  · have hback := (hall b a hb ha hba).descends
    exact absurd (h.trans hback) (not_descends_self _)

end Growth

namespace History

variable {shape : RandomShape} {h : History}

/-- Where the edges lead to smaller numbers, so does every path. -/
theorem descends_of_transGen (hparents : ∀ e ∈ h.parents, Growth.Descends e.child e.parent)
    {u v : String} (hpath : TransGen h.StepsTo u v) : Growth.Descends u v := by
  induction hpath with
  | single hstep => exact hparents _ hstep
  | tail _ hstep ih => exact ih.trans (hparents _ hstep)

/-- Minimal edges lead from earlier points to later ones, if points are in the order of their
revisions. -/
theorem exists_lt_of_mem_minimalEdges (hparents : ∀ e ∈ h.parents, Growth.Descends e.child e.parent)
    (hordered : h.points.Pairwise (Growth.Precedes shape)) {e : MinimalEdge}
    (he : e ∈ h.minimalEdges) :
    ∃ parent ∈ h.points, ∃ child ∈ h.points,
      parent.revId = e.parent ∧ child.revId = e.child ∧ parent.time < child.time := by
  -- a minimal edge stands for a path of steps, all of which go down
  obtain ⟨⟨child, hchild, hchildRev⟩, hnearest⟩ := nearestAncestor_of_mem_minimalEdges he
  obtain ⟨parent, hparent, hparentRev⟩ := hnearest.isMeasured
  have hdescends := descends_of_transGen hparents hnearest.transGen
  rw [← hchildRev, ← hparentRev] at hdescends
  exact ⟨parent, hparent, child, hchild, hparentRev, hchildRev,
    hdescends.time_lt hordered hparent hchild⟩

variable {σ : Type} [WordSource σ]

/-- **Order**: if the first revision of a random history was not made in a leap second, then the
parents are listed child after child, each child having one or two of them among those that it may
have.  The points are listed by the numbers of their revisions, and the seconds between two points
are at least as many as the numbers lie apart, and at most as many of the longest gaps.  So no
revision is among its own ancestors, and every minimal edge leads forward in time. -/
theorem drawn_chronicled (shape : RandomShape) (source : σ)
    (hstart : shape.start.isLeap = false) {h : History} (hdrawn : drawn shape source = .ok h) :
    (∃ blocks, List.Forall₂ Growth.IsLinked (List.range shape.revisions) blocks ∧
        h.parents = blocks.flatten) ∧
      (∀ p ∈ h.points, ∃ i < shape.revisions, p.revId = Growth.revName i) ∧
      h.points.Pairwise (Growth.Precedes shape) ∧
      (∀ rev, ¬ TransGen h.StepsTo rev rev) ∧
      ∀ e ∈ h.minimalEdges, ∃ parent ∈ h.points, ∃ child ∈ h.points,
        parent.revId = e.parent ∧ child.revId = e.child ∧ parent.time < child.time := by
  obtain ⟨g, hg, rfl⟩ := drawn_eq_ok_iff.mp hdrawn
  have hchron := Growth.chronicled_of_grown hstart hg
  have hdescends : ∀ e ∈ g.history.parents, Growth.Descends e.child e.parent :=
    fun _ he => hchron.descends he
  refine ⟨hchron.parents, ?_, hchron.ordered, ?_, ?_⟩
  · intro p hp
    obtain ⟨i, hi, hrev, -⟩ := hchron.numbered p hp
    exact ⟨i, hi, hrev⟩
  · intro rev hcycle
    exact Growth.not_descends_self rev (descends_of_transGen hdescends hcycle)
  · intro e he
    exact exists_lt_of_mem_minimalEdges hdescends hchron.ordered he

/-- The third revision of a small history has two parents. -/
theorem drawn_chronicled_merged :
    merged.start.isLeap = false ∧ ∃ h, random 7 merged = .ok h ∧
      (∃ blocks, List.Forall₂ Growth.IsLinked (List.range merged.revisions) blocks ∧
        h.parents = blocks.flatten) ∧
      h.points.Pairwise (Growth.Precedes merged) := by
  have hstart : merged.start.isLeap = false := by decide
  obtain ⟨h, hrandom⟩ := exists_random_merged
  obtain ⟨hparents, -, hordered, -⟩ := drawn_chronicled merged (ChaCha.ofSeed 7) hstart hrandom
  exact ⟨hstart, h, hrandom, hparents, hordered⟩

end History

end MetricHistory
