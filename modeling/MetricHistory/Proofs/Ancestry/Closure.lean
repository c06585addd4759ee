import MetricHistory.Proofs.Ancestry.NearestAncestors

/-!
# Minimal edges keep the ancestry

Where no cycle runs through unmeasured revisions only, the minimal edges are exactly the pairs of a
measured revision and a nearest measured ancestor of it (`History.mem_minimalEdges_iff`), and a path
of parent steps between measured revisions is a path of minimal edges taken backwards
(`History.transGen_stepsTo_iff`).

A path of steps is cut where it passes a measured revision: what comes before the first cut leads to
a nearest ancestor (`History.exists_nearestAncestor`).  The way back needs no condition, since every
minimal edge stands for a path of steps.
-/

namespace MetricHistory.History

open Relation

/-! ### Hidden cycles -/

/-- A step from an unmeasured revision to an unmeasured one. -/
def UnmeasuredStep (h : History) (child parent : String) : Prop :=
  h.StepsTo child parent ∧ ¬ h.IsMeasured child ∧ ¬ h.IsMeasured parent

/-- No cycle runs through unmeasured revisions only. -/
def NoUnmeasuredCycle (h : History) : Prop :=
  ∀ u, ¬ TransGen h.UnmeasuredStep u u

theorem transGen_unmeasuredStep {h : History} {u v : String} (hpath : TransGen h.HiddenStep u v)
    (hu : ¬ h.IsMeasured u) : TransGen h.UnmeasuredStep u v := by
  induction hpath using TransGen.head_induction_on with
  | single hstep => exact .single ⟨hstep.1, hu, hstep.2⟩
  | head hstep _ ih => exact .head ⟨hstep.1, hu, hstep.2⟩ (ih hstep.2)

theorem NoUnmeasuredCycle.noHiddenCycle {h : History} (hc : h.NoUnmeasuredCycle) (rev : String) :
    h.NoHiddenCycle rev := by
  intro u _ hcycle
  -- the last step of the cycle ends in `u`, so that `u` is unmeasured
  obtain ⟨_, _, hlast⟩ := TransGen.tail'_iff.mp hcycle
  exact hc u (transGen_unmeasuredStep hcycle hlast.2)

/-- There is no such cycle if steps between unmeasured revisions always lead down. -/
theorem noUnmeasuredCycle_of_rank {h : History} (rank : String → Nat)
    (hrank : ∀ e ∈ h.parents, ¬ h.IsMeasured e.child → ¬ h.IsMeasured e.parent →
      rank e.parent < rank e.child) : h.NoUnmeasuredCycle := by
  have hdown : ∀ {u v}, TransGen h.UnmeasuredStep u v → rank v < rank u := by
    intro u v hpath
    induction hpath with
    | single hstep => exact hrank _ hstep.1 hstep.2.1 hstep.2.2
    | tail _ hstep ih => exact Nat.lt_trans (hrank _ hstep.1 hstep.2.1 hstep.2.2) ih
  intro u hcycle
  exact Nat.lt_irrefl _ (hdown hcycle)

/-! ### Minimal edges -/

theorem mem_minimalEdges_of_nearestAncestor {h : History} {m c : String} (hc : h.IsMeasured c)
    (hclear : h.NoHiddenCycle c) (hm : h.NearestAncestor c m) : ⟨m, c⟩ ∈ h.minimalEdges := by
  obtain ⟨point, hpoint, rfl⟩ := hc
  obtain ⟨i, hi, rfl⟩ := List.mem_iff_getElem.mp hpoint
  have hblocks := h.exists_gathers_minimalBlocks
  have hi' : i < h.minimalBlocks.length := hblocks.length_eq ▸ hi
  obtain ⟨ancestors, hblock, hg⟩ := hblocks.get hi hi'
  rw [List.get_eq_getElem, List.get_eq_getElem] at hblock
  obtain ⟨p, hp, hcounts⟩ := nearestAncestor_iff.mp hm
  have hfound : m ∈ ancestors := hg.complete hclear p hp m hcounts
  refine List.mem_flatten.mpr ⟨h.minimalBlocks[i], List.getElem_mem hi', ?_⟩
  rw [hblock]
  exact List.mem_map_of_mem hfound

/-- Where no hidden cycle is reached, minimal edges lead from all nearest measured ancestors. -/
theorem mem_minimalEdges_iff {h : History} {m c : String} (hclear : h.NoHiddenCycle c) :
    ⟨m, c⟩ ∈ h.minimalEdges ↔ h.IsMeasured c ∧ h.NearestAncestor c m := by
  constructor
  · exact nearestAncestor_of_mem_minimalEdges
  · rintro ⟨hc, hm⟩
    exact mem_minimalEdges_of_nearestAncestor hc hclear hm

/-- A minimal edge leads from `parent` to `child`. -/
def MinimalStep (h : History) (parent child : String) : Prop :=
  ⟨parent, child⟩ ∈ h.minimalEdges

/-! ### Paths -/

theorem NearestAncestor.transGen {h : History} {rev m : String} (hm : h.NearestAncestor rev m) :
    TransGen h.StepsTo rev m := by
  obtain ⟨-, last, hpath, hstep⟩ := hm
  have hsteps : ReflTransGen h.StepsTo rev last :=
    ReflTransGen.mono (fun _ _ hhidden => hhidden.1) _ _ hpath
  exact TransGen.tail' hsteps hstep

theorem NearestAncestor.head {h : History} {rev parent m : String} (hstep : h.HiddenStep rev parent)
    (hm : h.NearestAncestor parent m) : h.NearestAncestor rev m := by
  obtain ⟨hmeasured, last, hpath, hlast⟩ := hm
  exact ⟨hmeasured, last, hpath.head hstep, hlast⟩

/-- A path of steps to a measured revision passes a nearest ancestor, to which minimal edges lead
from its end. -/
theorem exists_nearestAncestor {h : History} (hc : h.NoUnmeasuredCycle) {rev a : String}
    (ha : h.IsMeasured a) (hpath : TransGen h.StepsTo rev a) :
    ∃ m, h.NearestAncestor rev m ∧ ReflTransGen h.MinimalStep a m := by
  induction hpath using TransGen.head_induction_on with
  | single hstep => exact ⟨a, ⟨ha, _, .refl, hstep⟩, .refl⟩
  | @head rev parent hstep _ ih =>
    obtain ⟨m, hm, hback⟩ := ih
    by_cases hparent : h.IsMeasured parent
    · -- the path is cut at the parent
      have hedge : h.MinimalStep m parent :=
        mem_minimalEdges_of_nearestAncestor hparent (hc.noHiddenCycle parent) hm
      exact ⟨parent, ⟨hparent, rev, .refl, hstep⟩, hback.tail hedge⟩
    · exact ⟨m, hm.head ⟨hstep, hparent⟩, hback⟩

/-- **Ancestry**: where no cycle runs through unmeasured revisions only, a measured revision is
reached from another by parent steps, through whatever revisions, exactly if minimal edges lead the
other way. -/
theorem transGen_stepsTo_iff (h : History) (hc : h.NoUnmeasuredCycle) {a c : String}
    (ha : h.IsMeasured a) (hmeasured : h.IsMeasured c) :
    TransGen h.StepsTo c a ↔ TransGen h.MinimalStep a c := by
  constructor
  · intro hpath
    obtain ⟨m, hm, hback⟩ := exists_nearestAncestor hc ha hpath
    have hedge : h.MinimalStep m c :=
      mem_minimalEdges_of_nearestAncestor hmeasured (hc.noHiddenCycle c) hm
    exact TransGen.tail' hback hedge
  · intro hedges
    induction hedges with
    | single hedge => exact (nearestAncestor_of_mem_minimalEdges hedge).2.transGen
    | tail _ hedge ih =>
      have hm := (nearestAncestor_of_mem_minimalEdges hedge).2
      exact hm.transGen.trans (ih hm.isMeasured)

/-- Two measured revisions on one cycle, with two unmeasured ones on one side of it. -/
def ring : History :=
  { points := [⟨"", "A", .epoch, 0⟩, ⟨"", "C", .epoch, 0⟩]
    parents := [⟨"C", "X"⟩, ⟨"X", "Y"⟩, ⟨"Y", "A"⟩, ⟨"A", "C"⟩] }

theorem noUnmeasuredCycle_ring : ring.NoUnmeasuredCycle :=
  noUnmeasuredCycle_of_rank (fun rev => if rev = "X" then 1 else 0) (by decide)

/-- The way through the two unmeasured revisions is one of minimal edges. -/
theorem transGen_minimalStep_ring :
    ring.NoUnmeasuredCycle ∧ ring.IsMeasured "A" ∧ ring.IsMeasured "C" ∧
      TransGen ring.StepsTo "C" "A" ∧ TransGen ring.MinimalStep "A" "C" := by
  have hA : ring.IsMeasured "A" := by decide
  have hC : ring.IsMeasured "C" := by decide
  have hpath : TransGen ring.StepsTo "C" "A" := by
    have hCX : ring.StepsTo "C" "X" := by simp [StepsTo, ring]
    have hXY : ring.StepsTo "X" "Y" := by simp [StepsTo, ring]
    have hYA : ring.StepsTo "Y" "A" := by simp [StepsTo, ring]
    exact ((TransGen.single hCX).tail hXY).tail hYA
  exact ⟨noUnmeasuredCycle_ring, hA, hC, hpath,
    (transGen_stepsTo_iff ring noUnmeasuredCycle_ring hA hC).mp hpath⟩

end MetricHistory.History
