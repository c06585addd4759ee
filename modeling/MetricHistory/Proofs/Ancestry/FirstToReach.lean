import MetricHistory.Proofs.Ancestry.Memo
import MetricHistory.Proofs.Ancestry.NearestAncestors

/-!
# The first point to reach a cycle

A revision on a cycle may be finished without all of its ancestors, since a parent that is still
being resolved counts for nothing.  What it misses is not lost: while the revisions being resolved
are resolved, whatever they come by counts for the lowest of them.  So the first point that reaches
unmeasured revisions has all nearest ancestors beyond them, whatever cycles they form.

* `History.ComesBy`: the parents of the revisions that a course of the recursion finishes.
* `Collected.accountsFor`: all of these were found, are finished, or are being resolved.
* `Surveyed.exists_path_of_memo`: what is finished was reached from a point.
* `History.FirstToReach`: no earlier point reaches an unmeasured revision that this one reaches.
* `History.minimalBlocks_firstToReach`: such a point has edges from all its nearest ancestors.
-/

namespace MetricHistory.History

open Relation

variable {h : History}

/-! ### What a course comes by -/

section Collected

variable {parents found found' : List String} {s s' : Notes}

/-- Collecting from `parents` comes by these and by the parents of what it finishes. -/
def ComesBy (h : History) (parents : List String) (s s' : Notes) (rev : String) : Prop :=
  rev ∈ parents ∨ ∃ u, s.memo u = none ∧ (s'.memo u).isSome ∧ rev ∈ h.parentsOf u

/-- A measured revision was found, and one that is not measured is finished or being resolved. -/
def AccountsFor (h : History) (found : List String) (s s' : Notes) (rev : String) : Prop :=
  if h.IsMeasured rev then rev ∈ found else (s'.memo rev).isSome ∨ rev ∈ s.resolving

/-- What is found stays found. -/
theorem Collected.subset_found (hc : h.Collected parents found s found' s') : found ⊆ found' := by
  induction hc with
  | nil => exact List.Subset.refl _
  | measured _ _ ih => exact fun m hm => ih (mem_appendNew.mpr (Or.inl hm))
  | finished _ _ _ ih => exact fun m hm => ih (mem_appendNew.mpr (Or.inl hm))
  | resolving _ _ _ _ ih => exact ih
  | unvisited _ _ _ _ _ _ ih => exact fun m hm => ih (mem_appendNew.mpr (Or.inl hm))

/-- What is finished stays finished. -/
theorem Collected.isSome_memo (hc : h.Collected parents found s found' s') {rev : String}
    (hrev : (s.memo rev).isSome) : (s'.memo rev).isSome := by
  obtain ⟨ancestors, hmemo⟩ := Option.isSome_iff_exists.mp hrev
  rw [hc.memo_eq hmemo]
  rfl

theorem isSome_memo_closed {rev u : String} {ancestors : List String} :
    ((s.closed rev ancestors).memo u).isSome ↔ u = rev ∨ (s.memo u).isSome := by
  rw [Notes.memo_closed]
  by_cases hu : u = rev
  · subst hu
    simp
  · rw [Function.update_of_ne hu]
    simp [hu]

/-- A revision was finished before another one is closed, is that one, or is still open. -/
theorem memo_closed_cases (s : Notes) (rev : String) (ancestors : List String) (u : String) :
    (s.memo u).isSome ∨ u = rev ∨ (s.closed rev ancestors).memo u = none := by
  rw [← Option.not_isSome_iff_eq_none, isSome_memo_closed]
  tauto

theorem ComesBy.of_cons {parent rev : String} (hrev : h.ComesBy (parent :: parents) s s' rev) :
    rev = parent ∨ h.ComesBy parents s s' rev := by
  rcases hrev with hrev | hrev
  · exact (List.mem_cons.mp hrev).imp_right Or.inl
  · exact Or.inr (Or.inr hrev)

/-- A course of the recursion passes nothing over: all that it comes by was found, is finished, or
was being resolved. -/
theorem Collected.accountsFor (hc : h.Collected parents found s found' s') {rev : String}
    (hrev : h.ComesBy parents s s' rev) : h.AccountsFor found' s s' rev := by
  induction hc generalizing rev with
  | nil found s =>
    rcases hrev with hrev | ⟨u, hnone, hsome, -⟩
    · exact absurd hrev List.not_mem_nil
    · rw [hnone] at hsome
      cases hsome
  | @measured parent parents found found' s s' hm rest ih =>
    rcases hrev.of_cons with rfl | hrev
    · rw [AccountsFor, if_pos hm]
      exact rest.subset_found (mem_appendNew.mpr (Or.inr (List.mem_singleton_self rev)))
    · exact ih hrev
  | @finished parent parents found ancestors found' s s' hm hmemo rest ih =>
    rcases hrev.of_cons with rfl | hrev
    · rw [AccountsFor, if_neg hm, rest.memo_eq hmemo]
      exact Or.inl rfl
    · exact ih hrev
  | @resolving parent parents found found' s s' hm hmemo hres rest ih =>
    rcases hrev.of_cons with rfl | hrev
    · rw [AccountsFor, if_neg hm]
      exact Or.inr hres
    · exact ih hrev
  | @unvisited parent parents found ancestors found' s t s' hm hmemo hres own rest ihown ihrest =>
    have hresolving : (t.closed parent ancestors).resolving = s.resolving := by
      rw [Notes.resolving_closed, own.resolving_eq, Notes.resolving_opened,
        Finset.erase_insert hres]
    have hparent : (s'.memo parent).isSome :=
      rest.isSome_memo (isSome_memo_closed.mpr (Or.inl rfl))
    have hown : h.ComesBy (h.parentsOf parent) (s.opened parent) t rev →
        h.AccountsFor found' s s' rev := by
      intro hrev
      have haccounts := ihown hrev
      unfold AccountsFor at haccounts ⊢
      split_ifs at haccounts ⊢
      · exact rest.subset_found (mem_appendNew.mpr (Or.inr haccounts))
      · rcases haccounts with hdone | hmem
        · exact Or.inl (rest.isSome_memo (isSome_memo_closed.mpr (Or.inr hdone)))
        · rcases Finset.mem_insert.mp hmem with rfl | hmem
          · exact Or.inl hparent
          · exact Or.inr hmem
    have hrest : h.ComesBy parents (t.closed parent ancestors) s' rev →
        h.AccountsFor found' s s' rev := by
      intro hrev
      have haccounts := ihrest hrev
      rwa [AccountsFor, hresolving] at haccounts
    rcases hrev with hrev | ⟨u, hnone, hsome, hu⟩
    · rcases List.mem_cons.mp hrev with rfl | hrev
      · rw [AccountsFor, if_neg hm]
        exact Or.inl hparent
      · exact hrest (Or.inl hrev)
    · rcases memo_closed_cases t parent ancestors u with hdone | rfl | hopen
      · exact hown (Or.inr ⟨u, hnone, hdone, hu⟩)
      · exact hown (Or.inl hu)
      · exact hrest (Or.inr ⟨u, hopen, hsome, hu⟩)

/-- What is finished newly is reached from one of the parents through unmeasured revisions. -/
theorem Collected.exists_path_of_memo (hc : h.Collected parents found s found' s') {u : String}
    (hnone : s.memo u = none) (hsome : (s'.memo u).isSome) :
    ∃ parent ∈ parents, ¬ h.IsMeasured parent ∧ ReflTransGen h.HiddenStep parent u := by
  induction hc with
  | nil =>
    rw [hnone] at hsome
    cases hsome
  | measured _ _ ih =>
    obtain ⟨p, hp, hpath⟩ := ih hnone hsome
    exact ⟨p, List.mem_cons_of_mem _ hp, hpath⟩
  | finished _ _ _ ih =>
    obtain ⟨p, hp, hpath⟩ := ih hnone hsome
    exact ⟨p, List.mem_cons_of_mem _ hp, hpath⟩
  | resolving _ _ _ _ ih =>
    obtain ⟨p, hp, hpath⟩ := ih hnone hsome
    exact ⟨p, List.mem_cons_of_mem _ hp, hpath⟩
  | @unvisited parent parents found ancestors found' s t s' hm _ _ own rest ihown ihrest =>
    rcases memo_closed_cases t parent ancestors u with hdone | rfl | hopen
    · obtain ⟨p, hp, hpm, hpath⟩ := ihown hnone hdone
      exact ⟨parent, List.mem_cons_self, hm, .head ⟨mem_parentsOf.mp hp, hpm⟩ hpath⟩
    · exact ⟨u, List.mem_cons_self, hm, .refl⟩
    · obtain ⟨p, hp, hpath⟩ := ihrest hopen hsome
      exact ⟨p, List.mem_cons_of_mem _ hp, hpath⟩

end Collected

/-! ### What was surveyed before -/

section Surveyed

variable {revs : List String} {lists : List (List String)} {s s' : Notes}

/-- After a survey nothing is being resolved that was not before. -/
theorem Surveyed.resolving_eq (hs : h.Surveyed revs s lists s') (hres : s.resolving = ∅) :
    s'.resolving = ∅ := by
  induction hs with
  | nil => exact hres
  | finished _ _ ih => exact ih hres
  | @unvisited rev _ _ _ _ _ _ _ own _ ih =>
    apply ih
    rw [Notes.resolving_closed, own.resolving_eq, Notes.resolving_opened, hres, insert_empty_eq]
    exact Finset.erase_singleton rev

/-- What is finished newly is reached from one of the revisions surveyed. -/
theorem Surveyed.exists_path_of_memo (hs : h.Surveyed revs s lists s') {u : String}
    (hnone : s.memo u = none) (hsome : (s'.memo u).isSome) :
    ∃ rev ∈ revs, ReflTransGen h.HiddenStep rev u := by
  induction hs with
  | nil =>
    rw [hnone] at hsome
    cases hsome
  | finished _ _ ih =>
    obtain ⟨rev, hrev, hpath⟩ := ih hnone hsome
    exact ⟨rev, List.mem_cons_of_mem _ hrev, hpath⟩
  | @unvisited rev revs ancestors lists s t s' _ own _ ih =>
    rcases memo_closed_cases t rev ancestors u with hdone | rfl | hopen
    · obtain ⟨p, hp, hpm, hpath⟩ := own.exists_path_of_memo hnone hdone
      exact ⟨rev, List.mem_cons_self, .head ⟨mem_parentsOf.mp hp, hpm⟩ hpath⟩
    · exact ⟨u, List.mem_cons_self, .refl⟩
    · obtain ⟨p, hp, hpath⟩ := ih hopen hsome
      exact ⟨p, List.mem_cons_of_mem _ hp, hpath⟩

end Surveyed

/-! ### The first to reach -/

/-- No point with another revision that is listed before the first point of `rev` reaches, through
unmeasured revisions, an unmeasured revision that `rev` reaches in this way. -/
def FirstToReach (h : History) (rev : String) : Prop :=
  ∀ q ∈ (h.points.map (·.revId)).takeWhile (· ≠ rev), ∀ u,
    TransGen h.HiddenStep q u → ¬ TransGen h.HiddenStep rev u

variable {rev m : String} {lists : List (List String)} {s t : Notes}

/-- A path through unmeasured revisions does not lead to a measured one. -/
theorem eq_of_reflTransGen_of_isMeasured {q : String} (hrev : h.IsMeasured rev)
    (hpath : ReflTransGen h.HiddenStep q rev) : q = rev := by
  rcases hpath.cases_tail with heq | ⟨_, -, hstep⟩
  · exact heq.symm
  · exact absurd hrev hstep.2

/-- A measured revision finds all nearest ancestors if nothing that it reaches is finished before:
everything on the way to them is finished while it is being resolved. -/
theorem Collected.mem_of_nearestAncestor {ancestors : List String}
    (own : h.Collected (h.parentsOf rev) [] (s.opened rev) ancestors t) (hrev : h.IsMeasured rev)
    (hres : s.resolving = ∅) (hnone : ∀ u, TransGen h.HiddenStep rev u → s.memo u = none)
    (hm : h.NearestAncestor rev m) : m ∈ ancestors := by
  have hcomes : ∀ u, ReflTransGen h.HiddenStep rev u → ∀ p ∈ h.parentsOf u,
      h.ComesBy (h.parentsOf rev) (s.opened rev) t p := by
    intro u hpath
    induction hpath with
    | refl => exact fun p hp => Or.inl hp
    | @tail u v hpath hstep ih =>
      have haccounts := own.accountsFor (ih v (mem_parentsOf.mpr hstep.1))
      rw [AccountsFor, if_neg hstep.2, Notes.resolving_opened, hres, insert_empty_eq,
        Finset.mem_singleton] at haccounts
      rcases haccounts with hdone | rfl
      · exact fun p hp => Or.inr ⟨v, hnone v (TransGen.tail' hpath hstep), hdone, hp⟩
      · exact absurd hrev hstep.2
  obtain ⟨hmeasured, last, hpath, hstep⟩ := hm
  have haccounts := own.accountsFor (hcomes last hpath m (mem_parentsOf.mpr hstep))
  rwa [AccountsFor, if_pos hmeasured] at haccounts

/-- In a survey of all points the first to reach is finished with all its nearest ancestors. -/
theorem Surveyed.exists_memo_of_firstToReach
    (hs : h.Surveyed (h.points.map (·.revId)) Notes.blank lists s) (hrev : h.IsMeasured rev)
    (hfirst : h.FirstToReach rev) :
    ∃ ancestors, s.memo rev = some ancestors ∧ ∀ m, h.NearestAncestor rev m → m ∈ ancestors := by
  -- the survey up to the first point of `rev`
  obtain ⟨before, after, hrevs, hnot⟩ := List.eq_append_cons_of_mem (isMeasured_iff_mem.mp hrev)
  have hbefore : ∀ q ∈ before, h.IsMeasured q ∧ ∀ u,
      TransGen h.HiddenStep q u → ¬ TransGen h.HiddenStep rev u := by
    intro q hq
    refine ⟨isMeasured_iff_mem.mpr (hrevs ▸ List.mem_append_left _ hq), hfirst q ?_⟩
    have hne : ∀ a ∈ before, decide (a ≠ rev) = true := fun a ha =>
      decide_eq_true fun heq => hnot (heq ▸ ha)
    rw [hrevs, List.takeWhile_append_of_pos hne]
    exact List.mem_append_left _ hq
  rw [hrevs] at hs
  obtain ⟨_, t, _, hearlier, hlater⟩ := hs.exists_append
  have hreached : ∀ u, (t.memo u).isSome → ∃ q ∈ before, ReflTransGen h.HiddenStep q u :=
    fun u hsome => hearlier.exists_path_of_memo rfl hsome
  cases hlater with
  | finished hmemo _ =>
    obtain ⟨q, hq, hpath⟩ := hreached rev (by rw [hmemo]; rfl)
    exact absurd (eq_of_reflTransGen_of_isMeasured hrev hpath ▸ hq) hnot
  | @unvisited _ _ ancestors _ _ t' _ hmemo own rest =>
    refine ⟨ancestors, rest.memo_eq ?_, ?_⟩
    · rw [Notes.memo_closed, Function.update_self]
    · intro m hm
      refine own.mem_of_nearestAncestor hrev (hearlier.resolving_eq rfl) ?_ hm
      -- what `rev` reaches is not finished, since no earlier point reaches it
      intro u hu
      by_contra hsome
      obtain ⟨q, hq, hpath⟩ := hreached u (Option.isSome_iff_ne_none.mpr hsome)
      obtain ⟨hmeasured, hdisjoint⟩ := hbefore q hq
      rcases reflTransGen_iff_eq_or_transGen.mp hpath with rfl | hpath
      · exact (TransGen.tail'_iff.mp hu).elim fun _ hstep => hstep.2.2 hmeasured
      · exact hdisjoint u hpath hu

/-- The first point is always the first to reach. -/
theorem firstToReach_of_mem_head? {point : Point} (hpoint : point ∈ h.points.head?) :
    h.FirstToReach point.revId := by
  obtain ⟨rest, hpoints⟩ := List.head?_eq_some_iff.mp hpoint
  intro q hq
  rw [hpoints, List.map_cons, List.takeWhile_cons_of_neg (by simp)] at hq
  exact absurd hq List.not_mem_nil

/-- **The first to reach**: a point that reaches unmeasured revisions before all points with other
revisions do has edges from all nearest measured ancestors of its revision, whatever cycles there
are.  The first point of a history always has them. -/
theorem minimalBlocks_firstToReach (h : History) :
    h.minimalEdges = h.minimalBlocks.flatten ∧
    List.Forall₂ (fun point block => h.FirstToReach point.revId →
        ∀ m, h.NearestAncestor point.revId m → ⟨m, point.revId⟩ ∈ block)
      h.points h.minimalBlocks ∧
    ∀ point ∈ h.points.head?, ∃ block ∈ h.minimalBlocks.head?,
      ∀ m, h.NearestAncestor point.revId m → ⟨m, point.revId⟩ ∈ block := by
  have hblocks : List.Forall₂ (fun point block => h.FirstToReach point.revId →
      ∀ m, h.NearestAncestor point.revId m → (⟨m, point.revId⟩ : MinimalEdge) ∈ block)
      h.points h.minimalBlocks := by
    obtain ⟨lists, s, hsurvey, -⟩ := h.exists_surveyed_minimalBlocks
    rw [hsurvey.minimalBlocks_eq, List.forall₂_map_right_iff, List.forall₂_same]
    intro point hpoint hfirst m hm
    obtain ⟨ancestors, hmemo, hall⟩ :=
      hsurvey.exists_memo_of_firstToReach ⟨point, hpoint, rfl⟩ hfirst
    rw [hmemo]
    exact List.mem_map_of_mem (hall m hm)
  refine ⟨rfl, hblocks, ?_⟩
  intro point hpoint
  have hfirst := firstToReach_of_mem_head? hpoint
  obtain ⟨rest, hpoints⟩ := List.head?_eq_some_iff.mp hpoint
  rw [hpoints] at hblocks
  generalize h.minimalBlocks = blocks at hblocks
  obtain - | ⟨hblock, -⟩ := hblocks
  exact ⟨_, rfl, hblock hfirst⟩

/-- A cycle that is reached first at one end and then at the other: the point that comes second
misses an ancestor. -/
example :
    let points : List Point := [⟨"", "C", .epoch, 0⟩, ⟨"", "E", .epoch, 0⟩, ⟨"", "A", .epoch, 0⟩]
    let parents : List ParentEdge := [⟨"C", "X"⟩, ⟨"E", "Y"⟩, ⟨"X", "Y"⟩, ⟨"Y", "X"⟩, ⟨"X", "A"⟩]
    (History.mk points parents).minimalEdges = [⟨"A", "C"⟩] := by
  decide +kernel

end MetricHistory.History
