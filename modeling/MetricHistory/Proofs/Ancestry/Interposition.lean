import MetricHistory.Proofs.Ancestry.Embedding
import MetricHistory.Proofs.Ancestry.NearestAncestors

/-!
# An unmeasured revision in between

An edge from `c` to its parent `p` may be cut in two by a new unmeasured revision `u`, which then
stands between them.  The minimal edges stay as they are, in the same order, on histories with
cycles as well: when `c` looks at `u`, the recursion asks `u` for what it would have asked `p`.

That holds only because nothing is known of `u` at that moment.  Once `c` is touched, that is being
resolved or finished, nothing else leads to `u` (`Collected.untouched`), and before that nothing
does either (`Notes.Hides`).

* `History.Interposes`: `u` stands between `c` and `p` in one history, and not in the other.
* `Collected.interpose`, `Surveyed.interpose`: the recursion takes its course around `u`.
* `History.minimalEdges_interpose`: the minimal edges.
-/

namespace MetricHistory

/-! ### Untouched revisions -/

namespace Notes

/-- Nothing is noted of the revision: it is neither finished nor being resolved. -/
def Untouched (s : Notes) (rev : String) : Prop :=
  s.memo rev = none ∧ rev ∉ s.resolving

theorem untouched_opened_iff {s : Notes} {root rev : String} :
    (s.opened root).Untouched rev ↔ rev ≠ root ∧ s.Untouched rev := by
  rw [Untouched, Untouched, memo_opened, resolving_opened, Finset.mem_insert, not_or]
  tauto

theorem untouched_closed_iff {s : Notes} {root rev : String} {found : List String} :
    (s.closed root found).Untouched rev ↔ rev ≠ root ∧ s.Untouched rev := by
  rw [Untouched, Untouched, memo_closed, resolving_closed, Finset.mem_erase]
  by_cases h : rev = root
  · subst h
    simp
  · rw [Function.update_of_ne h]
    tauto

/-- The notes `t` say the same as `s` of all revisions but `u`, and nothing of `u` as long as
nothing is noted of `c`. -/
structure Hides (c u : String) (s t : Notes) : Prop where
  memo_eq : ∀ {rev}, rev ≠ u → t.memo rev = s.memo rev
  mem_resolving_iff : ∀ {rev}, rev ≠ u → (rev ∈ t.resolving ↔ rev ∈ s.resolving)
  untouched : s.Untouched c → t.Untouched u

namespace Hides

variable {c u rev : String} {s t : Notes}

theorem untouched_iff (hs : Hides c u s t) (hrev : rev ≠ u) :
    t.Untouched rev ↔ s.Untouched rev := by
  rw [Untouched, Untouched, hs.memo_eq hrev, hs.mem_resolving_iff hrev]

theorem blank (c u : String) : Hides c u blank blank where
  memo_eq _ := rfl
  mem_resolving_iff _ := Iff.rfl
  untouched _ := ⟨rfl, Finset.notMem_empty u⟩

theorem opened (hs : Hides c u s t) (hrev : rev ≠ u) :
    Hides c u (s.opened rev) (t.opened rev) where
  memo_eq := hs.memo_eq
  mem_resolving_iff hr := by
    rw [resolving_opened, resolving_opened, Finset.mem_insert, Finset.mem_insert,
      hs.mem_resolving_iff hr]
  untouched hc := untouched_opened_iff.mpr
    ⟨hrev.symm, hs.untouched (untouched_opened_iff.mp hc).2⟩

theorem closed (hs : Hides c u s t) (hrev : rev ≠ u) (found : List String) :
    Hides c u (s.closed rev found) (t.closed rev found) where
  memo_eq {r} hr := by
    rw [memo_closed, memo_closed]
    by_cases h : r = rev
    · rw [h, Function.update_self, Function.update_self]
    · rw [Function.update_of_ne h, Function.update_of_ne h, hs.memo_eq hr]
  mem_resolving_iff hr := by
    rw [resolving_closed, resolving_closed, Finset.mem_erase, Finset.mem_erase,
      hs.mem_resolving_iff hr]
  untouched hc := untouched_closed_iff.mpr
    ⟨hrev.symm, hs.untouched (untouched_closed_iff.mp hc).2⟩

/-- The revision that is hidden is opened. -/
theorem opened_hidden (hs : Hides c u s t) (hc : ¬ s.Untouched c) : Hides c u s (t.opened u) where
  memo_eq := hs.memo_eq
  mem_resolving_iff hr := by
    rw [resolving_opened, Finset.mem_insert, or_iff_right hr, hs.mem_resolving_iff hr]
  untouched h := absurd h hc

/-- The revision that is hidden is finished. -/
theorem closed_hidden (hs : Hides c u s t) (hc : ¬ s.Untouched c) (found : List String) :
    Hides c u s (t.closed u found) where
  memo_eq hr := by
    rw [memo_closed, Function.update_of_ne hr, hs.memo_eq hr]
  mem_resolving_iff hr := by
    rw [resolving_closed, Finset.mem_erase, and_iff_right hr, hs.mem_resolving_iff hr]
  untouched h := absurd h hc

end Hides

end Notes

namespace History

section Untouched

variable {h : History} {parents found found' : List String} {s s' : Notes} {c u : String}

/-- What is untouched in the end was so before. -/
theorem Collected.untouched_of_untouched (hc : h.Collected parents found s found' s')
    (hrev : s'.Untouched c) : s.Untouched c := by
  induction hc with
  | nil => exact hrev
  | measured _ _ ih => exact ih hrev
  | finished _ _ _ ih => exact ih hrev
  | resolving _ _ _ _ ih => exact ih hrev
  | unvisited _ _ _ _ _ ihown ihrest =>
    have hclosed := (Notes.untouched_closed_iff.mp (ihrest hrev)).2
    exact (Notes.untouched_opened_iff.mp (ihown hclosed)).2

/-- What is touched stays so while another revision is opened and closed. -/
theorem Collected.not_untouched_closed {rev : String}
    (own : h.Collected parents found (s.opened rev) found' s') (hopen : ¬ s.Untouched c) :
    ¬ (s'.closed rev found').Untouched c := by
  intro hc
  have hopened := own.untouched_of_untouched (Notes.untouched_closed_iff.mp hc).2
  exact hopen (Notes.untouched_opened_iff.mp hopened).2

/-- A revision that only `c` leads to stays untouched while others than `c` are opened. -/
theorem Collected.untouched (hc : h.Collected parents found s found' s')
    (honly : ∀ {rev}, u ∈ h.parentsOf rev → rev = c) (hopen : ¬ s.Untouched c)
    (hu : s.Untouched u) (hparents : u ∉ parents) : s'.Untouched u := by
  induction hc with
  | nil => exact hu
  | measured _ _ ih => exact ih hopen hu (List.not_mem_of_not_mem_cons hparents)
  | finished _ _ _ ih => exact ih hopen hu (List.not_mem_of_not_mem_cons hparents)
  | resolving _ _ _ _ ih => exact ih hopen hu (List.not_mem_of_not_mem_cons hparents)
  | @unvisited parent _ _ _ _ s _ _ _ hmemo hres own _ ihown ihrest =>
    obtain ⟨hne, hparents⟩ := List.ne_and_not_mem_of_not_mem_cons hparents
    have hnot : u ∉ h.parentsOf parent := by
      intro hmem
      obtain rfl := honly hmem
      exact hopen ⟨hmemo, hres⟩
    have hopened : ¬ (s.opened parent).Untouched c := fun hcu =>
      hopen (Notes.untouched_opened_iff.mp hcu).2
    have ht := ihown hopened (Notes.untouched_opened_iff.mpr ⟨hne, hu⟩) hnot
    exact ihrest (own.not_untouched_closed hopen) (Notes.untouched_closed_iff.mpr ⟨hne, ht⟩)
      hparents

end Untouched

/-! ### Histories with a revision in between -/

/-- In `h'` the new unmeasured revision `u` stands between `c` and one of its parents, `p`.  All
else is as in `h`. -/
structure Interposes (c u p : String) (h h' : History) : Prop where
  points_eq : h'.points = h.points
  not_isMeasured : ¬ h.IsMeasured u
  child_ne : c ≠ u
  parent_ne : p ≠ u
  parentsOf_hidden : h'.parentsOf u = [p]
  map_parentsOf : ∀ {rev}, rev ≠ u →
    (h'.parentsOf rev).map (Function.update id u p) = h.parentsOf rev
  eq_of_mem : ∀ {rev}, u ∈ h'.parentsOf rev → rev = c
  count_le : (h'.parentsOf c).count u ≤ 1

/-- If `u` is still to be looked at, then once, from `c`, and nothing is known of it. -/
def Awaits (c u : String) (revs : List String) (s t : Notes) : Prop :=
  u ∈ revs → revs.count u ≤ 1 ∧ t.Untouched u ∧ ¬ s.Untouched c

namespace Interposes

variable {c u p : String} {h h' : History} {s t : Notes} {rev : String} {revs : List String}

theorem isMeasured_iff (hi : Interposes c u p h h') : h'.IsMeasured rev ↔ h.IsMeasured rev := by
  rw [isMeasured_iff_mem, isMeasured_iff_mem, hi.points_eq]

/-- A revision that is opened waits for `u` only if it is `c`. -/
theorem awaits_opened (hi : Interposes c u p h h') (hs : s.Hides c u t) (hne : rev ≠ u)
    (hmemo : s.memo rev = none) (hres : rev ∉ s.resolving) :
    Awaits c u (h'.parentsOf rev) (s.opened rev) (t.opened rev) := by
  intro hmem
  obtain rfl := hi.eq_of_mem hmem
  refine ⟨hi.count_le, ?_, ?_⟩
  · exact Notes.untouched_opened_iff.mpr ⟨hne.symm, hs.untouched ⟨hmemo, hres⟩⟩
  · exact fun hc => (Notes.untouched_opened_iff.mp hc).1 rfl

end Interposes

section Course

variable {c u p : String} {h h' : History} {s t : Notes} {rev : String} {revs : List String}

theorem Awaits.tail (ha : Awaits c u (rev :: revs) s t) : Awaits c u revs s t := by
  intro hmem
  obtain ⟨hcount, huntouched⟩ := ha (List.mem_cons_of_mem rev hmem)
  exact ⟨List.count_le_count_cons.trans hcount, huntouched⟩

theorem Awaits.not_mem_tail (ha : Awaits c u (u :: revs) s t) : u ∉ revs := by
  have hcount := (ha List.mem_cons_self).1
  rw [List.count_cons_self] at hcount
  exact List.count_eq_zero.mp (by omega)

/-- While `c` waits to look at `u`, other revisions are opened and closed. -/
theorem Awaits.closed (ha : Awaits c u (rev :: revs) s t) (hi : Interposes c u p h h')
    (hs : s.Hides c u t) (hrev : rev ≠ u) (hmemo : s.memo rev = none) (hres : rev ∉ s.resolving)
    {ancestors : List String} {w w' : Notes}
    (own : h.Collected (h.parentsOf rev) [] (s.opened rev) ancestors w)
    (own' : h'.Collected (h'.parentsOf rev) [] (t.opened rev) ancestors w') :
    Awaits c u revs (w.closed rev ancestors) (w'.closed rev ancestors) := by
  intro hmem
  obtain ⟨hcount, hu, hc⟩ := ha.tail hmem
  have hopen : ¬ (t.opened rev).Untouched c := by
    rw [(hs.opened hrev).untouched_iff hi.child_ne, Notes.untouched_opened_iff]
    exact fun hopened => hc hopened.2
  have hnot : u ∉ h'.parentsOf rev := by
    intro hparent
    obtain rfl := hi.eq_of_mem hparent
    exact hc ⟨hmemo, hres⟩
  have hown' := own'.untouched hi.eq_of_mem hopen
    (Notes.untouched_opened_iff.mpr ⟨hrev.symm, hu⟩) hnot
  exact ⟨hcount, Notes.untouched_closed_iff.mpr ⟨hrev.symm, hown'⟩, own.not_untouched_closed hc⟩

/-- When `c` comes to `u`, it goes on with what `p` counts for, which `u` has found. -/
theorem Interposes.collected_through (hi : Interposes c u p h h') (ha : Awaits c u (u :: revs) s t)
    {found new found' : List String} {s₁ s' t₁ : Notes}
    (own : h'.Collected [p] [] (t.opened u) (appendNew [] new) t₁) (hs₁ : s₁.Hides c u t₁)
    (hc₁ : ¬ s₁.Untouched c)
    (rest : ∀ {t₂}, s₁.Hides c u t₂ → Awaits c u revs s₁ t₂ →
      ∃ t', h'.Collected revs (appendNew found new) t₂ found' t' ∧ s'.Hides c u t') :
    ∃ t', h'.Collected (u :: revs) found t found' t' ∧ s'.Hides c u t' := by
  obtain ⟨-, ⟨hmemo, hres⟩, -⟩ := ha List.mem_cons_self
  have hm : ¬ h'.IsMeasured u := mt hi.isMeasured_iff.mp hi.not_isMeasured
  obtain ⟨t', hrest, hs'⟩ := rest (hs₁.closed_hidden hc₁ (appendNew [] new))
    fun hmem => absurd hmem ha.not_mem_tail
  rw [← appendNew_appendNew_nil] at hrest
  rw [← hi.parentsOf_hidden] at own
  exact ⟨t', .unvisited hm hmemo hres own hrest, hs'⟩

/-- Where `u` is called `p`, the first name stands either for `u` or for itself. -/
theorem exists_of_map_update_eq_cons {u p parent : String} {revs parents : List String}
    (h : revs.map (Function.update id u p) = parent :: parents) :
    ∃ rev tail, revs = rev :: tail ∧ tail.map (Function.update id u p) = parents ∧
      (rev = u ∧ parent = p ∨ rev = parent ∧ parent ≠ u) := by
  obtain ⟨rev, tail, rfl, hrev, htail⟩ := List.map_eq_cons_iff.mp h
  refine ⟨rev, tail, rfl, htail, ?_⟩
  by_cases hu : rev = u
  · rw [hu, Function.update_self] at hrev
    exact Or.inl ⟨hu, hrev.symm⟩
  · rw [Function.update_of_ne hu, id] at hrev
    exact Or.inr ⟨hrev, hrev ▸ hu⟩

/-- Collecting takes the same course where `u` stands in between, and goes through `u` when it comes
to it. -/
theorem Collected.interpose (hi : Interposes c u p h h') {parents found found' : List String}
    {s' : Notes} (hc : h.Collected parents found s found' s')
    (hrevs : revs.map (Function.update id u p) = parents) (hs : s.Hides c u t)
    (ha : Awaits c u revs s t) :
    ∃ t', h'.Collected revs found t found' t' ∧ s'.Hides c u t' := by
  have hp := hi.parent_ne
  -- in every case the next of `revs` is either `u` or the parent that is looked at
  induction hc generalizing t revs with
  | nil found s =>
    obtain rfl := List.map_eq_nil_iff.mp hrevs
    exact ⟨t, .nil found t, hs⟩
  | measured hm _ ih =>
    have hm' := hi.isMeasured_iff.mpr hm
    obtain ⟨rev, revs, rfl, htail, ⟨rfl, rfl⟩ | ⟨rfl, hu⟩⟩ := exists_of_map_update_eq_cons hrevs
    · obtain ⟨-, -, hopen⟩ := ha List.mem_cons_self
      exact hi.collected_through ha (.measured hm' (.nil _ _)) (hs.opened_hidden hopen) hopen
        (ih htail)
    · obtain ⟨t', hrest, hs'⟩ := ih htail hs ha.tail
      exact ⟨t', .measured hm' hrest, hs'⟩
  | finished hm hmemo _ ih =>
    have hm' := mt hi.isMeasured_iff.mp hm
    obtain ⟨rev, revs, rfl, htail, ⟨rfl, rfl⟩ | ⟨rfl, hu⟩⟩ := exists_of_map_update_eq_cons hrevs
    · obtain ⟨-, -, hopen⟩ := ha List.mem_cons_self
      have hs₁ := hs.opened_hidden hopen
      have hmemo' := (hs₁.memo_eq hp).trans hmemo
      exact hi.collected_through ha (.finished hm' hmemo' (.nil _ _)) hs₁ hopen (ih htail)
    · obtain ⟨t', hrest, hs'⟩ := ih htail hs ha.tail
      exact ⟨t', .finished hm' ((hs.memo_eq hu).trans hmemo) hrest, hs'⟩
  | resolving hm hmemo hres _ ih =>
    have hm' := mt hi.isMeasured_iff.mp hm
    obtain ⟨rev, revs, rfl, htail, ⟨rfl, rfl⟩ | ⟨rfl, hu⟩⟩ := exists_of_map_update_eq_cons hrevs
    · obtain ⟨-, -, hopen⟩ := ha List.mem_cons_self
      have hs₁ := hs.opened_hidden hopen
      have hmemo' := (hs₁.memo_eq hp).trans hmemo
      have hres' := (hs₁.mem_resolving_iff hp).mpr hres
      have hown : h'.Collected [_] [] _ (appendNew [] []) _ :=
        .resolving hm' hmemo' hres' (.nil _ _)
      exact hi.collected_through ha hown hs₁ hopen (ih htail)
    · obtain ⟨t', hrest, hs'⟩ := ih htail hs ha.tail
      exact ⟨t', .resolving hm' ((hs.memo_eq hu).trans hmemo) ((hs.mem_resolving_iff hu).mpr hres)
        hrest, hs'⟩
  | unvisited hm hmemo hres own _ ihown ihrest =>
    have hm' := mt hi.isMeasured_iff.mp hm
    obtain ⟨rev, revs, rfl, htail, ⟨rfl, rfl⟩ | ⟨rfl, hu⟩⟩ := exists_of_map_update_eq_cons hrevs
    · obtain ⟨-, -, hopen⟩ := ha List.mem_cons_self
      have hs₁ := hs.opened_hidden hopen
      have hmemo' := (hs₁.memo_eq hp).trans hmemo
      have hres' := mt (hs₁.mem_resolving_iff hp).mp hres
      -- what `p` finds while `u` is being resolved
      obtain ⟨w', hown, hw⟩ := ihown (hi.map_parentsOf hp) (hs₁.opened hp)
        (hi.awaits_opened hs₁ hp hmemo hres)
      exact hi.collected_through ha (.unvisited hm' hmemo' hres' hown (.nil _ _)) (hw.closed hp _)
        (own.not_untouched_closed hopen) (ihrest htail)
    · obtain ⟨w', hown, hw⟩ := ihown (hi.map_parentsOf hu) (hs.opened hu)
        (hi.awaits_opened hs hu hmemo hres)
      obtain ⟨t', hrest, hs'⟩ := ihrest htail (hw.closed hu _)
        (ha.closed hi hs hu hmemo hres own hown)
      exact ⟨t', .unvisited hm' ((hs.memo_eq hu).trans hmemo)
        (mt (hs.mem_resolving_iff hu).mp hres) hown hrest, hs'⟩

/-- A survey takes the same course where `u` stands in between. -/
theorem Surveyed.interpose (hi : Interposes c u p h h') {lists : List (List String)} {s' : Notes}
    (hsurvey : h.Surveyed revs s lists s') (hres : s.resolving = ∅) (hs : s.Hides c u t)
    (hrevs : u ∉ revs) : ∃ t', h'.Surveyed revs t lists t' ∧ s'.Hides c u t' := by
  induction hsurvey generalizing t with
  | nil s => exact ⟨t, .nil t, hs⟩
  | finished hmemo _ ih =>
    obtain ⟨hne, hrevs⟩ := List.ne_and_not_mem_of_not_mem_cons hrevs
    obtain ⟨t', hrest, hs'⟩ := ih hres hs hrevs
    exact ⟨t', .finished ((hs.memo_eq hne.symm).trans hmemo) hrest, hs'⟩
  | @unvisited rev revs ancestors lists s w s' hmemo own _ ih =>
    obtain ⟨hne, hrevs⟩ := List.ne_and_not_mem_of_not_mem_cons hrevs
    have hclosed : (w.closed rev ancestors).resolving = ∅ := by
      rw [Notes.resolving_closed, own.resolving_eq, Notes.resolving_opened, hres, insert_empty_eq]
      exact Finset.erase_singleton rev
    obtain ⟨w', hown, hw⟩ := own.interpose hi (hi.map_parentsOf hne.symm) (hs.opened hne.symm)
      (hi.awaits_opened hs hne.symm hmemo (hres ▸ Finset.notMem_empty rev))
    obtain ⟨t', hrest, hs'⟩ := ih hclosed (hw.closed hne.symm ancestors) hrevs
    exact ⟨t', .unvisited ((hs.memo_eq hne.symm).trans hmemo) hown hrest, hs'⟩

end Course

/-- A revision in between changes no block of minimal edges. -/
theorem Interposes.minimalBlocks_eq {c u p : String} {h h' : History}
    (hi : Interposes c u p h h') : h'.minimalBlocks = h.minimalBlocks := by
  obtain ⟨lists, s, hsurvey, -⟩ := h.exists_surveyed_minimalBlocks
  have hu : u ∉ h.points.map (·.revId) := mt isMeasured_iff_mem.mpr hi.not_isMeasured
  obtain ⟨t, hsurvey', hs⟩ := hsurvey.interpose hi rfl (Notes.Hides.blank c u) hu
  rw [← hi.points_eq] at hsurvey'
  rw [hsurvey.minimalBlocks_eq, hsurvey'.minimalBlocks_eq, hi.points_eq]
  apply List.map_congr_left
  intro point hpoint
  have hne : point.revId ≠ u := by
    rintro rfl
    exact hu (List.mem_map_of_mem hpoint)
  rw [hs.memo_eq hne]

/-! ### Cutting an edge -/

section Cut

variable {points : List Point} {before after front back edges : List ParentEdge} {c p u : String}

/-- Edges of other revisions do not count for a revision. -/
theorem parentsOf_append_cons (points : List Point) {e : ParentEdge} {rev : String}
    (hrev : e.child ≠ rev) :
    (History.mk points (front ++ e :: back)).parentsOf rev =
      (History.mk points (front ++ back)).parentsOf rev := by
  rw [parentsOf, parentsOf, List.filter_append, List.filter_append,
    List.filter_cons_of_neg (by simpa using hrev)]

/-- The parents of a revision where the parent of each edge has another name. -/
theorem parentsOf_map_parent (f : String → String) (points : List Point)
    (edges : List ParentEdge) (rev : String) :
    (History.mk points (edges.map fun e => ⟨e.child, f e.parent⟩)).parentsOf rev =
      ((History.mk points edges).parentsOf rev).map f := by
  rw [parentsOf, parentsOf, List.filter_map, List.map_map, List.map_map]
  rfl

theorem map_update_parent_of_fresh (hedges : ∀ e ∈ edges, e.parent ≠ u) :
    edges.map (fun e => (⟨e.child, Function.update id u p e.parent⟩ : ParentEdge)) = edges := by
  refine (List.map_congr_left fun e he => ?_).trans (List.map_id edges)
  rw [Function.update_of_ne (hedges e he)]
  rfl

/-- Where one edge from `c` leads to `u` and no other edge mentions `u`, the edges around a new one
from `u` to `p` say the same as if `u` were called `p`. -/
theorem interposes_of_append (hcut : before ++ ⟨c, u⟩ :: after = front ++ back)
    (hbefore : ∀ e ∈ before, e.child ≠ u ∧ e.parent ≠ u)
    (hafter : ∀ e ∈ after, e.child ≠ u ∧ e.parent ≠ u) (hc : c ≠ u) (hp : p ≠ u)
    (hmeasured : ¬ (History.mk points (before ++ ⟨c, p⟩ :: after)).IsMeasured u) :
    Interposes c u p ⟨points, before ++ ⟨c, p⟩ :: after⟩
      ⟨points, front ++ ⟨u, p⟩ :: back⟩ := by
  have hmem : ∀ e ∈ front ++ back, e.child ≠ u ∧ (e.parent = u → e.child = c) := by
    rw [← hcut, List.forall_mem_append, List.forall_mem_cons]
    refine ⟨?_, ⟨hc, fun _ => rfl⟩, ?_⟩
    · exact fun e he => ⟨(hbefore e he).1, fun heq => absurd heq (hbefore e he).2⟩
    · exact fun e he => ⟨(hafter e he).1, fun heq => absurd heq (hafter e he).2⟩
  refine ⟨rfl, hmeasured, hc, hp, ?_, ?_, ?_, ?_⟩
  · have hnone : ∀ {l : List ParentEdge}, l ⊆ front ++ back → l.filter (·.child = u) = [] := by
      intro l hl
      rw [List.filter_eq_nil_iff]
      exact fun e he heq => (hmem e (hl he)).1 (of_decide_eq_true heq)
    rw [parentsOf, List.filter_append, List.filter_cons_of_pos (by simp),
      hnone (List.subset_append_left front back), hnone (List.subset_append_right front back)]
    rfl
  · intro rev hrev
    rw [parentsOf_append_cons points hrev.symm, ← hcut, ← parentsOf_map_parent, List.map_append,
      List.map_cons, map_update_parent_of_fresh fun e he => (hbefore e he).2,
      map_update_parent_of_fresh fun e he => (hafter e he).2, Function.update_self]
  · intro rev hparent
    have hstep : ⟨rev, u⟩ ∈ front ++ ⟨u, p⟩ :: back := mem_parentsOf.mp hparent
    rw [List.mem_append, List.mem_cons, ParentEdge.mk.injEq] at hstep
    rcases hstep with hstep | ⟨-, rfl⟩ | hstep
    · exact (hmem _ (List.mem_append_left back hstep)).2 rfl
    · exact absurd rfl hp
    · exact (hmem _ (List.mem_append_right front hstep)).2 rfl
  · rw [parentsOf_append_cons points hc.symm, ← hcut, parentsOf]
    have hzero : ∀ {l : List ParentEdge}, (∀ e ∈ l, e.child ≠ u ∧ e.parent ≠ u) →
        (l.map (·.parent)).count u = 0 := by
      intro l hl
      rw [List.count_eq_zero, List.mem_map]
      rintro ⟨e, he, heq⟩
      exact (hl e he).2 heq
    calc (((before ++ ⟨c, u⟩ :: after).filter (·.child = c)).map (·.parent)).count u
        ≤ ((before ++ ⟨c, u⟩ :: after).map (·.parent)).count u :=
          (List.filter_sublist.map _).count_le u
      _ = 1 := by
          rw [List.map_append, List.count_append, List.map_cons, List.count_cons_self,
            hzero hbefore, hzero hafter]

end Cut

/-- The history in which `u` stands between the two ends of the edge `e` at place `k`: that edge
leads to `u`, and a new one at place `j` leads from there to the parent. -/
def interpose (h : History) (e : ParentEdge) (k j : Nat) (u : String) : History :=
  { h with parents := (h.parents.set k ⟨e.child, u⟩).insertIdx j ⟨u, e.parent⟩ }

variable {h : History} {e : ParentEdge} {k j : Nat} {u : String}

theorem interposes_interpose (he : h.parents[k]? = some e) (hj : j ≤ h.parents.length)
    (hu : ¬ h.Mentions u) : Interposes e.child u e.parent h (h.interpose e k j u) := by
  obtain ⟨points, edges⟩ := h
  obtain ⟨hk, hget⟩ := List.getElem?_eq_some_iff.mp he
  -- the edges before and after the one that is cut, and those around the new one
  have hset : ∃ before after, edges = before ++ edges[k] :: after ∧ before.length = k ∧
      edges.set k ⟨e.child, u⟩ = before ++ ⟨e.child, u⟩ :: after := List.exists_of_set hk
  obtain ⟨before, after, hedges, -, hcut⟩ := hset
  have hinsert : ∃ front back, edges.set k ⟨e.child, u⟩ = front ++ back ∧ front.length = j ∧
      (edges.set k ⟨e.child, u⟩).insertIdx j ⟨u, e.parent⟩ = front ++ ⟨u, e.parent⟩ :: back :=
    List.exists_of_modifyTailIdx (List.cons ⟨u, e.parent⟩) (List.length_set.symm ▸ hj)
  obtain ⟨front, back, haround, -, hnew⟩ := hinsert
  have hends : ∀ d ∈ edges, d.child ≠ u ∧ d.parent ≠ u := by
    intro d hd
    constructor
    · rintro rfl
      exact hu (Or.inr ⟨d, hd, Or.inl rfl⟩)
    · rintro rfl
      exact hu (Or.inr ⟨d, hd, Or.inr rfl⟩)
  have hmeasured : ¬ (History.mk points edges).IsMeasured u := fun hm => hu (Or.inl hm)
  rw [show edges[k] = e from hget] at hedges
  rw [hedges, List.forall_mem_append, List.forall_mem_cons] at hends
  obtain ⟨hbefore, ⟨hchild, hparent⟩, hafter⟩ := hends
  rw [interpose, hnew]
  rw [hedges] at hmeasured ⊢
  exact interposes_of_append (hcut.symm.trans haround) hbefore hafter hchild hparent hmeasured

/-- **Transparency**: a new unmeasured revision between the two ends of an edge changes nothing in
the minimal edges, wherever its own edge is recorded, and whether or not there are cycles. -/
theorem minimalEdges_interpose (h : History) {e : ParentEdge} {k j : Nat} {u : String}
    (he : h.parents[k]? = some e) (hj : j ≤ h.parents.length) (hu : ¬ h.Mentions u) :
    (h.interpose e k j u).minimalEdges = h.minimalEdges := by
  rw [minimalEdges, minimalEdges, (interposes_interpose he hj hu).minimalBlocks_eq]

/-- Two cycles of unmeasured revisions that share one of them. -/
def clover : History :=
  { points := [⟨"", "C", .epoch, 0⟩, ⟨"", "A", .epoch, 0⟩, ⟨"", "E", .epoch, 0⟩]
    parents := [⟨"C", "X"⟩, ⟨"E", "Y"⟩, ⟨"X", "X"⟩, ⟨"X", "Y"⟩, ⟨"Y", "X"⟩, ⟨"Y", "A"⟩] }

/-- An edge that closes a cycle is cut in two. -/
theorem minimalEdges_interpose_clover :
    clover.parents[4]? = some ⟨"Y", "X"⟩ ∧ 0 ≤ clover.parents.length ∧ ¬ clover.Mentions "U" ∧
    (clover.interpose ⟨"Y", "X"⟩ 4 0 "U").parents =
      [⟨"U", "X"⟩, ⟨"C", "X"⟩, ⟨"E", "Y"⟩, ⟨"X", "X"⟩, ⟨"X", "Y"⟩, ⟨"Y", "U"⟩, ⟨"Y", "A"⟩] ∧
    (clover.interpose ⟨"Y", "X"⟩ 4 0 "U").minimalEdges = [⟨"A", "C"⟩, ⟨"A", "E"⟩] := by
  have hedge : clover.parents[4]? = some ⟨"Y", "X"⟩ := rfl
  have hfresh : ¬ clover.Mentions "U" := by decide
  have hedges : clover.minimalEdges = [⟨"A", "C"⟩, ⟨"A", "E"⟩] := by decide +kernel
  refine ⟨hedge, Nat.zero_le _, hfresh, by decide, ?_⟩
  rw [minimalEdges_interpose clover hedge (Nat.zero_le _) hfresh, hedges]

end History

end MetricHistory
