import MetricHistory.Ancestry.MinimalEdges
import MetricHistory.Proofs.Ancestry.Recursion
import Mathlib.Logic.Function.Iterate

/-!
# The walk follows the recursion

The walk over a stack of frames finds what the recursion finds, in the same order, on any history.

* `Walk.Agrees`: the marks of a walk say the same as the notes of the recursion.
* `Walk.exists_collected`: from any walk, some steps look at all pending parents of the topmost
  frame, which is a course of the recursion.  The frames below stay as they are.
* `Survey.exists_surveyed`: the points are surveyed as the recursion does it.
* `History.recursiveEdges_eq`: the minimal edges are those of the recursion.
-/

namespace MetricHistory

/-- The pedigree of all revisions of a history. -/
def History.pedigree (h : History) : Pedigree h.revisions.size :=
  Pedigree.ofHistory h h.revisions

/-- The ancestors of a finished revision. -/
def Visit.ancestors? {n : Nat} : Visit n → Option (List (Fin n))
  | .done found => some found
  | _ => none

theorem Visit.eq_done_of_ancestors? {n : Nat} {v : Visit n} {found : List (Fin n)}
    (hv : v.ancestors? = some found) : v = .done found := by
  cases v with
  | done l => cases hv; rfl
  | unvisited => cases hv
  | resolving => cases hv

theorem Pedigree.resolve_of_done {n : Nat} (p : Pedigree n) {visits : Vector (Visit n) n}
    {root : Fin n} {found : List (Fin n)} (hroot : visits.get root = .done found) :
    p.resolve visits root = visits := by
  unfold resolve
  rw [hroot]

theorem Pedigree.resolve_of_not_done {n : Nat} (p : Pedigree n) {visits : Vector (Visit n) n}
    {root : Fin n} (hroot : (visits.get root).ancestors? = none) :
    p.resolve visits root =
      (Walk.run p ⟨visits.put root .resolving, [p.openFrame root]⟩).visits := by
  unfold resolve
  split
  · next hdone => rw [hdone] at hroot; cases hroot
  · rfl

theorem Pedigree.get_unexplored {n : Nat} (i : Fin n) : unexplored.get i = .unvisited :=
  Vector.getElem_replicate i.isLt

namespace Walk

variable {n : Nat}

/-! ### Steps -/

theorem step_close (p : Pedigree n) (visits : Vector (Visit n) n) (i : Fin n)
    (found : Roster (Fin n)) (below : List (Frame n)) :
    step p ⟨visits, ⟨i, [], found⟩ :: below⟩ =
      ⟨visits.put i (.done found.toList), returnTo found.toList below⟩ :=
  rfl

theorem step_measured {p : Pedigree n} {parent : Fin n} (hm : p.measured.get parent = true)
    (visits : Vector (Visit n) n) (i : Fin n) (pending : List (Fin n)) (found : Roster (Fin n))
    (below : List (Frame n)) :
    step p ⟨visits, ⟨i, parent :: pending, found⟩ :: below⟩ =
      ⟨visits, ⟨i, pending, found.enter parent⟩ :: below⟩ := by
  rw [step, if_pos hm]

theorem step_done {p : Pedigree n} {parent : Fin n} (hm : ¬ p.measured.get parent = true)
    {visits : Vector (Visit n) n} {ancestors : List (Fin n)}
    (hv : visits.get parent = .done ancestors) (i : Fin n) (pending : List (Fin n))
    (found : Roster (Fin n)) (below : List (Frame n)) :
    step p ⟨visits, ⟨i, parent :: pending, found⟩ :: below⟩ =
      ⟨visits, ⟨i, pending, found.enterAll ancestors⟩ :: below⟩ := by
  rw [step, if_neg hm, hv]

theorem step_resolving {p : Pedigree n} {parent : Fin n} (hm : ¬ p.measured.get parent = true)
    {visits : Vector (Visit n) n} (hv : visits.get parent = .resolving) (i : Fin n)
    (pending : List (Fin n)) (found : Roster (Fin n)) (below : List (Frame n)) :
    step p ⟨visits, ⟨i, parent :: pending, found⟩ :: below⟩ =
      ⟨visits, ⟨i, pending, found⟩ :: below⟩ := by
  rw [step, if_neg hm, hv]

theorem step_unvisited {p : Pedigree n} {parent : Fin n} (hm : ¬ p.measured.get parent = true)
    {visits : Vector (Visit n) n} (hv : visits.get parent = .unvisited) (i : Fin n)
    (pending : List (Fin n)) (found : Roster (Fin n)) (below : List (Frame n)) :
    step p ⟨visits, ⟨i, parent :: pending, found⟩ :: below⟩ =
      ⟨visits.put parent .resolving,
        p.openFrame parent :: ⟨i, pending, found⟩ :: below⟩ := by
  rw [step, if_neg hm, hv]

theorem run_step (p : Pedigree n) (w : Walk n) : run p (step p w) = run p w := by
  obtain ⟨visits, frames⟩ := w
  match frames with
  | [] => rfl
  | frame :: below => conv_rhs => rw [run, dif_neg (List.cons_ne_nil frame below)]

theorem run_iterate_step (p : Pedigree n) (k : Nat) (w : Walk n) :
    run p ((step p)^[k] w) = run p w := by
  induction k generalizing w with
  | zero => rfl
  | succ k ih => rw [Function.iterate_succ_apply, ih, run_step]

/-- What a step keeps as long as the stack is not empty, any number of steps keeps. -/
theorem iterate_of_step {p : Pedigree n} {P : Walk n → Prop}
    (hstep : ∀ w, w.frames ≠ [] → P w → P (step p w)) {w : Walk n} (hw : P w) (k : Nat) :
    P ((step p)^[k] w) := by
  induction k with
  | zero => exact hw
  | succ k ih =>
    rw [Function.iterate_succ_apply']
    generalize (step p)^[k] w = v at ih
    obtain ⟨visits, frames⟩ := v
    cases frames with
    | nil => exact ih
    | cons frame below => exact hstep _ (List.cons_ne_nil frame below) ih

/-- The end of a walk is reached by steps. -/
theorem exists_run_eq_iterate (p : Pedigree n) (w : Walk n) :
    ∃ k, run p w = (step p)^[k] w ∧ (run p w).frames = [] := by
  induction hw : work p w using Nat.strong_induction_on generalizing w with
  | _ m ih =>
    subst hw
    by_cases hframes : w.frames = []
    · rw [run, dif_pos hframes]
      exact ⟨0, rfl, hframes⟩
    · obtain ⟨k, hk, hend⟩ := ih _ (work_step_lt p w hframes) (step p w) rfl
      rw [run_step] at hk hend
      exact ⟨k + 1, hk, hend⟩

/-- A walk whose only frame has no parent left comes to an end. -/
theorem run_last (p : Pedigree n) (visits : Vector (Visit n) n) (i : Fin n)
    (found : Roster (Fin n)) :
    run p ⟨visits, [⟨i, [], found⟩]⟩ = ⟨visits.put i (.done found.toList), []⟩ := by
  rw [← run_step, step_close, returnTo, run, dif_pos rfl]

/-! ### Marks and notes -/

/-- A walk knows of the listed revisions what the recursion has noted. -/
structure Agrees (r : Roster String) (visits : Vector (Visit r.size) r.size) (s : Notes) :
    Prop where
  memo : ∀ i : Fin r.size, s.memo (r.item i) = (visits.get i).ancestors?.map (List.map r.item)
  resolving : ∀ i : Fin r.size, r.item i ∈ s.resolving ↔ visits.get i = .resolving

namespace Agrees

variable {r : Roster String} {visits : Vector (Visit r.size) r.size} {s : Notes}

theorem blank : Agrees r Pedigree.unexplored Notes.blank where
  memo i := by
    rw [Pedigree.get_unexplored]
    rfl
  resolving i := by
    rw [Pedigree.get_unexplored]
    simp [Notes.blank]

theorem opened (ha : Agrees r visits s) {i : Fin r.size} (hi : s.memo (r.item i) = none) :
    Agrees r (visits.put i .resolving) (s.opened (r.item i)) where
  memo j := by
    rw [Notes.memo_opened, Vector.get_put]
    split_ifs with hij
    · rw [← hij, hi]
      rfl
    · exact ha.memo j
  resolving j := by
    rw [Notes.resolving_opened, Finset.mem_insert, ha.resolving, r.item_injective.eq_iff,
      Vector.get_put]
    split_ifs with hij
    · simp [hij]
    · simp [Ne.symm hij]

theorem closed (ha : Agrees r visits s) (i : Fin r.size) (found : List (Fin r.size)) :
    Agrees r (visits.put i (.done found)) (s.closed (r.item i) (found.map r.item)) where
  memo j := by
    rw [Notes.memo_closed, Vector.get_put]
    by_cases hij : i = j
    · rw [if_pos hij, hij, Function.update_self]
      rfl
    · have hitem : r.item j ≠ r.item i := fun he => hij (r.item_injective he).symm
      rw [if_neg hij, Function.update_of_ne hitem]
      exact ha.memo j
  resolving j := by
    rw [Notes.resolving_closed, Finset.mem_erase, ha.resolving, r.item_injective.ne_iff,
      Vector.get_put]
    split_ifs with hij
    · simp [hij]
    · simp [Ne.symm hij]

theorem memo_of_done (ha : Agrees r visits s) {i : Fin r.size} {found : List (Fin r.size)}
    (hv : visits.get i = .done found) : s.memo (r.item i) = some (found.map r.item) := by
  rw [ha.memo, hv]
  rfl

theorem memo_of_not_done (ha : Agrees r visits s) {i : Fin r.size}
    (hv : (visits.get i).ancestors? = none) : s.memo (r.item i) = none := by
  rw [ha.memo, hv]
  rfl

end Agrees

/-! ### The simulation -/

/-- After some steps the topmost frame has looked at all its pending parents, as the recursion does
it.  The revisions opened on the way are closed again, so the frames below are untouched. -/
theorem exists_collected (h : History) (below : List (Frame h.revisions.size))
    (visits : Vector (Visit h.revisions.size) h.revisions.size) (i : Fin h.revisions.size)
    (pending : List (Fin h.revisions.size)) (found : Roster (Fin h.revisions.size)) (s : Notes)
    (ha : Agrees h.revisions visits s) :
    ∃ k visits' found' s',
      (step h.pedigree)^[k] ⟨visits, ⟨i, pending, found⟩ :: below⟩ =
        ⟨visits', ⟨i, [], found'⟩ :: below⟩ ∧
      Agrees h.revisions visits' s' ∧
      h.Collected (pending.map h.revisions.item) (found.toList.map h.revisions.item) s
        (found'.toList.map h.revisions.item) s' ∧
      unopened h.pedigree visits' ≤ unopened h.pedigree visits := by
  -- a revision that is opened leaves less to open, and a parent that was looked at is not pending
  induction hN : unopened h.pedigree visits + pending.length using Nat.strong_induction_on
    generalizing below visits i pending found s with
  | _ N ih =>
  have hinj := h.revisions.item_injective
  match pending with
  | [] => exact ⟨0, visits, found, s, rfl, ha, .nil _ s, le_rfl⟩
  | parent :: pending =>
    rw [List.length_cons] at hN
    have hlt : unopened h.pedigree visits + pending.length < N := by omega
    have hmeasured := Pedigree.measured_iff h parent
    by_cases hm : h.pedigree.measured.get parent = true
    · obtain ⟨k, visits', found', s', hsteps, ha', hc, hle⟩ :=
        ih _ hlt below visits i pending (found.enter parent) s ha rfl
      refine ⟨k + 1, visits', found', s', ?_, ha', ?_, hle⟩
      · rw [Function.iterate_succ_apply, step_measured hm, hsteps]
      · refine .measured (hmeasured.mp hm) ?_
        rw [show found.enter parent = found.enterAll [parent] from rfl, Roster.toList_enterAll,
          map_appendNew hinj.injOn] at hc
        exact hc
    · have hm' : ¬ h.IsMeasured (h.revisions.item parent) := fun hp => hm (hmeasured.mpr hp)
      cases hv : visits.get parent with
      | done ancestors =>
        obtain ⟨k, visits', found', s', hsteps, ha', hc, hle⟩ :=
          ih _ hlt below visits i pending (found.enterAll ancestors) s ha rfl
        refine ⟨k + 1, visits', found', s', ?_, ha', ?_, hle⟩
        · rw [Function.iterate_succ_apply, step_done hm hv, hsteps]
        · refine .finished hm' (ha.memo_of_done hv) ?_
          rw [Roster.toList_enterAll, map_appendNew hinj.injOn] at hc
          exact hc
      | resolving =>
        obtain ⟨k, visits', found', s', hsteps, ha', hc, hle⟩ :=
          ih _ hlt below visits i pending found s ha rfl
        refine ⟨k + 1, visits', found', s', ?_, ha', ?_, hle⟩
        · rw [Function.iterate_succ_apply, step_resolving hm hv, hsteps]
        · exact .resolving hm' (ha.memo_of_not_done (by rw [hv]; rfl))
            ((ha.resolving parent).mpr hv) hc
      | unvisited =>
        have hmemo : s.memo (h.revisions.item parent) = none :=
          ha.memo_of_not_done (by rw [hv]; rfl)
        have hres : h.revisions.item parent ∉ s.resolving := by
          rw [ha.resolving, hv]
          exact nofun
        have hopen := unopened_set_resolving h.pedigree visits parent hv
        -- the parent's own frame, from its opening until all its parents were looked at
        obtain ⟨k₁, visits₁, found₁, s₁, hsteps₁, ha₁, hc₁, hle₁⟩ :=
          ih _ (by omega) (⟨i, pending, found⟩ :: below) (visits.put parent .resolving) parent
            (h.pedigree.parents.get parent) Roster.empty (s.opened (h.revisions.item parent))
            (ha.opened hmemo) rfl
        have hclose := unopened_set_done h.pedigree visits₁ parent found₁.toList
        -- the rest of this frame, once the parent's ancestors were returned to it
        obtain ⟨k₂, visits₂, found₂, s₂, hsteps₂, ha₂, hc₂, hle₂⟩ :=
          ih _ (by omega) below (visits₁.put parent (.done found₁.toList)) i pending
            (found.enterAll found₁.toList) _ (ha₁.closed parent found₁.toList) rfl
        refine ⟨k₂ + 1 + k₁ + 1, visits₂, found₂, s₂, ?_, ha₂, ?_, by omega⟩
        · rw [Function.iterate_succ_apply, step_unvisited hm hv, Function.iterate_add_apply,
            Pedigree.openFrame, hsteps₁, Function.iterate_succ_apply, step_close, returnTo, hsteps₂]
        · rw [History.pedigree, Pedigree.map_item_parents, Roster.toList_empty, List.map_nil] at hc₁
          rw [Roster.toList_enterAll, map_appendNew hinj.injOn] at hc₂
          exact .unvisited hm' hmemo hres hc₁ hc₂

end Walk

/-! ### All points -/

/-- Resolving a revision that is not finished is a course of the recursion. -/
theorem Pedigree.exists_collected_resolve (h : History)
    {visits : Vector (Visit h.revisions.size) h.revisions.size} {s : Notes}
    (ha : Walk.Agrees h.revisions visits s) {root : Fin h.revisions.size}
    (hroot : (visits.get root).ancestors? = none) :
    ∃ ancestors visits' s',
      h.pedigree.resolve visits root = visits'.put root (.done ancestors) ∧
      Walk.Agrees h.revisions visits' s' ∧
      h.Collected (h.parentsOf (h.revisions.item root)) [] (s.opened (h.revisions.item root))
        (ancestors.map h.revisions.item) s' := by
  obtain ⟨k, visits', found, s', hsteps, ha', hc, -⟩ :=
    Walk.exists_collected h [] (visits.put root .resolving) root (h.pedigree.parents.get root)
      Roster.empty _ (ha.opened (ha.memo_of_not_done hroot))
  have hresolve := h.pedigree.resolve_of_not_done hroot
  rw [← Walk.run_iterate_step _ k, openFrame, hsteps, Walk.run_last] at hresolve
  rw [History.pedigree, map_item_parents, Roster.toList_empty, List.map_nil] at hc
  exact ⟨found.toList, visits', s', hresolve, ha', hc⟩

/-- The walk surveys a list of revisions as the recursion does it. -/
theorem Survey.exists_surveyed (h : History) (roots : List (Fin h.revisions.size))
    (visits : Vector (Visit h.revisions.size) h.revisions.size)
    (ancestors : Array (List (Fin h.revisions.size))) (s : Notes)
    (ha : Walk.Agrees h.revisions visits s) :
    ∃ lists s',
      (roots.foldl (add h.pedigree) ⟨visits, ancestors⟩).ancestors.toList =
        ancestors.toList ++ lists ∧
      h.Surveyed (roots.map h.revisions.item) s (lists.map (List.map h.revisions.item)) s' := by
  induction roots generalizing visits ancestors s with
  | nil => exact ⟨[], s, by simp, .nil s⟩
  | cons root roots ih =>
    rw [List.foldl_cons, add]
    cases hroot : (visits.get root).ancestors? with
    | some found =>
      have hdone := Visit.eq_done_of_ancestors? hroot
      have hresolve := h.pedigree.resolve_of_done hdone
      obtain ⟨lists, s', hlists, hs⟩ := ih visits (ancestors.push found) s ha
      refine ⟨found :: lists, s', ?_, .finished (ha.memo_of_done hdone) hs⟩
      simp only [hresolve, hdone, Visit.found]
      rw [hlists, Array.toList_push, List.append_assoc, List.singleton_append]
    | none =>
      obtain ⟨found, visits', t, hresolve, ha', hc⟩ :=
        Pedigree.exists_collected_resolve h ha hroot
      obtain ⟨lists, s', hlists, hs⟩ :=
        ih (visits'.put root (.done found)) (ancestors.push found) _ (ha'.closed root found)
      refine ⟨found :: lists, s', ?_, .unvisited (ha.memo_of_not_done hroot) hc hs⟩
      have hfound : ((visits'.put root (.done found)).get root).found = found := by
        rw [Vector.get_put, if_pos rfl]
        rfl
      simp only [hresolve, hfound]
      rw [hlists, Array.toList_push, List.append_assoc, List.singleton_append]

namespace History

/-- The minimal edges of each point lead to the ancestors that a survey of the points finds. -/
theorem exists_surveyed_minimalBlocks (h : History) :
    ∃ lists s, h.Surveyed (h.points.map (·.revId)) Notes.blank lists s ∧
      h.minimalBlocks = List.zipWith
        (fun point ancestors => ancestors.map fun a => ⟨a, point.revId⟩) h.points lists := by
  have hroots : (h.points.filterMap fun point => h.revisions.place? point.revId).map
      h.revisions.item = h.points.map (·.revId) := by
    rw [List.map_filterMap, ← List.filterMap_eq_map]
    apply List.filterMap_congr
    intro point hpoint
    obtain ⟨i, hi⟩ := Roster.exists_item_eq (mem_revisions.mpr (Or.inl ⟨point, hpoint, rfl⟩))
    rw [← hi, Roster.place?_item]
    exact congrArg some hi
  obtain ⟨lists, s, hlists, hs⟩ := Survey.exists_surveyed h
    (h.points.filterMap fun point => h.revisions.place? point.revId) Pedigree.unexplored #[]
    Notes.blank Walk.Agrees.blank
  rw [hroots] at hs
  refine ⟨_, s, hs, ?_⟩
  rw [List.nil_append] at hlists
  rw [List.zipWith_map_right]
  simp only [List.map_map]
  unfold minimalBlocks Survey.nearest
  rw [← hlists]
  rfl

/-- **The walk is the recursion**: on every history, with or without cycles, the recursion comes to
an end, and its edges are the minimal edges, in the same order. -/
theorem recursiveEdges_eq (h : History) : h.recursiveEdges = some h.minimalEdges := by
  obtain ⟨lists, s, hs, hblocks⟩ := h.exists_surveyed_minimalBlocks
  rw [recursiveEdges, hs.recursiveBlocks_eq, minimalEdges, hblocks]
  rfl

end History

end MetricHistory
