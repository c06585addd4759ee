import MetricHistory.Proofs.Ancestry.Log
import MetricHistory.Proofs.Roster

/-!
# The stack of the walk

While a revision is resolved, the frames on the stack lead from it back through unmeasured
revisions, each one the parent that the frame below looked at last.  Marks, lists of ancestors and
frames change at different moments, but after every step they belong together, on any graph and
after any revisions that were resolved before.

* `Walk.lastLooked?`, `Walk.Continues`: the parent that a frame looked at last, and a frame that
  stands on another one for it.
* `Walk.Stacked`: what holds of marks, lists and frames between two steps.
* `Walk.Stacked.step`, `Walk.Stacked.iterate`: one step and any number of them keep that.
* `Walk.get_done_iterate`: what is known of finished revisions stays as it is.
* `Pedigree.PassesThrough`, `Pedigree.resolveAll`: the walks on the way, and any revisions before.
* `Pedigree.stack_spec`: the walk at every step and after the last one.
-/

namespace MetricHistory

namespace Walk

variable {n : Nat} {p : Pedigree n}

/-! ### Frames on frames -/

/-- The parent of its revision that a frame looked at last. -/
def lastLooked? (p : Pedigree n) (f : Frame n) : Option (Fin n) :=
  ((p.parents.get f.revision).take (nextPlace p f.revision f.pending)).getLast?

/-- One frame stands on another one for the unmeasured parent that the other looked at last. -/
def Continues (p : Pedigree n) (upper lower : Frame n) : Prop :=
  p.measured.get upper.revision = false ∧ lastLooked? p lower = some upper.revision

theorem lastLooked?_eq {i parent : Fin n} {pending : List (Fin n)}
    (h : parent :: pending <:+ p.parents.get i) (found : Roster (Fin n)) :
    lastLooked? p ⟨i, pending, found⟩ = some parent := by
  obtain ⟨looked, hparents⟩ := h
  have hplace : nextPlace p i pending = (looked ++ [parent]).length := by
    rw [nextPlace, ← hparents, List.length_append, List.length_append, List.length_cons,
      List.length_singleton]
    omega
  rw [lastLooked?, hplace, ← hparents, List.append_cons looked parent pending, List.take_left,
    List.getLast?_concat]

/-- What is pending for the topmost frame and what it found make no difference to where it
stands. -/
theorem isChain_top {top top' : Frame n} {below : List (Frame n)}
    (h : (top :: below).IsChain (Continues p)) (heq : top'.revision = top.revision) :
    (top' :: below).IsChain (Continues p) := by
  obtain ⟨htop, hbelow⟩ := List.isChain_cons.mp h
  refine List.isChain_cons.mpr ⟨fun lower hlower => ?_, hbelow⟩
  rw [Continues, heq]
  exact htop lower hlower

theorem isChain_returnTo {frames : List (Frame n)} (h : frames.IsChain (Continues p))
    (l : List (Fin n)) : (returnTo l frames).IsChain (Continues p) := by
  cases frames with
  | nil => exact h
  | cons caller below => exact isChain_top h rfl

/-! ### Between two steps -/

/-- Marking a revision as being resolved finishes none. -/
theorem get_eq_done_of_put_resolving {visits : Vector (Visit n) n} {i j : Fin n}
    {ancestors : List (Fin n)} (h : (visits.put i .resolving).get j = .done ancestors) :
    visits.get j = .done ancestors := by
  rw [Vector.get_put] at h
  split_ifs at h
  exact h

theorem forall_mem_enterAll {P : Fin n → Prop} {found : Roster (Fin n)} {l : List (Fin n)}
    (hfound : ∀ j ∈ found.toList, P j) (hl : ∀ j ∈ l, P j) :
    ∀ j ∈ (found.enterAll l).toList, P j := by
  intro j hj
  rcases Roster.mem_enterAll.mp hj with hj | hj
  · exact hfound j hj
  · exact hl j hj

/-- The frames on the stack lead from unmeasured revisions down to `root`, each the parent last
looked at by the next, and all lists hold measured revisions. -/
structure Stacked (p : Pedigree n) (root : Fin n) (w : Walk n) : Prop where
  orderly : Orderly p w
  chain : w.frames.IsChain (Continues p)
  bottom : ∀ i ∈ (w.frames.map (·.revision)).getLast?, i = root
  found : ∀ f ∈ w.frames, ∀ i ∈ f.found.toList, p.measured.get i = true
  memo : ∀ i ancestors, w.visits.get i = .done ancestors →
    ∀ j ∈ ancestors, p.measured.get j = true

namespace Stacked

variable {root : Fin n} {visits : Vector (Visit n) n} {below : List (Frame n)} {i parent : Fin n}
  {pending : List (Fin n)} {found : Roster (Fin n)} {w : Walk n}

theorem unexplored (p : Pedigree n) (root : Fin n) :
    Stacked p root ⟨Pedigree.unexplored, []⟩ where
  orderly := .unexplored p
  chain := .nil
  bottom := nofun
  found := nofun
  memo i ancestors hdone := by
    rw [Pedigree.get_unexplored] at hdone
    cases hdone

/-- While the stack is empty any revision can be resolved next. -/
theorem entered {root' : Fin n} (hs : Stacked p root ⟨visits, []⟩)
    (hroot : (visits.get root').ancestors? = none) :
    Stacked p root' ⟨visits.put root' .resolving, [p.openFrame root']⟩ where
  orderly := hs.orderly.opened (hs.orderly.unvisited hroot)
  chain := .singleton _
  bottom _ hi := (Option.some.inj hi).symm
  found := List.forall_mem_singleton.mpr nofun
  memo j ancestors hdone := hs.memo j ancestors (get_eq_done_of_put_resolving hdone)

theorem looked (hs : Stacked p root ⟨visits, ⟨i, parent :: pending, found⟩ :: below⟩)
    {found' : Roster (Fin n)} (hfound' : ∀ j ∈ found'.toList, p.measured.get j = true) :
    Stacked p root ⟨visits, ⟨i, pending, found'⟩ :: below⟩ where
  orderly := hs.orderly.looked found'
  chain := isChain_top hs.chain rfl
  bottom := hs.bottom
  found := List.forall_mem_cons.mpr ⟨hfound', (List.forall_mem_cons.mp hs.found).2⟩
  memo := hs.memo

theorem opened (hs : Stacked p root ⟨visits, ⟨i, parent :: pending, found⟩ :: below⟩)
    (hm : p.measured.get parent = false) (hv : visits.get parent = .unvisited) :
    Stacked p root
      ⟨visits.put parent .resolving, p.openFrame parent :: ⟨i, pending, found⟩ :: below⟩ := by
  have htop := hs.looked (List.forall_mem_cons.mp hs.found).1
  exact {
    orderly := htop.orderly.opened hv
    chain := .cons_cons ⟨hm, lastLooked?_eq hs.orderly.suffix_top found⟩ htop.chain
    bottom := by
      rw [List.map_cons, List.map_cons, List.getLast?_cons_cons]
      exact htop.bottom
    found := List.forall_mem_cons.mpr ⟨nofun, htop.found⟩
    memo := fun j ancestors hdone => hs.memo j ancestors (get_eq_done_of_put_resolving hdone) }

theorem closed (hs : Stacked p root ⟨visits, ⟨i, [], found⟩ :: below⟩) :
    Stacked p root ⟨visits.put i (.done found.toList), returnTo found.toList below⟩ where
  orderly := hs.orderly.closed _ _
  chain := isChain_returnTo hs.chain.tail _
  bottom := by
    rw [map_revision_returnTo]
    intro j hj
    refine hs.bottom j ?_
    rw [List.map_cons, List.getLast?_cons_of_ne_nil]
    · exact hj
    · intro hnil
      rw [hnil] at hj
      cases hj
  found := by
    obtain ⟨htop, hbelow⟩ := List.forall_mem_cons.mp hs.found
    cases below with
    | nil => exact nofun
    | cons caller below =>
      obtain ⟨hcaller, hrest⟩ := List.forall_mem_cons.mp hbelow
      exact List.forall_mem_cons.mpr ⟨forall_mem_enterAll hcaller htop, hrest⟩
  memo := by
    intro j ancestors hdone
    rw [Vector.get_put] at hdone
    split_ifs at hdone
    · cases hdone
      exact (List.forall_mem_cons.mp hs.found).1
    · exact hs.memo j ancestors hdone

/-- One step keeps marks, lists and frames together. -/
theorem step (hs : Stacked p root w) : Stacked p root (Walk.step p w) := by
  obtain ⟨visits, frames⟩ := w
  match frames with
  | [] => exact hs
  | ⟨i, [], found⟩ :: below => exact hs.closed
  | ⟨i, parent :: pending, found⟩ :: below =>
    have hfound := (List.forall_mem_cons.mp hs.found).1
    by_cases hm : p.measured.get parent = true
    · rw [step_measured hm]
      exact hs.looked (forall_mem_enterAll hfound (List.forall_mem_singleton.mpr hm))
    · cases hv : visits.get parent with
      | unvisited =>
        rw [step_unvisited hm hv]
        exact hs.opened (Bool.eq_false_iff.mpr hm) hv
      | resolving =>
        rw [step_resolving hm hv]
        exact hs.looked hfound
      | done ancestors =>
        rw [step_done hm hv]
        exact hs.looked (forall_mem_enterAll hfound (hs.memo parent ancestors hv))

theorem iterate (hs : Stacked p root w) (k : Nat) : Stacked p root ((Walk.step p)^[k] w) :=
  iterate_of_step (fun _ _ h => h.step) hs k

end Stacked

/-! ### What is known already -/

section Marks

variable {w w' : Walk n} {events : List (Event n)} {i : Fin n}

/-- A step leaves what is known of finished revisions, since it marks others only. -/
theorem Move.get_done (hm : Move p w events w') (ho : Orderly p w) {ancestors : List (Fin n)}
    (hi : w.visits.get i = .done ancestors) : w'.visits.get i = .done ancestors := by
  cases hm with
  | look => exact hi
  | close visits j found below =>
    rw [Vector.get_put, if_neg]
    · exact hi
    · rintro rfl
      rw [ho.get_top] at hi
      cases hi
  | @descend visits parent hv j pending found below =>
    rw [Vector.get_put, if_neg]
    · exact hi
    · rintro rfl
      rw [hv] at hi
      cases hi

/-- A mark is never taken back. -/
theorem Move.get_ne_unvisited (hm : Move p w events w') (hi : w.visits.get i ≠ .unvisited) :
    w'.visits.get i ≠ .unvisited := by
  cases hm with
  | look => exact hi
  | close =>
    rw [Vector.get_put]
    split_ifs
    · exact nofun
    · exact hi
  | descend =>
    rw [Vector.get_put]
    split_ifs
    · exact nofun
    · exact hi

theorem get_done_iterate (ho : Orderly p w) {ancestors : List (Fin n)}
    (hi : w.visits.get i = .done ancestors) (k : Nat) :
    ((Walk.step p)^[k] w).visits.get i = .done ancestors := by
  have hkept : ∀ v : Walk n, v.frames ≠ [] →
      Orderly p v ∧ v.visits.get i = .done ancestors →
        Orderly p (Walk.step p v) ∧ (Walk.step p v).visits.get i = .done ancestors := by
    rintro v hv ⟨ho, hi⟩
    have hm := move_step p hv
    exact ⟨ho.move hm, hm.get_done ho hi⟩
  exact (iterate_of_step hkept ⟨ho, hi⟩ k).2

theorem get_ne_unvisited_iterate (p : Pedigree n) (hi : w.visits.get i ≠ .unvisited) (k : Nat) :
    ((Walk.step p)^[k] w).visits.get i ≠ .unvisited :=
  iterate_of_step (P := fun v => v.visits.get i ≠ .unvisited)
    (fun _ hv h => (move_step p hv).get_ne_unvisited h) hi k

end Marks

end Walk

/-! ### Revisions one after the other -/

theorem Visit.ancestors?_eq_none {n : Nat} {v : Visit n}
    (hv : ∀ ancestors, v ≠ .done ancestors) : v.ancestors? = none := by
  cases v with
  | done ancestors => exact absurd rfl (hv ancestors)
  | unvisited => rfl
  | resolving => rfl

namespace Pedigree

variable {n : Nat} {p : Pedigree n} {root : Fin n} {visits : Vector (Visit n) n}

/-- What is known once some revisions were resolved one after the other. -/
def resolveAll (p : Pedigree n) (revisions : List (Fin n)) : Vector (Visit n) n :=
  revisions.foldl p.resolve unexplored

/-- The walks that resolving a revision passes through.  There are none if it is finished. -/
structure PassesThrough (p : Pedigree n) (visits : Vector (Visit n) n) (root : Fin n)
    (w : Walk n) : Prop where
  unfinished : ∀ ancestors, visits.get root ≠ .done ancestors
  steps : ∃ k, (Walk.step p)^[k] ⟨visits.put root .resolving, [p.openFrame root]⟩ = w

/-- Resolving a revision that is not finished ends in some number of steps. -/
theorem exists_resolve_eq_iterate (p : Pedigree n) (hroot : (visits.get root).ancestors? = none) :
    ∃ k, (Walk.step p)^[k] ⟨visits.put root .resolving, [p.openFrame root]⟩ =
      ⟨p.resolve visits root, []⟩ := by
  obtain ⟨k, hk, hend⟩ :=
    Walk.exists_run_eq_iterate p ⟨visits.put root .resolving, [p.openFrame root]⟩
  refine ⟨k, ?_⟩
  rw [p.resolve_of_not_done hroot, ← hk]
  exact congrArg (Walk.mk _) hend

theorem stacked_resolve (hs : Walk.Stacked p root ⟨visits, []⟩) (root' : Fin n) :
    Walk.Stacked p root' ⟨p.resolve visits root', []⟩ := by
  cases hroot : (visits.get root').ancestors? with
  | some found =>
    rw [p.resolve_of_done (Visit.eq_done_of_ancestors? hroot)]
    exact { hs with bottom := nofun }
  | none =>
    obtain ⟨k, hk⟩ := p.exists_resolve_eq_iterate hroot
    rw [← hk]
    exact (hs.entered hroot).iterate k

theorem stacked_resolveAll (p : Pedigree n) (earlier : List (Fin n)) (root : Fin n) :
    Walk.Stacked p root ⟨p.resolveAll earlier, []⟩ := by
  induction earlier using List.reverseRecOn with
  | nil => exact .unexplored p root
  | append_singleton earlier last ih =>
    rw [resolveAll, List.foldl_concat]
    exact { stacked_resolve ih last with bottom := nofun }

/-- Resolving keeps what is known of finished revisions. -/
theorem get_done_resolve (hs : Walk.Stacked p root ⟨visits, []⟩) (root' : Fin n) {i : Fin n}
    {ancestors : List (Fin n)} (hi : visits.get i = .done ancestors) :
    (p.resolve visits root').get i = .done ancestors := by
  cases hroot : (visits.get root').ancestors? with
  | some found => rwa [p.resolve_of_done (Visit.eq_done_of_ancestors? hroot)]
  | none =>
    obtain ⟨k, hk⟩ := p.exists_resolve_eq_iterate hroot
    have hne : root' ≠ i := by
      rintro rfl
      rw [hi] at hroot
      cases hroot
    have hput : (visits.put root' .resolving).get i = .done ancestors := by
      rwa [Vector.get_put, if_neg hne]
    have hdone := Walk.get_done_iterate (hs.entered hroot).orderly hput k
    rwa [hk] at hdone

/-- Nothing is left half done. -/
theorem get_resolve_ne_resolving (hs : Walk.Stacked p root ⟨visits, []⟩) (root' i : Fin n) :
    (p.resolve visits root').get i ≠ .resolving := by
  intro hi
  exact List.not_mem_nil (((stacked_resolve hs root').orderly.resolving_iff i).mp hi)

theorem exists_get_resolve_eq_done (hs : Walk.Stacked p root ⟨visits, []⟩) (root' : Fin n) :
    ∃ ancestors, (p.resolve visits root').get root' = .done ancestors := by
  cases hroot : (visits.get root').ancestors? with
  | some found => exact ⟨found, get_done_resolve hs root' (Visit.eq_done_of_ancestors? hroot)⟩
  | none =>
    have hvisited : (p.resolve visits root').get root' ≠ .unvisited := by
      obtain ⟨k, hk⟩ := p.exists_resolve_eq_iterate hroot
      have hput : (visits.put root' .resolving).get root' ≠ .unvisited := by
        rw [Vector.get_put, if_pos rfl]
        exact nofun
      have hkept := Walk.get_ne_unvisited_iterate p
        (w := ⟨visits.put root' .resolving, [p.openFrame root']⟩) hput k
      rwa [hk] at hkept
    cases hv : (p.resolve visits root').get root' with
    | unvisited => exact absurd hv hvisited
    | resolving => exact absurd hv (get_resolve_ne_resolving hs root' root')
    | done ancestors => exact ⟨ancestors, rfl⟩

/-- **The stack**: whatever revisions were resolved before, at every step of resolving another one

* the frames are of distinct revisions, and these are the ones that are being resolved;
* every frame but the bottom one is of an unmeasured revision, the parent that the frame below
  looked at last, and the bottom one is of the revision that is resolved;
* what is pending for a frame is the rest of its parents, and what it found are measured revisions,
  each listed once and with a place;

and in the end no revision is being resolved, this one is finished, and the ancestors of those that
were finished before are the same. -/
theorem stack_spec (p : Pedigree n) (earlier : List (Fin n)) (root : Fin n) :
    (∀ w, p.PassesThrough (p.resolveAll earlier) root w →
      (w.frames.map (·.revision)).Nodup ∧
      (∀ i, w.visits.get i = .resolving ↔ i ∈ w.frames.map (·.revision)) ∧
      (w.frames.IsChain fun upper lower => p.measured.get upper.revision = false ∧
        Walk.lastLooked? p lower = some upper.revision) ∧
      (∀ i ∈ (w.frames.map (·.revision)).getLast?, i = root) ∧
      ∀ f ∈ w.frames, f.pending <:+ p.parents.get f.revision ∧
        f.found.toList.Nodup ∧ (∀ i ∈ f.found.toList, p.measured.get i = true) ∧
          ∀ i, i ∈ f.found.places ↔ i ∈ f.found.toList) ∧
    (∀ i, (p.resolve (p.resolveAll earlier) root).get i ≠ .resolving) ∧
    (∃ ancestors, (p.resolve (p.resolveAll earlier) root).get root = .done ancestors) ∧
    ∀ i ancestors, (p.resolveAll earlier).get i = .done ancestors →
      (p.resolve (p.resolveAll earlier) root).get i = .done ancestors := by
  have hs := p.stacked_resolveAll earlier root
  refine ⟨?_, get_resolve_ne_resolving hs root, exists_get_resolve_eq_done hs root,
    fun i ancestors hi => get_done_resolve hs root hi⟩
  rintro w ⟨hroot, k, rfl⟩
  have hw := (hs.entered (Visit.ancestors?_eq_none hroot)).iterate k
  refine ⟨hw.orderly.nodup, hw.orderly.resolving_iff, hw.chain, hw.bottom, fun f hf => ?_⟩
  exact ⟨hw.orderly.suffix f hf, f.found.nodup_toList, hw.found f hf,
    fun i => Roster.mem_places_iff⟩

/-- An unmeasured cycle of two revisions below a measured one, and a measured one behind it. -/
def detour : Pedigree 4 where
  parents := #v[[1], [2, 3], [1], []]
  measured := #v[true, false, false, true]

/-- The cycle is on the stack after two steps, each revision of it once. -/
theorem stack_spec_detour :
    detour.PassesThrough (detour.resolveAll []) 0
      ((Walk.step detour)^[2] ⟨unexplored.put 0 .resolving, [detour.openFrame 0]⟩) ∧
    ((Walk.step detour)^[2] ⟨unexplored.put 0 .resolving, [detour.openFrame 0]⟩).frames.map
      (·.revision) = [2, 1, 0] ∧
    ([2, 1, 0] : List (Fin 4)).Nodup := by
  have hpasses : detour.PassesThrough (detour.resolveAll []) 0
      ((Walk.step detour)^[2] ⟨unexplored.put 0 .resolving, [detour.openFrame 0]⟩) :=
    ⟨fun ancestors => by rw [resolveAll, List.foldl_nil, get_unexplored]; exact nofun, 2, rfl⟩
  have hframes : ((Walk.step detour)^[2] ⟨unexplored.put 0 .resolving,
      [detour.openFrame 0]⟩).frames.map (·.revision) = [2, 1, 0] := by rfl
  have hnodup := ((detour.stack_spec [] 0).1 _ hpasses).1
  rw [hframes] at hnodup
  exact ⟨hpasses, hframes, hnodup⟩

end Pedigree

end MetricHistory
