import MetricHistory.Proofs.Ancestry.Refinement
import Mathlib.Algebra.BigOperators.Fin

/-!
# Nothing is done twice

The points of a history are resolved one after the other, and what is known of the revisions is kept
from one point to the next.  Written down in one log, what the walk does on the way is this: it
opens revisions, looks at their parents one by one, and closes them.  Over all points together no
revision is opened twice and no parent in its list is looked at twice, whatever cycles there are,
since a revision is marked before its frame is put on the stack and the mark is never taken back.

* `Walk.Event`, `Walk.happens`: what one step of the walk does.
* `Walk.Reaches`: the walks that resolving a list of revisions comes to, with their logs.
* `Walk.Move`: the three kinds of step.
* `Walk.Orderly`: the stack holds the revisions that are marked as being resolved, each once.
* `Walk.Tells`: what the log tells of the walk, and that it repeats no event.
* `Reaches.tells`, `Reaches.work_eq`: that holds of every log, and the work of a walk is the number
  of things that are left to do.
-/

namespace MetricHistory

namespace Walk

variable {n : Nat} {p : Pedigree n}

/-! ### Events -/

/-- What is done to a revision. -/
inductive Event (n : Nat) where
  /-- A frame of the revision is put on the stack. -/
  | opened (i : Fin n)
  /-- The parent at place `k` of the revision's list is looked at. -/
  | looked (i : Fin n) (k : Nat)
  /-- The frame of the revision is taken from the stack. -/
  | closed (i : Fin n)
deriving DecidableEq

/-- The place of the first pending parent in the list of a revision. -/
def nextPlace (p : Pedigree n) (i : Fin n) (pending : List (Fin n)) : Nat :=
  (p.parents.get i).length - pending.length

theorem nextPlace_lt {i parent : Fin n} {pending : List (Fin n)}
    (h : parent :: pending <:+ p.parents.get i) :
    nextPlace p i (parent :: pending) < (p.parents.get i).length := by
  have hlen := h.length_le
  rw [List.length_cons] at hlen
  rw [nextPlace, List.length_cons]
  omega

theorem nextPlace_cons {i parent : Fin n} {pending : List (Fin n)}
    (h : parent :: pending <:+ p.parents.get i) :
    nextPlace p i (parent :: pending) + 1 = nextPlace p i pending := by
  have hlen := h.length_le
  rw [List.length_cons] at hlen
  rw [nextPlace, nextPlace, List.length_cons]
  omega

/-- What happens in one step of the walk. -/
def happens (p : Pedigree n) : Walk n → List (Event n)
  | ⟨_, []⟩ => []
  | ⟨_, ⟨i, [], _⟩ :: _⟩ => [.closed i]
  | ⟨visits, ⟨i, parent :: pending, _⟩ :: _⟩ =>
    if p.measured.get parent then [.looked i (nextPlace p i (parent :: pending))]
    else
      match visits.get parent with
      | .unvisited => [.looked i (nextPlace p i (parent :: pending)), .opened parent]
      | _ => [.looked i (nextPlace p i (parent :: pending))]

/-- Resolving the revisions `roots` one after the other comes to the walk `w` when everything in
`log` has happened and the revisions `rest` are still to be resolved. -/
inductive Reaches (p : Pedigree n) (roots : List (Fin n)) :
    List (Fin n) → Walk n → List (Event n) → Prop where
  | start : Reaches p roots roots ⟨Pedigree.unexplored, []⟩ []
  /-- A revision that is finished is not resolved again. -/
  | known {root : Fin n} {rest : List (Fin n)} {visits : Vector (Visit n) n}
      {log : List (Event n)} {found : List (Fin n)}
      (hr : Reaches p roots (root :: rest) ⟨visits, []⟩ log)
      (hroot : visits.get root = .done found) :
      Reaches p roots rest ⟨visits, []⟩ log
  /-- Any other revision is opened. -/
  | enter {root : Fin n} {rest : List (Fin n)} {visits : Vector (Visit n) n}
      {log : List (Event n)} (hr : Reaches p roots (root :: rest) ⟨visits, []⟩ log)
      (hroot : (visits.get root).ancestors? = none) :
      Reaches p roots rest ⟨visits.put root .resolving, [p.openFrame root]⟩
        (log ++ [.opened root])
  /-- The walk goes on until the stack is empty. -/
  | step {rest : List (Fin n)} {w : Walk n} {log : List (Event n)}
      (hr : Reaches p roots rest w log) (hw : w.frames ≠ []) :
      Reaches p roots rest (step p w) (log ++ happens p w)

/-- The kinds of step, with what happens: the topmost revision is closed, or one of its parents is
looked at, and an unvisited one is opened then. -/
inductive Move (p : Pedigree n) : Walk n → List (Event n) → Walk n → Prop where
  | close (visits : Vector (Visit n) n) (i : Fin n) (found : Roster (Fin n))
      (below : List (Frame n)) :
      Move p ⟨visits, ⟨i, [], found⟩ :: below⟩ [.closed i]
        ⟨visits.put i (.done found.toList), returnTo found.toList below⟩
  | look (visits : Vector (Visit n) n) (i parent : Fin n) (pending : List (Fin n))
      (found found' : Roster (Fin n)) (below : List (Frame n)) :
      Move p ⟨visits, ⟨i, parent :: pending, found⟩ :: below⟩
        [.looked i (nextPlace p i (parent :: pending))] ⟨visits, ⟨i, pending, found'⟩ :: below⟩
  | descend {visits : Vector (Visit n) n} {parent : Fin n} (hv : visits.get parent = .unvisited)
      (i : Fin n) (pending : List (Fin n)) (found : Roster (Fin n)) (below : List (Frame n)) :
      Move p ⟨visits, ⟨i, parent :: pending, found⟩ :: below⟩
        [.looked i (nextPlace p i (parent :: pending)), .opened parent]
        ⟨visits.put parent .resolving, p.openFrame parent :: ⟨i, pending, found⟩ :: below⟩

theorem move_step (p : Pedigree n) {w : Walk n} (hw : w.frames ≠ []) :
    Move p w (happens p w) (step p w) := by
  obtain ⟨visits, frames⟩ := w
  match frames, hw with
  | ⟨i, [], found⟩ :: below, _ => exact .close visits i found below
  | ⟨i, parent :: pending, found⟩ :: below, _ =>
    by_cases hm : p.measured.get parent = true
    · rw [step_measured hm, happens, if_pos hm]
      exact .look visits i parent pending found _ below
    · rw [happens, if_neg hm]
      cases hv : visits.get parent with
      | unvisited =>
        rw [step_unvisited hm hv]
        exact .descend hv i pending found below
      | resolving =>
        rw [step_resolving hm hv]
        exact .look visits i parent pending found found below
      | done ancestors =>
        rw [step_done hm hv]
        exact .look visits i parent pending found _ below

/-! ### The stack -/

/-- The stack holds the revisions that are being resolved, each once, and what is pending for each
of them is the rest of its parents. -/
structure Orderly (p : Pedigree n) (w : Walk n) : Prop where
  resolving_iff : ∀ i, w.visits.get i = .resolving ↔ i ∈ w.frames.map (·.revision)
  nodup : (w.frames.map (·.revision)).Nodup
  suffix : ∀ f ∈ w.frames, f.pending <:+ p.parents.get f.revision

theorem map_revision_returnTo (l : List (Fin n)) (frames : List (Frame n)) :
    (returnTo l frames).map (·.revision) = frames.map (·.revision) := by
  cases frames <;> rfl

theorem forall_mem_returnTo {P : Fin n → List (Fin n) → Prop} {l : List (Fin n)}
    {frames : List (Frame n)} :
    (∀ f ∈ returnTo l frames, P f.revision f.pending) ↔ ∀ f ∈ frames, P f.revision f.pending := by
  cases frames with
  | nil => rfl
  | cons caller below => rw [returnTo, List.forall_mem_cons, List.forall_mem_cons]

/-- A frame of another revision makes no difference to what is said of one. -/
theorem forall_frames_cons {P : List (Fin n) → Prop} {frame : Frame n} {below : List (Frame n)}
    {j : Fin n} (hj : frame.revision ≠ j) :
    (∀ f ∈ frame :: below, f.revision = j → P f.pending) ↔
      ∀ f ∈ below, f.revision = j → P f.pending := by
  rw [List.forall_mem_cons, and_iff_right fun he => absurd he hj]

namespace Orderly

variable {visits : Vector (Visit n) n} {frames below : List (Frame n)} {i parent : Fin n}
  {pending : List (Fin n)} {found : Roster (Fin n)}

theorem unexplored (p : Pedigree n) : Orderly p ⟨Pedigree.unexplored, []⟩ where
  resolving_iff i := by
    rw [Pedigree.get_unexplored]
    exact iff_of_false nofun List.not_mem_nil
  nodup := List.nodup_nil
  suffix _ hf := absurd hf List.not_mem_nil

/-- An unvisited revision is not on the stack. -/
theorem not_mem_of_unvisited (ho : Orderly p ⟨visits, frames⟩) (hv : visits.get i = .unvisited) :
    i ∉ frames.map (·.revision) := by
  rw [← ho.resolving_iff i, hv]
  exact nofun

/-- While the stack is empty no revision is being resolved. -/
theorem unvisited (ho : Orderly p ⟨visits, []⟩) (hi : (visits.get i).ancestors? = none) :
    visits.get i = .unvisited := by
  cases hv : visits.get i with
  | unvisited => rfl
  | resolving => exact absurd ((ho.resolving_iff i).mp hv) List.not_mem_nil
  | done found => rw [hv] at hi; cases hi

theorem get_top (ho : Orderly p ⟨visits, ⟨i, pending, found⟩ :: below⟩) :
    visits.get i = .resolving :=
  (ho.resolving_iff i).mpr List.mem_cons_self

theorem suffix_top (ho : Orderly p ⟨visits, ⟨i, pending, found⟩ :: below⟩) :
    pending <:+ p.parents.get i :=
  ho.suffix _ List.mem_cons_self

theorem not_mem_below (ho : Orderly p ⟨visits, ⟨i, pending, found⟩ :: below⟩) :
    i ∉ below.map (·.revision) :=
  (List.nodup_cons.mp ho.nodup).1

theorem opened (ho : Orderly p ⟨visits, frames⟩) (hv : visits.get i = .unvisited) :
    Orderly p ⟨visits.put i .resolving, p.openFrame i :: frames⟩ where
  resolving_iff j := by
    rw [Vector.get_put, List.map_cons, List.mem_cons]
    by_cases hij : i = j
    · rw [if_pos hij]
      exact iff_of_true rfl (Or.inl hij.symm)
    · rw [if_neg hij, ho.resolving_iff j]
      exact (or_iff_right (Ne.symm hij)).symm
  nodup := List.nodup_cons.mpr ⟨ho.not_mem_of_unvisited hv, ho.nodup⟩
  suffix := List.forall_mem_cons.mpr ⟨List.suffix_refl _, ho.suffix⟩

theorem looked (ho : Orderly p ⟨visits, ⟨i, parent :: pending, found⟩ :: below⟩)
    (found' : Roster (Fin n)) : Orderly p ⟨visits, ⟨i, pending, found'⟩ :: below⟩ where
  resolving_iff := ho.resolving_iff
  nodup := ho.nodup
  suffix := by
    obtain ⟨htop, hbelow⟩ := List.forall_mem_cons.mp ho.suffix
    exact List.forall_mem_cons.mpr ⟨(List.suffix_cons parent pending).trans htop, hbelow⟩

theorem closed (ho : Orderly p ⟨visits, ⟨i, pending, found⟩ :: below⟩) (l l' : List (Fin n)) :
    Orderly p ⟨visits.put i (.done l), returnTo l' below⟩ where
  resolving_iff j := by
    rw [Vector.get_put, map_revision_returnTo]
    by_cases hij : i = j
    · subst hij
      rw [if_pos rfl]
      exact iff_of_false nofun ho.not_mem_below
    · rw [if_neg hij, ho.resolving_iff j, List.map_cons, List.mem_cons]
      exact or_iff_right (Ne.symm hij)
  nodup := by
    rw [map_revision_returnTo]
    exact (List.nodup_cons.mp ho.nodup).2
  suffix := (forall_mem_returnTo (P := fun j pending => pending <:+ p.parents.get j)).mpr
    (List.forall_mem_cons.mp ho.suffix).2

/-- Of the frames only the topmost is one of its revision. -/
theorem forall_top (ho : Orderly p ⟨visits, ⟨i, pending, found⟩ :: below⟩)
    (P : List (Fin n) → Prop) :
    (∀ f ∈ (⟨i, pending, found⟩ :: below : List (Frame n)), f.revision = i → P f.pending) ↔
      P pending := by
  rw [List.forall_mem_cons, imp_iff_right rfl, and_iff_left_iff_imp]
  intro _ f hf hi
  exact absurd (List.mem_map.mpr ⟨f, hf, hi⟩) ho.not_mem_below

theorem move {w w' : Walk n} {events : List (Event n)} (ho : Orderly p w)
    (hm : Move p w events w') : Orderly p w' := by
  cases hm with
  | close visits i found below => exact ho.closed _ _
  | look visits i parent pending found found' below => exact ho.looked found'
  | descend hv i pending found below => exact (ho.looked found).opened hv

end Orderly

/-! ### The log -/

theorem mem_snoc {a b : Event n} {log : List (Event n)} (hab : a ≠ b) :
    a ∈ log ++ [b] ↔ a ∈ log := by
  rw [List.mem_append, List.mem_singleton, or_iff_left hab]

theorem nodup_snoc {a : Event n} {log : List (Event n)} (hlog : log.Nodup) (ha : a ∉ log) :
    (log ++ [a]).Nodup := by
  rw [← List.concat_eq_append]
  exact hlog.concat ha

/-- What the log tells of a walk: which revisions were opened and which closed, and which of their
parents were looked at.  It tells nothing twice. -/
structure Tells (p : Pedigree n) (w : Walk n) (log : List (Event n)) : Prop where
  nodup : log.Nodup
  opened_iff : ∀ i, .opened i ∈ log ↔ w.visits.get i ≠ .unvisited
  closed_iff : ∀ i, .closed i ∈ log ↔ ∃ found, w.visits.get i = .done found
  looked_iff : ∀ i k, .looked i k ∈ log ↔
    w.visits.get i ≠ .unvisited ∧ k < (p.parents.get i).length ∧
      ∀ f ∈ w.frames, f.revision = i → k < nextPlace p i f.pending

namespace Tells

variable {visits : Vector (Visit n) n} {frames below : List (Frame n)} {i parent : Fin n}
  {pending : List (Fin n)} {found : Roster (Fin n)} {log : List (Event n)}

theorem unexplored (p : Pedigree n) : Tells p ⟨Pedigree.unexplored, []⟩ [] where
  nodup := List.nodup_nil
  opened_iff i := iff_of_false List.not_mem_nil (not_not_intro (Pedigree.get_unexplored i))
  closed_iff i := by
    rw [Pedigree.get_unexplored]
    exact iff_of_false List.not_mem_nil nofun
  looked_iff i k :=
    iff_of_false List.not_mem_nil fun hlooked => hlooked.1 (Pedigree.get_unexplored i)

theorem opened_not_mem (ht : Tells p ⟨visits, frames⟩ log) (hv : visits.get i = .unvisited) :
    .opened i ∉ log :=
  fun hi => (ht.opened_iff i).mp hi hv

/-- The next pending parent was not looked at before. -/
theorem looked_not_mem (ht : Tells p ⟨visits, ⟨i, pending, found⟩ :: below⟩ log) :
    .looked i (nextPlace p i pending) ∉ log := by
  intro hi
  obtain ⟨-, -, hframes⟩ := (ht.looked_iff _ _).mp hi
  exact Nat.lt_irrefl _ (hframes _ List.mem_cons_self rfl)

theorem closed_not_mem (ho : Orderly p ⟨visits, ⟨i, pending, found⟩ :: below⟩)
    (ht : Tells p ⟨visits, ⟨i, pending, found⟩ :: below⟩ log) : .closed i ∉ log := by
  rw [ht.closed_iff, ho.get_top]
  rintro ⟨_, hdone⟩
  cases hdone

theorem opened (ht : Tells p ⟨visits, frames⟩ log) (hv : visits.get i = .unvisited) :
    Tells p ⟨visits.put i .resolving, p.openFrame i :: frames⟩ (log ++ [.opened i]) where
  nodup := nodup_snoc ht.nodup (ht.opened_not_mem hv)
  opened_iff j := by
    rw [List.mem_append, List.mem_singleton, Event.opened.injEq, ht.opened_iff, Vector.get_put]
    by_cases hij : i = j
    · rw [if_pos hij]
      exact iff_of_true (Or.inr hij.symm) nofun
    · rw [if_neg hij]
      exact or_iff_left (Ne.symm hij)
  closed_iff j := by
    rw [mem_snoc (by nofun), ht.closed_iff, Vector.get_put]
    by_cases hij : i = j
    · rw [if_pos hij, ← hij, hv]
      exact iff_of_false nofun nofun
    · rw [if_neg hij]
  looked_iff j k := by
    rw [mem_snoc (by nofun), ht.looked_iff, Vector.get_put]
    by_cases hij : i = j
    · subst hij
      -- none of the parents of a revision that was just opened was looked at
      refine iff_of_false (fun hlooked => hlooked.1 hv) ?_
      rintro ⟨-, -, hframes⟩
      have hlt := hframes _ List.mem_cons_self rfl
      rw [Pedigree.openFrame, nextPlace, Nat.sub_self] at hlt
      exact Nat.not_lt_zero k hlt
    · rw [if_neg hij, forall_frames_cons (P := fun pending => k < nextPlace p j pending) hij]

theorem looked (ho : Orderly p ⟨visits, ⟨i, parent :: pending, found⟩ :: below⟩)
    (ht : Tells p ⟨visits, ⟨i, parent :: pending, found⟩ :: below⟩ log)
    (found' : Roster (Fin n)) :
    Tells p ⟨visits, ⟨i, pending, found'⟩ :: below⟩
      (log ++ [.looked i (nextPlace p i (parent :: pending))]) where
  nodup := nodup_snoc ht.nodup ht.looked_not_mem
  opened_iff j := by rw [mem_snoc (by nofun), ht.opened_iff]
  closed_iff j := by rw [mem_snoc (by nofun), ht.closed_iff]
  looked_iff j k := by
    rw [List.mem_append, List.mem_singleton, Event.looked.injEq, ht.looked_iff]
    by_cases hij : i = j
    · subst hij
      have hlt := nextPlace_lt ho.suffix_top
      have hnext := nextPlace_cons ho.suffix_top
      have hres : visits.get i ≠ .unvisited := by
        rw [ho.get_top]
        exact nofun
      rw [ho.forall_top fun pending => k < nextPlace p i pending,
        (ho.looked found').forall_top fun pending => k < nextPlace p i pending,
        and_iff_right rfl, and_iff_right hres, and_iff_right hres]
      omega
    · rw [forall_frames_cons (P := fun pending => k < nextPlace p j pending) hij,
        forall_frames_cons (P := fun pending => k < nextPlace p j pending) hij]
      exact or_iff_left fun hj => hij hj.1.symm

theorem closed (ho : Orderly p ⟨visits, ⟨i, [], found⟩ :: below⟩)
    (ht : Tells p ⟨visits, ⟨i, [], found⟩ :: below⟩ log) (l l' : List (Fin n)) :
    Tells p ⟨visits.put i (.done l), returnTo l' below⟩ (log ++ [.closed i]) where
  nodup := nodup_snoc ht.nodup (ht.closed_not_mem ho)
  opened_iff j := by
    rw [mem_snoc (by nofun), ht.opened_iff, Vector.get_put]
    by_cases hij : i = j
    · rw [if_pos hij, ← hij, ho.get_top]
      exact iff_of_true nofun nofun
    · rw [if_neg hij]
  closed_iff j := by
    rw [List.mem_append, List.mem_singleton, Event.closed.injEq, ht.closed_iff, Vector.get_put]
    by_cases hij : i = j
    · rw [if_pos hij]
      exact iff_of_true (Or.inr hij.symm) ⟨l, rfl⟩
    · rw [if_neg hij]
      exact or_iff_left (Ne.symm hij)
  looked_iff j k := by
    rw [mem_snoc (by nofun), ht.looked_iff, Vector.get_put,
      forall_mem_returnTo (P := fun j' pending => j' = j → k < nextPlace p j pending)]
    by_cases hij : i = j
    · subst hij
      -- all parents of a revision that is closed were looked at, and it is on the stack no longer
      have hbelow : ∀ f ∈ below, f.revision = i → k < nextPlace p i f.pending :=
        fun f hf hi => absurd (List.mem_map.mpr ⟨f, hf, hi⟩) ho.not_mem_below
      rw [ho.forall_top fun pending => k < nextPlace p i pending, if_pos rfl, ho.get_top,
        and_iff_left hbelow]
      exact and_congr (iff_of_true nofun nofun) (and_iff_left_of_imp id)
    · rw [if_neg hij, forall_frames_cons (P := fun pending => k < nextPlace p j pending) hij]

theorem move {w w' : Walk n} {events : List (Event n)} (ho : Orderly p w) (ht : Tells p w log)
    (hm : Move p w events w') : Tells p w' (log ++ events) := by
  cases hm with
  | close visits i found below => exact ht.closed ho _ _
  | look visits i parent pending found found' below => exact ht.looked ho found'
  | @descend visits parent hv i pending found below =>
    have hlog : log ++ [.looked i (nextPlace p i (parent :: pending)), .opened parent] =
        (log ++ [.looked i (nextPlace p i (parent :: pending))]) ++ [.opened parent] := by
      rw [List.append_assoc, List.singleton_append]
    rw [hlog]
    exact (ht.looked ho found).opened hv

end Tells

namespace Reaches

variable {roots rest : List (Fin n)} {w : Walk n} {log : List (Event n)}

theorem orderly (hr : Reaches p roots rest w log) : Orderly p w := by
  induction hr with
  | start => exact .unexplored p
  | known _ _ ih => exact ih
  | enter _ hroot ih => exact ih.opened (ih.unvisited hroot)
  | step _ hw ih => exact ih.move (move_step p hw)

theorem tells (hr : Reaches p roots rest w log) : Tells p w log := by
  induction hr with
  | start => exact .unexplored p
  | known _ _ ih => exact ih
  | enter hr hroot ih => exact ih.opened (hr.orderly.unvisited hroot)
  | step hr hw ih => exact ih.move hr.orderly (move_step p hw)

/-- A walk that is reached comes to its end. -/
theorem run {log : List (Event n)} (hr : Reaches p roots rest w log) :
    ∃ visits log', Walk.run p w = ⟨visits, []⟩ ∧ Reaches p roots rest (Walk.run p w) log' := by
  obtain ⟨k, hk, hend⟩ := exists_run_eq_iterate p w
  have hreached : ∃ log', Reaches p roots rest ((Walk.step p)^[k] w) log' :=
    iterate_of_step (P := fun v => ∃ log', Reaches p roots rest v log')
      (fun _ hv ⟨_, hr'⟩ => ⟨_, hr'.step hv⟩) ⟨log, hr⟩ k
  obtain ⟨log', hr'⟩ := hreached
  rw [← hk] at hr'
  exact ⟨(Walk.run p w).visits, log', congrArg (Walk.mk _) hend, hr'⟩

/-- One more revision is resolved. -/
theorem resolve {root : Fin n} {visits : Vector (Visit n) n}
    (hr : Reaches p roots (root :: rest) ⟨visits, []⟩ log) :
    ∃ log', Reaches p roots rest ⟨p.resolve visits root, []⟩ log' := by
  cases hroot : (visits.get root).ancestors? with
  | some found =>
    have hdone := Visit.eq_done_of_ancestors? hroot
    rw [p.resolve_of_done hdone]
    exact ⟨log, hr.known hdone⟩
  | none =>
    obtain ⟨visits', log', hrun, hr'⟩ := (hr.enter hroot).run
    rw [p.resolve_of_not_done hroot, hrun]
    rw [hrun] at hr'
    exact ⟨log', hr'⟩

end Reaches

/-! ### What is left to do -/

/-- Everything there is to do: the parents in all lists are to be looked at, and every revision is
to be closed. -/
def toDo (p : Pedigree n) : Finset (Event n) :=
  Finset.univ.biUnion fun i =>
    insert (.closed i) ((Finset.range (p.parents.get i).length).image (.looked i))

/-- The number of things to do that are not in the log. -/
def left (p : Pedigree n) (log : List (Event n)) : Nat :=
  (toDo p \ log.toFinset).card

theorem mem_toDo {a : Event n} : a ∈ toDo p ↔
    ∃ i, a = .closed i ∨ ∃ k < (p.parents.get i).length, .looked i k = a := by
  simp only [toDo, Finset.mem_biUnion, Finset.mem_univ, true_and, Finset.mem_insert,
    Finset.mem_image, Finset.mem_range]

theorem closed_mem_toDo (p : Pedigree n) (i : Fin n) : .closed i ∈ toDo p :=
  mem_toDo.mpr ⟨i, Or.inl rfl⟩

theorem looked_mem_toDo {i : Fin n} {k : Nat} (hk : k < (p.parents.get i).length) :
    .looked i k ∈ toDo p :=
  mem_toDo.mpr ⟨i, Or.inr ⟨k, hk, rfl⟩⟩

theorem opened_not_mem_toDo (p : Pedigree n) (i : Fin n) : .opened i ∉ toDo p := by
  rw [mem_toDo]
  rintro ⟨j, h | ⟨k, -, h⟩⟩ <;> cases h

theorem card_toDo (p : Pedigree n) :
    (toDo p).card = ∑ i, ((p.parents.get i).length + 1) := by
  rw [toDo, Finset.card_biUnion]
  · refine Finset.sum_congr rfl fun i _ => ?_
    rw [Finset.card_insert_of_notMem, Finset.card_image_of_injective, Finset.card_range]
    · intro k l hkl
      cases hkl
      rfl
    · intro hmem
      obtain ⟨k, -, hk⟩ := Finset.mem_image.mp hmem
      cases hk
  · intro i _ j _ hij
    refine Finset.disjoint_left.mpr fun a hi hj => ?_
    rw [Finset.mem_insert, Finset.mem_image] at hi hj
    obtain rfl | ⟨k, -, rfl⟩ := hi <;> obtain h | ⟨l, -, h⟩ := hj <;> cases h <;> exact hij rfl

theorem left_snoc {a : Event n} {log : List (Event n)} (ha : a ∈ toDo p) (hlog : a ∉ log) :
    left p (log ++ [a]) + 1 = left p log := by
  have hmem : a ∈ toDo p \ log.toFinset :=
    Finset.mem_sdiff.mpr ⟨ha, fun h => hlog (List.mem_toFinset.mp h)⟩
  have hsnoc : toDo p \ (log ++ [a]).toFinset = (toDo p \ log.toFinset).erase a := by
    ext b
    simp only [Finset.mem_sdiff, List.mem_toFinset, List.mem_append, List.mem_singleton,
      Finset.mem_erase]
    tauto
  rw [left, left, hsnoc, Finset.card_erase_add_one hmem]

theorem left_snoc_opened (p : Pedigree n) (log : List (Event n)) (i : Fin n) :
    left p (log ++ [.opened i]) = left p log := by
  have hsnoc : toDo p \ (log ++ [Event.opened i]).toFinset = toDo p \ log.toFinset := by
    ext b
    simp only [Finset.mem_sdiff, List.mem_toFinset, List.mem_append, List.mem_singleton]
    refine and_congr_right fun hb => not_congr (or_iff_left fun he => ?_)
    exact opened_not_mem_toDo p i (he ▸ hb)
  rw [left, left, hsnoc]

theorem unopened_eq_sum (p : Pedigree n) (visits : Vector (Visit n) n) :
    unopened p visits = ∑ i, unopenedAt p visits i := by
  rw [Fin.sum_univ_def]
  rfl

/-- Only the revision that is marked makes a difference to what is left in unvisited ones. -/
theorem unopened_put (p : Pedigree n) (visits : Vector (Visit n) n) (i : Fin n) (v : Visit n) :
    unopened p (visits.put i v) + unopenedAt p visits i =
      unopened p visits + unopenedAt p (visits.put i v) i := by
  have hrest : ∑ j ∈ Finset.univ.erase i, unopenedAt p (visits.put i v) j =
      ∑ j ∈ Finset.univ.erase i, unopenedAt p visits j := by
    refine Finset.sum_congr rfl fun j hj => ?_
    rw [unopenedAt, Vector.get_put, if_neg (Finset.ne_of_mem_erase hj).symm, ← unopenedAt]
  rw [unopened_eq_sum, unopened_eq_sum, ← Finset.add_sum_erase _ _ (Finset.mem_univ i),
    ← Finset.add_sum_erase Finset.univ (unopenedAt p visits) (Finset.mem_univ i), hrest]
  omega

/-- Opening a revision leaves as much to do as before. -/
theorem work_opened {visits : Vector (Visit n) n} {i : Fin n} (hv : visits.get i = .unvisited)
    (frames : List (Frame n)) :
    work p ⟨visits.put i .resolving, p.openFrame i :: frames⟩ = work p ⟨visits, frames⟩ := by
  have hput := unopened_put p visits i .resolving
  simp only [unopenedAt, hv, Vector.get_put, if_pos] at hput
  simp only [work, openWork, Pedigree.openFrame, List.map_cons, List.foldr_cons]
  omega

theorem work_looked (p : Pedigree n) (visits : Vector (Visit n) n) (i parent : Fin n)
    (pending : List (Fin n)) (found found' : Roster (Fin n)) (below : List (Frame n)) :
    work p ⟨visits, ⟨i, pending, found'⟩ :: below⟩ + 1 =
      work p ⟨visits, ⟨i, parent :: pending, found⟩ :: below⟩ := by
  simp only [work, openWork, List.map_cons, List.foldr_cons, List.length_cons]
  omega

theorem work_closed {visits : Vector (Visit n) n} {i : Fin n} (hv : visits.get i = .resolving)
    (l l' : List (Fin n)) (found : Roster (Fin n)) (below : List (Frame n)) :
    work p ⟨visits.put i (.done l), returnTo l' below⟩ + 1 =
      work p ⟨visits, ⟨i, [], found⟩ :: below⟩ := by
  have hput := unopened_put p visits i (.done l)
  simp only [unopenedAt, hv, Vector.get_put, if_pos] at hput
  simp only [work, openWork_returnTo]
  simp only [openWork, List.map_cons, List.foldr_cons, List.length_nil]
  omega

theorem left_looked {visits : Vector (Visit n) n} {below : List (Frame n)} {i parent : Fin n}
    {pending : List (Fin n)} {found : Roster (Fin n)} {log : List (Event n)}
    (ho : Orderly p ⟨visits, ⟨i, parent :: pending, found⟩ :: below⟩)
    (ht : Tells p ⟨visits, ⟨i, parent :: pending, found⟩ :: below⟩ log) :
    left p (log ++ [.looked i (nextPlace p i (parent :: pending))]) + 1 = left p log :=
  left_snoc (looked_mem_toDo (nextPlace_lt ho.suffix_top)) ht.looked_not_mem

/-- What is done in a step is left no longer. -/
theorem work_eq_move {w w' : Walk n} {log events : List (Event n)} (ho : Orderly p w)
    (ht : Tells p w log) (hw : work p w = left p log) (hm : Move p w events w') :
    work p w' = left p (log ++ events) := by
  cases hm with
  | close visits i found below =>
    have hwork := work_closed (p := p) ho.get_top found.toList found.toList found below
    have hleft := left_snoc (closed_mem_toDo p i) (ht.closed_not_mem ho)
    omega
  | look visits i parent pending found found' below =>
    have hwork := work_looked p visits i parent pending found found' below
    have hleft := left_looked ho ht
    omega
  | @descend visits parent hv i pending found below =>
    have hopen := work_opened (p := p) hv (⟨i, pending, found⟩ :: below)
    have hwork := work_looked p visits i parent pending found found below
    have hleft := left_looked ho ht
    have hleft' := left_snoc_opened p
      (log ++ [.looked i (nextPlace p i (parent :: pending))]) parent
    rw [List.append_assoc, List.singleton_append] at hleft'
    omega

/-- The work of a walk is the number of things that are left to do. -/
theorem Reaches.work_eq {roots rest : List (Fin n)} {w : Walk n} {log : List (Event n)}
    (hr : Reaches p roots rest w log) : work p w = left p log := by
  induction hr with
  | start =>
    have hopen : openWork ([] : List (Frame n)) = 0 := rfl
    rw [left, List.toFinset_nil, Finset.sdiff_empty, card_toDo, work, unopened_eq_sum, hopen,
      Nat.add_zero]
    refine Finset.sum_congr rfl fun i _ => ?_
    rw [unopenedAt, Pedigree.get_unexplored]
  | known _ _ ih => exact ih
  | enter hr hroot ih => rw [work_opened (hr.orderly.unvisited hroot), left_snoc_opened, ih]
  | step hr hw ih => exact work_eq_move hr.orderly hr.tells ih (move_step p hw)

end Walk

/-- A survey resolves its revisions one after the other. -/
theorem Survey.exists_reaches {n : Nat} {p : Pedigree n} {roots rest : List (Fin n)}
    {visits : Vector (Visit n) n} {log : List (Walk.Event n)} (ancestors : Array (List (Fin n)))
    (hr : Walk.Reaches p roots rest ⟨visits, []⟩ log) :
    ∃ log', Walk.Reaches p roots []
      ⟨(rest.foldl (add p) ⟨visits, ancestors⟩).visits, []⟩ log' := by
  induction rest generalizing visits log ancestors with
  | nil => exact ⟨log, hr⟩
  | cons root rest ih =>
    rw [List.foldl_cons, add]
    obtain ⟨log', hr'⟩ := hr.resolve
    exact ih _ hr'

end MetricHistory
