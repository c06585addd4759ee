import MetricHistory.Ancestry.Pedigree

/-!
## The walk to the nearest measured ancestors

From a revision the walk goes back through unmeasured revisions and stops at measured ones.  A
parent that is measured counts itself, one that is not counts for its own nearest measured
ancestors, and these are kept, so that no revision is walked through twice.  A revision that is
reached again while it is still being resolved counts for nothing, which ends the walk on cycles.

The revisions that are being resolved stand on an explicit stack, so that the depth of a history is
not bounded by the depth of recursion.

* `Walk.step`: looks at one parent of the topmost revision, or closes it when none is left.
* `Walk.work`: the parents not yet looked at and the revisions not yet closed.
* `Walk.work_step_lt`: a step does some of that work, so that `Walk.run` comes to an end.
* `Pedigree.resolve`: what is known of all revisions once those before and `root` are resolved.
-/

namespace MetricHistory

/-- What is known of a revision. -/
inductive Visit (n : Nat) where
  /-- The walk has not come by. -/
  | unvisited
  /-- The revision stands on the stack. -/
  | resolving
  /-- Its nearest measured ancestors, in the order in which they were found. -/
  | done (found : List (Fin n))

/-- The ancestors that are known. -/
def Visit.found {n : Nat} : Visit n → List (Fin n)
  | .done found => found
  | _ => []

/-- A revision that is being resolved: the parents still to look at, and the ancestors found so
far. -/
structure Frame (n : Nat) where
  revision : Fin n
  pending : List (Fin n)
  found : Roster (Fin n)

/-- A revision of which no parent was looked at yet. -/
def Pedigree.openFrame {n : Nat} (p : Pedigree n) (i : Fin n) : Frame n :=
  { revision := i, pending := p.parents.get i, found := Roster.empty }

/-- A walk in progress: what is known of each revision, and those being resolved, the latest
first. -/
structure Walk (n : Nat) where
  visits : Vector (Visit n) n
  frames : List (Frame n)

namespace Walk

variable {n : Nat}

/-- The frames after the topmost is closed: what it found counts for the one below. -/
def returnTo (found : List (Fin n)) : List (Frame n) → List (Frame n)
  | [] => []
  | caller :: below => { caller with found := caller.found.enterAll found } :: below

/-- Looks at the next parent of the topmost revision, or closes that revision when all were looked
at. -/
def step (p : Pedigree n) (w : Walk n) : Walk n :=
  match w with
  | ⟨visits, []⟩ => ⟨visits, []⟩
  -- every parent was looked at: the revision is closed
  | ⟨visits, ⟨revision, [], found⟩ :: below⟩ =>
    let ancestors := found.toList
    ⟨visits.put revision (.done ancestors), returnTo ancestors below⟩
  | ⟨visits, ⟨revision, parent :: pending, found⟩ :: below⟩ =>
    if p.measured.get parent then
      ⟨visits, ⟨revision, pending, found.enter parent⟩ :: below⟩
    else
      match visits.get parent with
      | .done ancestors => ⟨visits, ⟨revision, pending, found.enterAll ancestors⟩ :: below⟩
      -- a cycle of unmeasured revisions: the parent is further down the stack
      | .resolving => ⟨visits, ⟨revision, pending, found⟩ :: below⟩
      | .unvisited =>
        ⟨visits.put parent .resolving,
          p.openFrame parent :: ⟨revision, pending, found⟩ :: below⟩

/-! ### The walk ends -/

/-- The work that a revision stands for as long as the walk has not come by: its parents are to be
looked at, and it is to be closed. -/
def unopenedAt (p : Pedigree n) (visits : Vector (Visit n) n) (i : Fin n) : Nat :=
  match visits.get i with
  | .unvisited => (p.parents.get i).length + 1
  | _ => 0

/-- The work left in revisions that the walk has not come by. -/
def unopened (p : Pedigree n) (visits : Vector (Visit n) n) : Nat :=
  ((List.finRange n).map (unopenedAt p visits)).foldr (· + ·) 0

/-- The work left in revisions that are being resolved. -/
def openWork (frames : List (Frame n)) : Nat :=
  (frames.map fun f => f.pending.length + 1).foldr (· + ·) 0

/-- The parents not yet looked at and the revisions not yet closed. -/
def work (p : Pedigree n) (w : Walk n) : Nat :=
  unopened p w.visits + openWork w.frames

/-- A sum falls by at least as much as one of its terms, if no term rises. -/
theorem sum_map_add_le {α : Type} {f g : α → Nat} {a : α} {c : Nat} :
    ∀ {l : List α}, a ∈ l → (∀ b, g b ≤ f b) → g a + c ≤ f a →
      (l.map g).foldr (· + ·) 0 + c ≤ (l.map f).foldr (· + ·) 0 := by
  intro l
  induction l with
  | nil => simp
  | cons b rest ih =>
    intro ha hle hc
    have hrest : (rest.map g).foldr (· + ·) 0 ≤ (rest.map f).foldr (· + ·) 0 := by
      clear ih ha
      induction rest with
      | nil => simp
      | cons d ds ihd => simp only [List.map_cons, List.foldr_cons]; have := hle d; omega
    simp only [List.map_cons, List.foldr_cons]
    have hb := hle b
    rcases List.mem_cons.1 ha with rfl | ha
    · omega
    · have := ih ha hle hc; omega

/-- Whatever becomes of a revision that was come by, no work is added. -/
theorem unopenedAt_set_le (p : Pedigree n) (visits : Vector (Visit n) n) (i j : Fin n)
    (v : Visit n) (hv : v ≠ .unvisited) :
    unopenedAt p (visits.put i v) j ≤ unopenedAt p visits j := by
  unfold unopenedAt
  rw [Vector.get_put]
  by_cases h : i = j
  · rw [if_pos h]
    cases v <;> simp_all
  · simp [h]

/-- Opening a revision takes its work out of the revisions not come by. -/
theorem unopened_set_resolving (p : Pedigree n) (visits : Vector (Visit n) n) (i : Fin n)
    (h : visits.get i = .unvisited) :
    unopened p (visits.put i .resolving) + ((p.parents.get i).length + 1) ≤
      unopened p visits := by
  apply sum_map_add_le (List.mem_finRange i)
  · intro j; exact unopenedAt_set_le p visits i j _ (by simp)
  · simp [unopenedAt, Vector.get_put, h]

/-- Closing a revision adds no work to those not come by. -/
theorem unopened_set_done (p : Pedigree n) (visits : Vector (Visit n) n) (i : Fin n)
    (found : List (Fin n)) :
    unopened p (visits.put i (.done found)) ≤ unopened p visits :=
  sum_map_add_le (c := 0) (List.mem_finRange i)
    (fun j => unopenedAt_set_le p visits i j _ (by simp))
    (unopenedAt_set_le p visits i i _ (by simp))

/-- Returning ancestors to a frame leaves its pending parents alone. -/
theorem openWork_returnTo (found : List (Fin n)) (frames : List (Frame n)) :
    openWork (returnTo found frames) = openWork frames := by
  cases frames <;> rfl

/-- A step does some of the work. -/
theorem work_step_lt (p : Pedigree n) (w : Walk n) (h : w.frames ≠ []) :
    work p (step p w) < work p w := by
  obtain ⟨visits, frames⟩ := w
  match frames, h with
  | ⟨revision, [], found⟩ :: below, _ =>
    have := unopened_set_done p visits revision found.toList
    simp only [work, step, openWork_returnTo]
    simp only [openWork, List.map_cons, List.foldr_cons, List.length_nil]
    omega
  | ⟨revision, parent :: pending, found⟩ :: below, _ =>
    simp only [work, step]
    split
    · simp only [openWork, List.map_cons, List.foldr_cons, List.length_cons]; omega
    · split
      · simp only [openWork, List.map_cons, List.foldr_cons, List.length_cons]; omega
      · simp only [openWork, List.map_cons, List.foldr_cons, List.length_cons]; omega
      · next hv =>
        have := unopened_set_resolving p visits parent hv
        simp only [openWork, Pedigree.openFrame, List.map_cons, List.foldr_cons,
          List.length_cons]
        omega

/-- Steps until no revision is being resolved. -/
def run (p : Pedigree n) (w : Walk n) : Walk n :=
  if _h : w.frames = [] then w else run p (step p w)
termination_by work p w
decreasing_by exact work_step_lt p w ‹_›

end Walk

namespace Pedigree

variable {n : Nat}

/-- Nothing is known of any revision. -/
def unexplored : Vector (Visit n) n :=
  Vector.replicate n .unvisited

/-- What is known of all revisions once `root` is resolved as well. -/
def resolve (p : Pedigree n) (visits : Vector (Visit n) n) (root : Fin n) :
    Vector (Visit n) n :=
  match visits.get root with
  | .done _ => visits
  | _ => (Walk.run p ⟨visits.put root .resolving, [p.openFrame root]⟩).visits

end Pedigree

end MetricHistory
