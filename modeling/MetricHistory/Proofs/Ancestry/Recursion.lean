import MetricHistory.Proofs.Ancestry.Lineage
import Mathlib.Data.Finset.Basic
import Mathlib.Logic.Function.Basic

/-!
# The nearest ancestors by recursion

The plain definition of the minimal edges: the ancestors of a revision are collected from its direct
parents, where an unmeasured parent is asked for its own ancestors in turn.  One memo of the
finished revisions and one set of marks on the revisions that are being resolved are kept across all
points.

* `History.nearest`: the recursion.  Nothing in it bounds its depth, so that it has a result only
  where it comes to an end.
* `History.recursiveEdges`: the edges of all points.
* `History.Collected`: the course of a recursion that has come to an end, for proofs by induction.
* `Collected.nearest_eq`, `Surveyed.recursiveBlocks_eq`: the recursion has the result of its course.
* `Collected.unique`, `Surveyed.unique`: there is no other course.
-/

namespace MetricHistory

/-- What the recursion keeps from one revision to the next. -/
structure Notes where
  /-- The ancestors of each finished revision. -/
  memo : String → Option (List String)
  /-- The revisions that are being resolved. -/
  resolving : Finset String

namespace Notes

/-- Nothing is noted. -/
def blank : Notes :=
  { memo := fun _ => none, resolving := ∅ }

/-- The revision is being resolved from now on. -/
def opened (s : Notes) (rev : String) : Notes :=
  { s with resolving := insert rev s.resolving }

/-- The revision is finished, with these ancestors. -/
def closed (s : Notes) (rev : String) (found : List String) : Notes :=
  { memo := Function.update s.memo rev (some found), resolving := s.resolving.erase rev }

@[simp] theorem memo_opened (s : Notes) (rev : String) : (s.opened rev).memo = s.memo :=
  rfl

@[simp] theorem resolving_opened (s : Notes) (rev : String) :
    (s.opened rev).resolving = insert rev s.resolving :=
  rfl

@[simp] theorem memo_closed (s : Notes) (rev : String) (found : List String) :
    (s.closed rev found).memo = Function.update s.memo rev (some found) :=
  rfl

@[simp] theorem resolving_closed (s : Notes) (rev : String) (found : List String) :
    (s.closed rev found).resolving = s.resolving.erase rev :=
  rfl

end Notes

namespace History

/-! ### The recursion -/

/-- The nearest measured ancestors of a revision, in the order in which they are found.  Its parents
are looked at one after the other: a measured one counts for itself, a finished one for its
ancestors, one that is being resolved for nothing, and any other for what the recursion finds. -/
def nearest (h : History) (rev : String) (s : Notes) : Option (List String × Notes) := do
  let (found, s) ← (h.parentsOf rev).foldlM
    (fun (found, s) parent =>
      if h.IsMeasured parent then some (appendNew found [parent], s)
      else
        match s.memo parent with
        | some ancestors => some (appendNew found ancestors, s)
        | none =>
          if parent ∈ s.resolving then some (found, s)
          else do
            let (ancestors, s) ← h |>.nearest parent s
            some (appendNew found ancestors, s))
    ([], s.opened rev)
  some (found, s.closed rev found)
partial_fixpoint

/-- What looking at one more parent adds to what was found. -/
def look (h : History) : List String × Notes → String → Option (List String × Notes)
  | (found, s), parent =>
    if h.IsMeasured parent then some (appendNew found [parent], s)
    else
      match s.memo parent with
      | some ancestors => some (appendNew found ancestors, s)
      | none =>
        if parent ∈ s.resolving then some (found, s)
        else do
          let (ancestors, s) ← h.nearest parent s
          some (appendNew found ancestors, s)

theorem nearest_eq (h : History) (rev : String) (s : Notes) :
    h.nearest rev s = ((h.parentsOf rev).foldlM h.look ([], s.opened rev)).bind
      fun (found, s) => some (found, s.closed rev found) := by
  rw [nearest]
  rfl

/-- The nearest ancestors of a revision that may be finished already. -/
def resolve (h : History) (rev : String) (s : Notes) : Option (List String × Notes) :=
  match s.memo rev with
  | some ancestors => some (ancestors, s)
  | none => h.nearest rev s

/-- The edges of each point, from the first to the last. -/
def recursiveBlocks (h : History) : List Point → Notes → Option (List (List MinimalEdge))
  | [], _ => some []
  | point :: points, s => do
    let (ancestors, s) ← h.resolve point.revId s
    let blocks ← recursiveBlocks h points s
    some ((ancestors.map fun a => ⟨a, point.revId⟩) :: blocks)

/-- The minimal edges of a history by recursion, point after point. -/
def recursiveEdges (h : History) : Option (List MinimalEdge) :=
  (h.recursiveBlocks h.points Notes.blank).map List.flatten

/-! ### The course of a recursion -/

/-- `Collected h parents found s found' s'`: collecting from `parents` leads from `found` and `s` to
`found'` and `s'`. -/
inductive Collected (h : History) :
    List String → List String → Notes → List String → Notes → Prop where
  | nil (found : List String) (s : Notes) : Collected h [] found s found s
  | measured {parent : String} {parents found found' : List String} {s s' : Notes}
      (hm : h.IsMeasured parent)
      (rest : Collected h parents (appendNew found [parent]) s found' s') :
      Collected h (parent :: parents) found s found' s'
  | finished {parent : String} {parents found ancestors found' : List String} {s s' : Notes}
      (hm : ¬ h.IsMeasured parent) (hmemo : s.memo parent = some ancestors)
      (rest : Collected h parents (appendNew found ancestors) s found' s') :
      Collected h (parent :: parents) found s found' s'
  | resolving {parent : String} {parents found found' : List String} {s s' : Notes}
      (hm : ¬ h.IsMeasured parent) (hmemo : s.memo parent = none)
      (hres : parent ∈ s.resolving)
      (rest : Collected h parents found s found' s') :
      Collected h (parent :: parents) found s found' s'
  | unvisited {parent : String} {parents found ancestors found' : List String} {s t s' : Notes}
      (hm : ¬ h.IsMeasured parent) (hmemo : s.memo parent = none)
      (hres : parent ∉ s.resolving)
      (own : Collected h (h.parentsOf parent) [] (s.opened parent) ancestors t)
      (rest : Collected h parents (appendNew found ancestors) (t.closed parent ancestors)
        found' s') :
      Collected h (parent :: parents) found s found' s'

/-- `Surveyed h revs s lists s'`: resolving the revisions one after the other leads from `s` to
`s'` and finds `lists`. -/
inductive Surveyed (h : History) :
    List String → Notes → List (List String) → Notes → Prop where
  | nil (s : Notes) : Surveyed h [] s [] s
  | finished {rev : String} {revs ancestors : List String} {lists : List (List String)}
      {s s' : Notes} (hmemo : s.memo rev = some ancestors)
      (rest : Surveyed h revs s lists s') :
      Surveyed h (rev :: revs) s (ancestors :: lists) s'
  | unvisited {rev : String} {revs ancestors : List String} {lists : List (List String)}
      {s t s' : Notes} (hmemo : s.memo rev = none)
      (own : Collected h (h.parentsOf rev) [] (s.opened rev) ancestors t)
      (rest : Surveyed h revs (t.closed rev ancestors) lists s') :
      Surveyed h (rev :: revs) s (ancestors :: lists) s'

/-- A course of the recursion is how it runs. -/
theorem Collected.foldlM_look {h : History} {parents found found' : List String} {s s' : Notes}
    (hc : h.Collected parents found s found' s') :
    parents.foldlM h.look (found, s) = some (found', s') := by
  induction hc with
  | nil found s => rfl
  | measured hm rest ih =>
    rw [List.foldlM_cons, look, if_pos hm]
    exact ih
  | finished hm hmemo rest ih =>
    rw [List.foldlM_cons, look, if_neg hm, hmemo]
    exact ih
  | resolving hm hmemo hres rest ih =>
    rw [List.foldlM_cons, look, if_neg hm, hmemo]
    simp only [if_pos hres]
    exact ih
  | unvisited hm hmemo hres own rest ihown ihrest =>
    rw [List.foldlM_cons, look, if_neg hm, hmemo]
    simp only [if_neg hres, nearest_eq, ihown]
    exact ihrest

/-- The nearest ancestors of a revision are found on a course of the recursion. -/
theorem Collected.nearest_eq {h : History} {rev : String} {found : List String} {s s' : Notes}
    (hc : h.Collected (h.parentsOf rev) [] (s.opened rev) found s') :
    h.nearest rev s = some (found, s'.closed rev found) := by
  rw [History.nearest_eq, hc.foldlM_look]
  rfl

/-- The blocks of a survey are those of the recursion. -/
theorem Surveyed.recursiveBlocks_eq {h : History} {points : List Point} {s s' : Notes}
    {lists : List (List String)} (hs : h.Surveyed (points.map (·.revId)) s lists s') :
    h.recursiveBlocks points s =
      some (List.zipWith (fun point ancestors => ancestors.map fun a => ⟨a, point.revId⟩)
        points lists) := by
  induction points generalizing s lists with
  | nil => cases hs; rfl
  | cons point points ih =>
    cases hs with
    | finished hmemo rest =>
      rw [recursiveBlocks, resolve, hmemo]
      simp only [Option.bind_eq_bind, Option.bind_some, ih rest, List.zipWith_cons_cons]
    | unvisited hmemo own rest =>
      rw [recursiveBlocks, resolve, hmemo]
      simp only [own.nearest_eq, Option.bind_eq_bind, Option.bind_some, ih rest,
        List.zipWith_cons_cons]

/-! ### One course only -/

theorem Collected.unique {h : History} {parents found found₁ found₂ : List String}
    {s s₁ s₂ : Notes} (hc : h.Collected parents found s found₁ s₁)
    (hc' : h.Collected parents found s found₂ s₂) : found₁ = found₂ ∧ s₁ = s₂ := by
  have hsame := hc.foldlM_look
  rw [hc'.foldlM_look, Option.some.injEq, Prod.mk.injEq] at hsame
  exact ⟨hsame.1.symm, hsame.2.symm⟩

/-- What a survey finds and notes is told by where it begins. -/
theorem Surveyed.unique {h : History} {revs : List String} {lists₁ lists₂ : List (List String)}
    {s s₁ s₂ : Notes} (hs : h.Surveyed revs s lists₁ s₁) (hs' : h.Surveyed revs s lists₂ s₂) :
    lists₁ = lists₂ ∧ s₁ = s₂ := by
  induction hs generalizing lists₂ with
  | nil =>
    cases hs'
    exact ⟨rfl, rfl⟩
  | finished hmemo _ ih =>
    cases hs' with
    | finished hmemo' hrest =>
      rw [hmemo, Option.some.injEq] at hmemo'
      obtain ⟨rfl, rfl⟩ := ih hrest
      exact ⟨by rw [hmemo'], rfl⟩
    | unvisited hnone _ _ =>
      rw [hmemo] at hnone
      cases hnone
  | unvisited hnone own _ ih =>
    cases hs' with
    | finished hmemo _ =>
      rw [hnone] at hmemo
      cases hmemo
    | unvisited _ own' hrest =>
      obtain ⟨rfl, rfl⟩ := own.unique own'
      obtain ⟨rfl, rfl⟩ := ih hrest
      exact ⟨rfl, rfl⟩

end History

end MetricHistory
