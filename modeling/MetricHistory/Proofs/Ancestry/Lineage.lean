import MetricHistory.Ancestry.Pedigree
import MetricHistory.Proofs.Roster
import Mathlib.Logic.Relation

/-!
# The ancestry of a history

What a history says about its revisions, in terms of the revisions themselves, and what becomes of
it when they are numbered.

* `History.StepsTo`, `History.IsMeasured`: the two facts that a history records.
* `History.NearestAncestor`: a measured revision that is reached through unmeasured ones only.
* `Pedigree.map_item_parents`, `Pedigree.measured_iff`: a pedigree records the same two facts.
-/

namespace MetricHistory

namespace History

/-! ### Steps and measurements -/

/-- `parent` is a direct parent of `child`. -/
def StepsTo (h : History) (child parent : String) : Prop :=
  ⟨child, parent⟩ ∈ h.parents

/-- Some point carries the id of the revision. -/
def IsMeasured (h : History) (rev : String) : Prop :=
  ∃ point ∈ h.points, point.revId = rev

theorem isMeasured_iff_mem {h : History} {rev : String} :
    h.IsMeasured rev ↔ rev ∈ h.points.map (·.revId) :=
  List.mem_map.symm

instance (h : History) (rev : String) : Decidable (h.IsMeasured rev) :=
  inferInstanceAs (Decidable (∃ point ∈ h.points, point.revId = rev))

/-- The direct parents of a revision in the order of the edges, repeated edges included. -/
def parentsOf (h : History) (rev : String) : List String :=
  (h.parents.filter (·.child = rev)).map (·.parent)

theorem mem_parentsOf {h : History} {rev parent : String} :
    parent ∈ h.parentsOf rev ↔ h.StepsTo rev parent := by
  simp only [parentsOf, List.mem_map, List.mem_filter, decide_eq_true_eq]
  constructor
  · rintro ⟨e, ⟨he, rfl⟩, rfl⟩
    exact he
  · intro he
    exact ⟨_, ⟨he, rfl⟩, rfl⟩

/-! ### Nearest measured ancestors -/

/-- A step to an unmeasured revision. -/
def HiddenStep (h : History) (child parent : String) : Prop :=
  h.StepsTo child parent ∧ ¬ h.IsMeasured parent

/-- `ancestor` is measured, and is reached from `rev` by one or more steps between which all
revisions are unmeasured. -/
def NearestAncestor (h : History) (rev ancestor : String) : Prop :=
  h.IsMeasured ancestor ∧
    ∃ last, Relation.ReflTransGen h.HiddenStep rev last ∧ h.StepsTo last ancestor

/-- No cycle of unmeasured revisions is reached from `rev` through unmeasured revisions. -/
def NoHiddenCycle (h : History) (rev : String) : Prop :=
  ∀ u, Relation.ReflTransGen h.HiddenStep rev u → ¬ Relation.TransGen h.HiddenStep u u

/-- What a direct parent counts for: a measured one for itself, an unmeasured one for its own
nearest ancestors. -/
def CountsFor (h : History) (parent ancestor : String) : Prop :=
  if h.IsMeasured parent then ancestor = parent else h.NearestAncestor parent ancestor

/-- The nearest ancestors of a revision are what its direct parents count for. -/
theorem nearestAncestor_iff {h : History} {rev ancestor : String} :
    h.NearestAncestor rev ancestor ↔ ∃ parent ∈ h.parentsOf rev, h.CountsFor parent ancestor := by
  constructor
  · rintro ⟨hm, last, hpath, hstep⟩
    rcases Relation.ReflTransGen.cases_head hpath with rfl | ⟨parent, hhid, hrest⟩
    · exact ⟨ancestor, mem_parentsOf.mpr hstep, by rw [CountsFor, if_pos hm]⟩
    · refine ⟨parent, mem_parentsOf.mpr hhid.1, ?_⟩
      rw [CountsFor, if_neg hhid.2]
      exact ⟨hm, last, hrest, hstep⟩
  · rintro ⟨parent, hmem, hcounts⟩
    have hstep := mem_parentsOf.mp hmem
    unfold CountsFor at hcounts
    split_ifs at hcounts with hm
    · subst hcounts
      exact ⟨hm, rev, Relation.ReflTransGen.refl, hstep⟩
    · obtain ⟨ha, last, hpath, hlast⟩ := hcounts
      exact ⟨ha, last, Relation.ReflTransGen.head ⟨hstep, hm⟩ hpath, hlast⟩

/-- Nearest ancestors are measured. -/
theorem NearestAncestor.isMeasured {h : History} {rev ancestor : String}
    (ha : h.NearestAncestor rev ancestor) : h.IsMeasured ancestor :=
  ha.1

/-- Below a revision without hidden cycles there are none either. -/
theorem NoHiddenCycle.step {h : History} {rev parent : String} (hc : h.NoHiddenCycle rev)
    (hstep : h.HiddenStep rev parent) : h.NoHiddenCycle parent :=
  fun u hu => hc u (Relation.ReflTransGen.head hstep hu)

/-! ### Numbered revisions -/

/-- The revisions of a history are those with a point and the ends of its edges. -/
theorem mem_revisions {h : History} {rev : String} :
    rev ∈ h.revisions.toList ↔
      h.IsMeasured rev ∨ ∃ e ∈ h.parents, rev = e.child ∨ rev = e.parent := by
  rw [revisions, Roster.mem_enterAll, Roster.mem_ofList, List.mem_map, List.mem_flatMap]
  simp only [List.mem_cons, List.not_mem_nil, or_false]
  rfl

theorem ends_mem_revisions {h : History} :
    ∀ e ∈ h.parents, e.child ∈ h.revisions.toList ∧ e.parent ∈ h.revisions.toList :=
  fun e he => ⟨mem_revisions.mpr (Or.inr ⟨e, he, Or.inl rfl⟩),
    mem_revisions.mpr (Or.inr ⟨e, he, Or.inr rfl⟩)⟩

end History

/-- The revisions with a last point are those with a point. -/
theorem getElem?_lastPoints_isSome {points : List Point} {rev : String} :
    (lastPoints points)[rev]?.isSome ↔ ∃ point ∈ points, point.revId = rev := by
  rw [getElem?_lastPoints, List.getLast?_isSome, ne_eq, List.filter_eq_nil_iff]
  simp

namespace Pedigree

variable {revisions : Roster String}

/-- A pedigree marks the measured revisions. -/
theorem measured_iff (h : History) (i : Fin revisions.size) :
    (ofHistory h revisions).measured.get i = true ↔ h.IsMeasured (revisions.item i) := by
  have hi : (ofHistory h revisions).measured.get i =
      (lastPoints h.points).contains (revisions.item i) :=
    Vector.getElem_ofFn i.isLt
  rw [hi, ← Std.TreeMap.isSome_getElem?_eq_contains]
  exact getElem?_lastPoints_isSome

/-- An edge between listed revisions has places. -/
theorem exists_placeEdge? {e : ParentEdge}
    (hlisted : e.child ∈ revisions.toList ∧ e.parent ∈ revisions.toList) :
    ∃ i j, revisions.item i = e.child ∧ revisions.item j = e.parent ∧
      placeEdge? revisions e = some (i, j) := by
  obtain ⟨i, hi⟩ := Roster.exists_item_eq hlisted.1
  obtain ⟨j, hj⟩ := Roster.exists_item_eq hlisted.2
  refine ⟨i, j, hi, hj, ?_⟩
  rw [placeEdge?, ← hi, ← hj, Roster.place?_item, Roster.place?_item]

/-- Edges between listed revisions are found under their places, in their order. -/
theorem map_item_filter_placeEdge? (edges : List ParentEdge)
    (hlisted : ∀ e ∈ edges, e.child ∈ revisions.toList ∧ e.parent ∈ revisions.toList)
    (i : Fin revisions.size) :
    ((edges.filterMap (placeEdge? revisions)).filter (·.1 = i)).map (revisions.item ·.2) =
      (edges.filter (·.child = revisions.item i)).map (·.parent) := by
  induction edges with
  | nil => rfl
  | cons e edges ih =>
    have htail := ih fun e' he' => hlisted e' (List.mem_cons_of_mem _ he')
    obtain ⟨j, k, hj, hk, hplace⟩ := exists_placeEdge? (hlisted e List.mem_cons_self)
    rw [List.filterMap_cons_some hplace, List.filter_cons, List.filter_cons, ← hj]
    by_cases hji : j = i
    · subst hji
      simp [htail, hk]
    · have hne : revisions.item j ≠ revisions.item i := fun h => hji (revisions.item_injective h)
      simpa [hji, hne] using htail

/-- A pedigree lists the parents of each revision. -/
theorem map_item_parents (h : History) (i : Fin h.revisions.size) :
    ((ofHistory h h.revisions).parents.get i).map h.revisions.item =
      h.parentsOf (h.revisions.item i) := by
  have hparents : (ofHistory h h.revisions).parents.get i =
      ((h.parents.filterMap (placeEdge? h.revisions)).filter (·.1 = i)).map (·.2) :=
    get_ofEdges _ i
  rw [hparents, List.map_map]
  exact map_item_filter_placeEdge? h.parents History.ends_mem_revisions i

end Pedigree

end MetricHistory
