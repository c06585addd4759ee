import MetricHistory.Component
import MetricHistory.Proofs.Roster

/-!
# The buckets of revisions

The points are gone through in their order, and each gives its revision its bucket, so that the
last point of a revision decides.  The keys of buckets are numbered when they are first met; two
revisions have the same number exactly if they have the same key.

* `Partition.bucketOf?`, `Partition.bucketsOf`: the bucket of a revision, by its last point.
* `Buckets.Lists`: the numbers stand for given keys.
* `Partition.lists_assign`: the loop over all points numbers the buckets of the revisions.
* `Partition.placeEdge?_eq_some_iff`: the edges that count are those within one bucket.
-/

namespace MetricHistory

namespace Roster

variable {α : Type} [Ord α] [Std.TransOrd α] [Std.LawfulEqOrd α]

/-- What is listed stays where it is when one more item is entered. -/
theorem isPrefix_enter (r : Roster α) (a : α) : r.toList <+: (r.enter a).toList := by
  by_cases h : a ∈ r.toList
  · simp only [enter_of_mem h, List.prefix_rfl]
  · rw [toList_enter_of_not_mem h]
    exact List.prefix_append _ _

/-- An item stands under its number once it is entered. -/
theorem getElem?_number_enter (r : Roster α) (a : α) :
    (r.enter a).toList[r.number a]? = some a := by
  by_cases h : a ∈ r.toList
  · obtain ⟨i, hi⟩ := exists_item_eq h
    have hitem := r.getElem?_toList i
    rw [hi] at hitem
    have hplace : r.places[a]? = some i.val := (r.places_iff a i).mpr (by
      rwa [toList, Array.getElem?_toList] at hitem)
    rw [enter_of_mem h, number, hplace, Option.getD_some, hitem]
  · have hnone : r.places[a]? = none :=
      Std.TreeMap.getElem?_eq_none fun hmem => h (mem_places_iff.mp hmem)
    rw [toList_enter_of_not_mem h, number, hnone, Option.getD_none]
    exact List.getElem?_concat_length

end Roster

/-! ### Numbers for keys -/

namespace Buckets

variable {n : ℕ} {b : Buckets n} {keys : Vector String n}

/-- Under the number of each place the key of the place is listed. -/
def Lists (b : Buckets n) (keys : Vector String n) : Prop :=
  ∀ i, b.names.toList[b.numbers.get i]? = some (keys.get i)

theorem Lists.lt_size (h : b.Lists keys) (i : Fin n) : b.numbers.get i < b.names.size :=
  (List.getElem?_eq_some_iff.mp (h i)).1

theorem Lists.name_eq (h : b.Lists keys) (i : Fin n) : b.name (b.numbers.get i) = keys.get i := by
  have hi := h i
  rw [Roster.toList, Array.getElem?_toList] at hi
  rw [name, Array.getD_eq_getD_getElem?, hi, Option.getD_some]

/-- Numbers tell keys apart. -/
theorem Lists.numbers_eq_iff (h : b.Lists keys) {i j : Fin n} :
    b.numbers.get i = b.numbers.get j ↔ keys.get i = keys.get j := by
  constructor
  · intro hij
    have hi := h i
    rw [hij, h j, Option.some.injEq] at hi
    exact hi.symm
  · intro hij
    have hi := h i
    rw [hij] at hi
    exact (List.getElem?_inj (h.lt_size i) b.names.nodup_toList).mp (hi.trans (h j).symm)

/-- The last entry of a place decides. -/
theorem getElem?_numbers_assign {size : BucketSize} {entries : List (Point × Fin n)} {i : Fin n}
    {entry : Point × Fin n} (h : (entries.filter (·.2 = i)).getLast? = some entry) :
    (assign size entries).names.toList[(assign size entries).numbers.get i]? =
      some (size.key entry.1.time) := by
  induction entries using List.reverseRecOn with
  | nil => simp at h
  | append_singleton entries last ih =>
    have hassign : assign size (entries ++ [last]) = enter size (assign size entries) last :=
      List.foldl_concat ..
    rw [hassign]
    generalize assign size entries = b at ih ⊢
    obtain ⟨names, numbers⟩ := b
    unfold enter
    dsimp only
    rw [Vector.get_put]
    rw [List.filter_append] at h
    by_cases hlast : last.2 = i
    · rw [List.filter_singleton, decide_eq_true hlast, cond_true, List.getLast?_concat,
        Option.some.injEq] at h
      rw [if_pos hlast, ← h]
      exact names.getElem?_number_enter _
    · rw [List.filter_singleton, decide_eq_false hlast, cond_false, List.append_nil] at h
      rw [if_neg hlast]
      obtain ⟨later, hlater⟩ := names.isPrefix_enter (size.key last.1.time)
      have hold := ih h
      rw [← hlater, List.getElem?_append_left (List.getElem?_eq_some_iff.mp hold).1, hold]

end Buckets

namespace Partition

/-! ### The buckets of a list of points -/

/-- The bucket of the last point of a revision, if it has a point. -/
def bucketOf? (size : BucketSize) (points : List Point) (rev : String) : Option String :=
  ((points.filter (·.revId == rev)).getLast?).map fun point => size.key point.time

/-- The last point of a revision gives it its bucket. -/
theorem bucketOf?_eq_map_lastPoints (size : BucketSize) (points : List Point) (rev : String) :
    bucketOf? size points rev = (lastPoints points)[rev]?.map fun point => size.key point.time := by
  rw [getElem?_lastPoints]
  rfl

/-- The measured revisions in the order of their first points. -/
def measuredRevisions (points : List Point) : Roster String :=
  Roster.ofList (points.map (·.revId))

/-- The bucket of each listed revision. -/
def bucketsOf (size : BucketSize) (points : List Point) (revisions : Roster String) :
    Vector String revisions.size :=
  Vector.ofFn fun i => (bucketOf? size points (revisions.item i)).getD ""

section Places

variable {size : BucketSize} {points : List Point}

theorem mem_measuredRevisions {rev : String} :
    rev ∈ (measuredRevisions points).toList ↔ rev ∈ points.map (·.revId) :=
  Roster.mem_ofList

/-- The bucket of a place is that of its revision. -/
theorem bucketOf?_item (i : Fin (measuredRevisions points).size) :
    bucketOf? size points ((measuredRevisions points).item i) =
      some ((bucketsOf size points (measuredRevisions points)).get i) := by
  obtain ⟨point, hpoint, hrev⟩ :=
    List.mem_map.mp (mem_measuredRevisions.mp ((measuredRevisions points).item_mem i))
  have hne : points.filter (·.revId == (measuredRevisions points).item i) ≠ [] :=
    List.ne_nil_of_mem (List.mem_filter.mpr ⟨hpoint, beq_iff_eq.mpr hrev⟩)
  have hbucket : (bucketsOf size points (measuredRevisions points)).get i =
      (bucketOf? size points ((measuredRevisions points).item i)).getD "" :=
    Vector.getElem_ofFn i.isLt
  rw [hbucket, bucketOf?, List.getLast?_eq_some_getLast hne, Option.map_some, Option.getD_some]

/-- The entries of a place are the points of its revision. -/
theorem map_filter_entries (revisions : Roster String) (points : List Point)
    (i : Fin revisions.size) :
    ((entries revisions points).filter (·.2 = i)).map (·.1) =
      points.filter (·.revId == revisions.item i) := by
  unfold entries
  induction points with
  | nil => rfl
  | cons p points ih =>
    have hplace : revisions.place? p.revId = some i ↔ p.revId = revisions.item i := by
      rw [Roster.place?_eq_some_iff]
      exact eq_comm
    rw [List.filter_cons, ← ih]
    simp only [beq_iff_eq, ← hplace]
    cases hrev : revisions.place? p.revId with
    | none => rw [List.filterMap_cons_none (by rw [hrev]; rfl), if_neg nofun]
    | some j =>
      rw [List.filterMap_cons_some (by rw [hrev]; rfl), List.filter_cons]
      simp only [decide_eq_true_eq, Option.some.injEq]
      split_ifs <;> rfl

/-- **Numbers of buckets**: after all points the number of each revision stands for the bucket of
its last point. -/
theorem lists_assign (size : BucketSize) (points : List Point) :
    (Buckets.assign size (entries (measuredRevisions points) points)).Lists
      (bucketsOf size points (measuredRevisions points)) := by
  intro i
  have hbucket : bucketOf? size points ((measuredRevisions points).item i) =
      some ((bucketsOf size points (measuredRevisions points)).get i) := bucketOf?_item i
  rw [bucketOf?, ← map_filter_entries, List.getLast?_map, Option.map_map,
    Option.map_eq_some_iff] at hbucket
  obtain ⟨entry, hentry, hkey⟩ := hbucket
  rw [Buckets.getElem?_numbers_assign hentry, ← hkey]
  rfl

/-- The revisions of the points, each taken once, are all places in their order. -/
theorem appendNew_entries (points : List Point) :
    appendNew [] ((entries (measuredRevisions points) points).map (·.2)) =
      List.finRange (measuredRevisions points).size := by
  have hitems : ((entries (measuredRevisions points) points).map (·.2)).map
      (measuredRevisions points).item = points.map (·.revId) := by
    rw [entries, List.map_map, List.map_filterMap]
    have hall : ∀ p ∈ points, ((measuredRevisions points).place? p.revId).map
        (fun i => (measuredRevisions points).item i) = some p.revId := by
      intro p hp
      obtain ⟨i, hi⟩ := Roster.exists_item_eq (mem_measuredRevisions.mpr (List.mem_map_of_mem hp))
      rw [← hi, Roster.place?_item, Option.map_some]
    rw [← List.filterMap_eq_map']
    apply List.filterMap_congr
    intro p hp
    rw [Option.map_map]
    exact hall p hp
  apply List.map_injective_iff.mpr (measuredRevisions points).item_injective
  rw [map_appendNew (measuredRevisions points).item_injective.injOn, hitems,
    ← Roster.toList_eq_map_item]
  exact (Roster.toList_ofList _).symm

end Places

/-! ### Edges within a bucket -/

section Edges

variable {β γ : Type} [DecidableEq β] [DecidableEq γ] {revisions : Roster String}

/-- The edges that count are those whose ends lie in one bucket. -/
theorem placeEdge?_eq_some_iff {buckets : Vector β revisions.size} {e : MinimalEdge}
    {i j : Fin revisions.size} :
    placeEdge? revisions buckets e = some (i, j) ↔
      revisions.item i = e.parent ∧ revisions.item j = e.child ∧ buckets.get i = buckets.get j := by
  rw [← Roster.place?_eq_some_iff, ← Roster.place?_eq_some_iff, placeEdge?]
  constructor
  · intro h
    split at h
    · next parent child hparent hchild =>
      split_ifs at h with hbucket
      cases h
      exact ⟨hparent, hchild, hbucket⟩
    · cases h
  · rintro ⟨hparent, hchild, hbucket⟩
    rw [hparent, hchild]
    exact if_pos hbucket

/-- Whether an edge counts depends only on which places share a bucket. -/
theorem placeEdge?_congr {buckets : Vector β revisions.size} {buckets' : Vector γ revisions.size}
    (h : ∀ i j, buckets.get i = buckets.get j ↔ buckets'.get i = buckets'.get j) :
    placeEdge? revisions buckets = placeEdge? revisions buckets' := by
  funext e
  apply Option.ext
  rintro ⟨i, j⟩
  rw [placeEdge?_eq_some_iff, placeEdge?_eq_some_iff, h]

end Edges

end Partition

end MetricHistory
