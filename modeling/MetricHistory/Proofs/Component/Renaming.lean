import MetricHistory.Proofs.Component.Partition

/-!
# The partition under other names

The search for components runs on places, and the names of the revisions are put in only when a
component is complete.  So under other names the components are the same, with their members
renamed: neither what joins them nor the order of anything changes.

* `Point.rename`, `MinimalEdge.rename`, `Component.rename`: other names, as a function gives them.
* `getElem?_lastPoints_rename`: the last point of a revision under its other name.
* `Partition.componentsOf_rename`: what becomes of components of places under other names.
* `Partition.components_rename`, `Partition.componentOf?_rename`: the partition under other names.
-/

namespace MetricHistory

/-! ### Other names -/

/-- The point with the revision under its other name. -/
def Point.rename (f : String → String) (p : Point) : Point :=
  { p with revId := f p.revId }

/-- The edge with both revisions under their other names. -/
def MinimalEdge.rename (f : String → String) (e : MinimalEdge) : MinimalEdge :=
  { parent := f e.parent, child := f e.child }

/-- The component with its members under their other names. -/
def Component.rename (f : String → String) (c : Component) : Component :=
  { c with members := c.members.map f }

section Renaming

variable {f : String → String} {points : List Point}

theorem map_revId_rename (f : String → String) (points : List Point) :
    (points.map (Point.rename f)).map (·.revId) = (points.map (·.revId)).map f := by
  rw [List.map_map, List.map_map]
  rfl

/-- A revision has the same last point under its other name. -/
theorem getElem?_lastPoints_rename (hf : Set.InjOn f {rev | rev ∈ points.map (·.revId)})
    {rev : String} (hrev : rev ∈ points.map (·.revId)) :
    (lastPoints (points.map (Point.rename f)))[f rev]? =
      ((lastPoints points)[rev]?).map (Point.rename f) := by
  -- no point of another revision comes to bear the new name
  have hfilter : points.filter ((·.revId == f rev) ∘ Point.rename f) =
      points.filter (·.revId == rev) := by
    apply List.filter_congr
    intro p hp
    rw [Bool.eq_iff_iff, Function.comp_apply, beq_iff_eq, beq_iff_eq]
    exact hf.eq_iff (List.mem_map_of_mem hp) hrev
  rw [getElem?_lastPoints, getElem?_lastPoints, List.filter_map, List.getLast?_map, hfilter]

end Renaming

namespace Roster

variable {α : Type} [Ord α] {f : α → α} {r r' : Roster α}

theorem size_eq_of_toList_eq_map (h : r'.toList = r.toList.map f) : r.size = r'.size := by
  have hlength := congrArg List.length h
  rw [List.length_map] at hlength
  exact hlength.symm

/-- The place of an item is that of its other name. -/
theorem item_cast (h : r'.toList = r.toList.map f) (i : Fin r.size) :
    r'.item (i.cast (size_eq_of_toList_eq_map h)) = f (r.item i) := by
  have hitem := r'.getElem?_toList (i.cast (size_eq_of_toList_eq_map h))
  rw [h, List.getElem?_map, Fin.val_cast, r.getElem?_toList i, Option.map_some] at hitem
  exact (Option.some.inj hitem).symm

end Roster

namespace Partition

/-! ### Components of places -/

section Places

variable {n : Nat}

/-- The components found so far, with their members under their other names. -/
def Progress.rename (f : String → String) (p : Progress n) : Progress n :=
  { p with components := p.components.map (Component.rename f) }

theorem Progress.rename_start (f : String → String) : (start n).rename f = start n := by
  rw [rename, start, Array.map_empty]

variable {f : String → String} {item item' : Fin n → String}

/-- The component of a place is the same under other names. -/
theorem Progress.add_rename (hitem : ∀ i, item' i = f (item i)) (buckets : Vector String n)
    (adjacent : Adjacency n) (p : Progress n) (seed : Fin n) :
    add item' buckets adjacent (p.rename f) seed =
      (add item buckets adjacent p seed).rename f := by
  obtain ⟨reached, components, counts⟩ := p
  obtain rfl : item' = f ∘ item := funext hitem
  unfold add rename
  by_cases hseed : reached.get seed = true
  · simp only [if_pos hseed]
  · simp only [if_neg hseed, Array.map_push, Component.rename, List.map_map]

/-- **Components under other names** are those of the same places. -/
theorem componentsOf_rename {m : Nat} {item : Fin n → String} {item' : Fin m → String}
    (hsize : n = m) (hitem : ∀ i : Fin n, item' (i.cast hsize) = f (item i))
    {buckets : Vector String n} {buckets' : Vector String m}
    (hbuckets : ∀ i : Fin n, buckets'.get (i.cast hsize) = buckets.get i)
    (edges : List (Fin n × Fin n)) :
    componentsOf item' buckets'
        (Adjacency.ofEdges (edges.map (Prod.map (Fin.cast hsize) (Fin.cast hsize)))) =
      (componentsOf item buckets (Adjacency.ofEdges edges)).map (Component.rename f) := by
  -- with one number of places, buckets and edges are the same and only the items differ
  subst hsize
  obtain rfl : buckets' = buckets := Vector.ext fun k hk => hbuckets ⟨k, hk⟩
  have hedges : edges.map (Prod.map (Fin.cast rfl) (Fin.cast rfl)) = edges := List.map_id edges
  rw [hedges]
  have hfold : (List.finRange n).foldl (Progress.add item' buckets' (Adjacency.ofEdges edges))
        ((Progress.start n).rename f) =
      ((List.finRange n).foldl (Progress.add item buckets' (Adjacency.ofEdges edges))
        (Progress.start n)).rename f :=
    List.foldl_hom (Progress.rename f)
      (Progress.add_rename hitem buckets' (Adjacency.ofEdges edges))
  rw [Progress.rename_start] at hfold
  exact congrArg Progress.components hfold

end Places

/-! ### The partition -/

section OfPoints

variable {f : String → String} {size : BucketSize} {points : List Point} {edges : List MinimalEdge}

theorem bucketOf?_rename (size : BucketSize)
    (hf : Set.InjOn f {rev | rev ∈ points.map (·.revId)}) {rev : String}
    (hrev : rev ∈ points.map (·.revId)) :
    bucketOf? size (points.map (Point.rename f)) (f rev) = bucketOf? size points rev := by
  rw [bucketOf?_eq_map_lastPoints, bucketOf?_eq_map_lastPoints, getElem?_lastPoints_rename hf hrev,
    Option.map_map]
  rfl

theorem toList_measuredRevisions_rename (hf : Set.InjOn f {rev | rev ∈ points.map (·.revId)}) :
    (measuredRevisions (points.map (Point.rename f))).toList =
      (measuredRevisions points).toList.map f := by
  have hinj : Set.InjOn f {rev | rev ∈ [] ∨ rev ∈ points.map (·.revId)} :=
    hf.mono fun rev hrev => hrev.resolve_left List.not_mem_nil
  rw [measuredRevisions, measuredRevisions, Roster.toList_ofList, Roster.toList_ofList,
    map_revId_rename, map_appendNew hinj, List.map_nil]

/-- An edge between listed revisions joins the same places under other names. -/
theorem placeEdge?_rename {r r' : Roster String} (h : r'.toList = r.toList.map f)
    {buckets : Vector String r.size} {buckets' : Vector String r'.size}
    (hbuckets : ∀ i : Fin r.size,
      buckets'.get (i.cast (Roster.size_eq_of_toList_eq_map h)) = buckets.get i)
    {e : MinimalEdge} (hparent : e.parent ∈ r.toList) (hchild : e.child ∈ r.toList) :
    placeEdge? r' buckets' (e.rename f) = (placeEdge? r buckets e).map
      (Prod.map (Fin.cast (Roster.size_eq_of_toList_eq_map h))
        (Fin.cast (Roster.size_eq_of_toList_eq_map h))) := by
  obtain ⟨i, hi⟩ := Roster.exists_item_eq hparent
  obtain ⟨j, hj⟩ := Roster.exists_item_eq hchild
  have hi' := Roster.item_cast h i
  have hj' := Roster.item_cast h j
  rw [hi] at hi'
  rw [hj] at hj'
  have hparent' : r'.place? (e.rename f).parent = some (i.cast _) :=
    Roster.place?_eq_some_iff.mpr hi'
  have hchild' : r'.place? (e.rename f).child = some (j.cast _) :=
    Roster.place?_eq_some_iff.mpr hj'
  rw [placeEdge?, placeEdge?, Roster.place?_eq_some_iff.mpr hi, Roster.place?_eq_some_iff.mpr hj,
    hparent', hchild']
  simp only [hbuckets]
  split_ifs
  · rfl
  · rfl

/-- **The partition under other names**: where the ends of all edges are measured, the components
are the same, with their members under their other names. -/
theorem components_rename (size : BucketSize)
    (hf : Set.InjOn f {rev | rev ∈ points.map (·.revId)})
    (hedges : ∀ e ∈ edges, e.parent ∈ points.map (·.revId) ∧ e.child ∈ points.map (·.revId)) :
    (ofPoints size (points.map (Point.rename f)) (edges.map (MinimalEdge.rename f))).components =
      (ofPoints size points edges).components.map (Component.rename f) := by
  -- the new names take the places of the old ones
  have hlist := toList_measuredRevisions_rename hf
  have hsize := Roster.size_eq_of_toList_eq_map hlist
  have hbuckets : ∀ i : Fin (measuredRevisions points).size,
      (bucketsOf size (points.map (Point.rename f))
          (measuredRevisions (points.map (Point.rename f)))).get (i.cast hsize) =
        (bucketsOf size points (measuredRevisions points)).get i := by
    intro i
    have hi := mem_measuredRevisions.mp ((measuredRevisions points).item_mem i)
    rw [← Option.some.injEq, ← bucketOf?_item, ← bucketOf?_item, Roster.item_cast hlist,
      bucketOf?_rename size hf hi]
  have hplaces : (edges.map (MinimalEdge.rename f)).filterMap
        (placeEdge? (measuredRevisions (points.map (Point.rename f)))
          (bucketsOf size (points.map (Point.rename f))
            (measuredRevisions (points.map (Point.rename f))))) =
      (edges.filterMap (placeEdge? (measuredRevisions points)
        (bucketsOf size points (measuredRevisions points)))).map
          (Prod.map (Fin.cast hsize) (Fin.cast hsize)) := by
    rw [List.filterMap_map, List.map_filterMap]
    apply List.filterMap_congr
    intro e he
    obtain ⟨hparent, hchild⟩ := hedges e he
    exact placeEdge?_rename hlist hbuckets (mem_measuredRevisions.mpr hparent)
      (mem_measuredRevisions.mpr hchild)
  rw [components_ofPoints, components_ofPoints, adjacency, adjacency, hplaces]
  exact componentsOf_rename hsize (Roster.item_cast hlist) hbuckets _

/-- A measured revision is looked up under its other name. -/
theorem componentOf?_rename (size : BucketSize)
    (hf : Set.InjOn f {rev | rev ∈ points.map (·.revId)})
    (hedges : ∀ e ∈ edges, e.parent ∈ points.map (·.revId) ∧ e.child ∈ points.map (·.revId))
    {rev : String} (hrev : rev ∈ points.map (·.revId)) :
    (ofPoints size (points.map (Point.rename f)) (edges.map (MinimalEdge.rename f))).componentOf?
        (f rev) =
      ((ofPoints size points edges).componentOf? rev).map (Component.rename f) := by
  obtain ⟨c, hc⟩ : ∃ c, (ofPoints size points edges).componentOf? rev = some c :=
    exists_componentOf? hrev
  obtain ⟨hmem, hmember⟩ := componentOf?_eq_some_iff.mp hc
  rw [hc, Option.map_some, componentOf?_eq_some_iff, components_rename size hf hedges,
    Array.toList_map]
  exact ⟨List.mem_map_of_mem hmem, List.mem_map_of_mem hmember⟩

end OfPoints

end Partition

end MetricHistory
