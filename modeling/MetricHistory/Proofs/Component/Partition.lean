import MetricHistory.Proofs.Component.Naming
import MetricHistory.Proofs.Component.Seeds
import Mathlib.Data.List.Nodup

/-!
# The partition into components

The components of a list of points are the classes of revisions that minimal edges connect within
one bucket, and the table of slots finds the component of each revision.

* `Partition.Progress.Inv`: the components found so far are classes, all different, and hold what
  was reached; kept by each seed (`Inv.add`) and so by all of them (`Inv.foldl_add`).
* `Partition.joined_item_iff`: paths between places are paths between revisions that stay in one
  bucket.
* `Partition.componentOf?_eq_some_iff`: the slots agree with the list of components.
* `Partition.ofPoints_spec`: the partition of any points under any edges.
-/

namespace MetricHistory.Partition

open Relation

/-! ### Finding all components -/

section Progress

variable {revisions : Roster String} {buckets : Vector String revisions.size}
  {adjacent : Adjacency revisions.size}

/-- `c` holds what a search finds from a seed that was not reached before. -/
def IsFoundFrom (buckets : Vector String revisions.size) (adjacent : Adjacency revisions.size)
    (c : Component) (seed : Fin revisions.size) : Prop :=
  ∃ reached, adjacent.Settled reached ∧ reached.get seed = false ∧
    c.members = (adjacent.classFrom reached seed).fresh.toList.map revisions.item ∧
    c.bucket = buckets.get seed

/-- A component holds the class of its seed. -/
theorem IsFoundFrom.mem_iff [Std.Symm adjacent.Joins] {c : Component} {seed : Fin revisions.size}
    (hc : IsFoundFrom buckets adjacent c seed) {rev : String} :
    rev ∈ c.members ↔ ∃ i, revisions.item i = rev ∧ ReflTransGen adjacent.Joins seed i := by
  obtain ⟨reached, hsettled, hseed, hmembers, -⟩ := hc
  rw [hmembers, List.mem_map]
  constructor
  · rintro ⟨i, hi, rfl⟩
    exact ⟨i, rfl, (Adjacency.mem_classFrom_iff hsettled hseed).mp hi⟩
  · rintro ⟨i, rfl, hi⟩
    exact ⟨i, (Adjacency.mem_classFrom_iff hsettled hseed).mpr hi, rfl⟩

theorem IsFoundFrom.item_mem_iff [Std.Symm adjacent.Joins] {c : Component}
    {seed : Fin revisions.size} (hc : IsFoundFrom buckets adjacent c seed)
    {i : Fin revisions.size} :
    revisions.item i ∈ c.members ↔ ReflTransGen adjacent.Joins seed i := by
  rw [hc.mem_iff]
  constructor
  · rintro ⟨j, hj, hpath⟩
    rwa [← revisions.item_injective hj]
  · intro hpath
    exact ⟨i, rfl, hpath⟩

/-- The components found so far are classes, numbered within their buckets, and hold every reached
revision once. -/
structure Progress.Inv (buckets : Vector String revisions.size)
    (adjacent : Adjacency revisions.size) (p : Progress revisions.size) : Prop where
  isFoundFrom : ∀ c ∈ p.components.toList, ∃ seed, IsFoundFrom buckets adjacent c seed
  nodup : (p.components.toList.flatMap (·.members)).Nodup
  reached_iff : ∀ i : Fin revisions.size,
    p.reached.get i = true ↔ revisions.item i ∈ p.components.toList.flatMap (·.members)
  counts : ∀ bucket, p.counts.getD bucket 0 = p.components.toList.countP (·.bucket = bucket)
  numbered : Numbered p.components.toList

namespace Progress.Inv

theorem start : Inv buckets adjacent (Progress.start revisions.size) where
  isFoundFrom := by simp [Progress.start]
  nodup := List.nodup_nil
  reached_iff i := by
    rw [Progress.get_reached_start]
    simp [Progress.start]
  counts := by simp [Progress.start]
  numbered := Numbered.nil

variable {p : Progress revisions.size}

/-- What was reached is closed under adjacency, since whole classes were reached. -/
theorem settled [Std.Symm adjacent.Joins] (hp : Inv buckets adjacent p) :
    adjacent.Settled p.reached := by
  intro i j hij hi
  rw [hp.reached_iff] at hi ⊢
  obtain ⟨c, hc, hmem⟩ := List.mem_flatMap.mp hi
  obtain ⟨seed, hfound⟩ := hp.isFoundFrom c hc
  rw [hfound.item_mem_iff] at hmem
  exact List.mem_flatMap.mpr ⟨c, hc, hfound.item_mem_iff.mpr (hmem.tail hij)⟩

/-- A seed that was not reached adds its class. -/
theorem push [Std.Symm adjacent.Joins] (hp : Inv buckets adjacent p) {seed : Fin revisions.size}
    (hseed : p.reached.get seed = false) {c : Component}
    (hmembers : c.members = (adjacent.classFrom p.reached seed).fresh.toList.map revisions.item)
    (hbucket : c.bucket = buckets.get seed)
    (hid : c.id = componentId c.bucket (p.counts.getD c.bucket 0 + 1)) :
    Inv buckets adjacent
      { reached := (adjacent.classFrom p.reached seed).reached
        components := p.components.push c
        counts := p.counts.insert c.bucket (p.counts.getD c.bucket 0 + 1) } := by
  have hsearch := adjacent.search_classFrom hseed
  have hnodup := hsearch.nodup
  have houtside := hsearch.outside
  have hreached := hsearch.reached_iff
  simp only [List.append_nil] at hnodup houtside hreached
  constructor
  case isFoundFrom =>
    intro d hd
    rw [Array.toList_push, List.mem_append, List.mem_singleton] at hd
    rcases hd with hd | rfl
    · exact hp.isFoundFrom d hd
    · exact ⟨seed, p.reached, hp.settled, hseed, hmembers, hbucket⟩
  case nodup =>
    rw [Array.toList_push, List.flatMap_append, List.flatMap_singleton, List.nodup_append]
    refine ⟨hp.nodup, ?_, ?_⟩
    · rw [hmembers]
      exact hnodup.map revisions.item_injective
    · intro a ha b hb hab
      rw [hmembers] at hb
      obtain ⟨i, hi, rfl⟩ := List.mem_map.mp hb
      exact houtside i hi ((hp.reached_iff i).mpr (hab ▸ ha))
  case reached_iff =>
    intro i
    rw [Array.toList_push, List.flatMap_append, List.flatMap_singleton, List.mem_append,
      ← hp.reached_iff i, hreached i, hmembers, List.mem_map_of_injective revisions.item_injective]
  case counts =>
    intro bucket
    rw [Array.toList_push, List.countP_append, List.countP_singleton, Std.TreeMap.getD_insert]
    by_cases hb : c.bucket = bucket
    · subst hb
      simp [hp.counts]
    · have hcmp : compare c.bucket bucket ≠ .eq := fun h => hb (Std.LawfulEqCmp.eq_of_compare h)
      simp [hcmp, hb, hp.counts]
  case numbered =>
    rw [Array.toList_push]
    exact hp.numbered.concat (by rw [hid, hp.counts])

/-- One more seed is looked at. -/
theorem add [Std.Symm adjacent.Joins] (hp : Inv buckets adjacent p) (seed : Fin revisions.size) :
    Inv buckets adjacent (Progress.add revisions.item buckets adjacent p seed) := by
  obtain ⟨reached, components, counts⟩ := p
  unfold Progress.add
  by_cases hseed : reached.get seed = true
  · simp only [if_pos hseed]
    exact hp
  · simp only [if_neg hseed]
    rw [Bool.not_eq_true] at hseed
    exact hp.push hseed rfl rfl rfl

/-- All seeds are looked at. -/
theorem foldl_add [Std.Symm adjacent.Joins] (hp : Inv buckets adjacent p)
    (seeds : List (Fin revisions.size)) :
    Inv buckets adjacent (seeds.foldl (Progress.add revisions.item buckets adjacent) p) := by
  induction seeds generalizing p with
  | nil => exact hp
  | cons seed seeds ih => exact ih (hp.add seed)

end Progress.Inv

end Progress

/-! ### Places and revisions -/

/-- An edge joins `a` and `b`, in either direction, and both lie in `bucket`. -/
def BucketStep (size : BucketSize) (points : List Point) (edges : List MinimalEdge)
    (bucket a b : String) : Prop :=
  (⟨a, b⟩ ∈ edges ∨ ⟨b, a⟩ ∈ edges) ∧
    bucketOf? size points a = some bucket ∧ bucketOf? size points b = some bucket

/-- A path of edges, taken in either direction, leads from `a` to `b` within one bucket. -/
def Joined (size : BucketSize) (points : List Point) (edges : List MinimalEdge)
    (a b : String) : Prop :=
  ∃ bucket, bucketOf? size points a = some bucket ∧ bucketOf? size points b = some bucket ∧
    ReflTransGen (BucketStep size points edges bucket) a b

section Places

variable {size : BucketSize} {points : List Point} {edges : List MinimalEdge}

/-- Neighbouring places are neighbouring revisions of one bucket. -/
theorem joins_iff {i j : Fin (measuredRevisions points).size} :
    (adjacency size points edges).Joins i j ↔
      BucketStep size points edges ((bucketsOf size points (measuredRevisions points)).get i)
        ((measuredRevisions points).item i) ((measuredRevisions points).item j) := by
  rw [adjacency, Adjacency.joins_ofEdges, List.mem_filterMap, List.mem_filterMap, BucketStep,
    bucketOf?_item, bucketOf?_item]
  simp only [placeEdge?_eq_some_iff, true_and, Option.some.injEq]
  constructor
  · rintro (⟨e, he, hi, hj, hbucket⟩ | ⟨e, he, hj, hi, hbucket⟩)
    · exact ⟨Or.inl (by rwa [hi, hj]), hbucket.symm⟩
    · exact ⟨Or.inr (by rwa [hi, hj]), hbucket⟩
  · rintro ⟨he | he, hbucket⟩
    · exact Or.inl ⟨_, he, rfl, rfl, hbucket.symm⟩
    · exact Or.inr ⟨_, he, rfl, rfl, hbucket⟩

/-- Paths between places stay in the bucket in which they begin. -/
theorem reflTransGen_item {i j : Fin (measuredRevisions points).size}
    (h : ReflTransGen (adjacency size points edges).Joins i j) :
    ((bucketsOf size points (measuredRevisions points)).get j) =
      ((bucketsOf size points (measuredRevisions points)).get i) ∧
    ReflTransGen
      (BucketStep size points edges ((bucketsOf size points (measuredRevisions points)).get i))
      ((measuredRevisions points).item i) ((measuredRevisions points).item j) := by
  induction h with
  | refl => exact ⟨rfl, ReflTransGen.refl⟩
  | @tail j k _ hjk ih =>
    obtain ⟨hbucket, hpath⟩ := ih
    have hstep := joins_iff.mp hjk
    have hk := hstep.2.2
    rw [bucketOf?_item, Option.some.injEq] at hk
    rw [hbucket] at hk hstep
    exact ⟨hk, hpath.tail hstep⟩

/-- Paths between revisions of one bucket lead from place to place. -/
theorem exists_item_of_reflTransGen {i : Fin (measuredRevisions points).size} {bucket rev : String}
    (h : ReflTransGen (BucketStep size points edges bucket)
      ((measuredRevisions points).item i) rev) :
    ∃ j, (measuredRevisions points).item j = rev ∧
      ReflTransGen (adjacency size points edges).Joins i j := by
  induction h with
  | refl => exact ⟨i, rfl, ReflTransGen.refl⟩
  | @tail a b _ hab ih =>
    obtain ⟨j, rfl, hpath⟩ := ih
    -- the next revision has a bucket, so it has a point
    have hb : b ∈ (measuredRevisions points).toList := by
      obtain ⟨point, hpoint, -⟩ := Option.map_eq_some_iff.mp hab.2.2
      have hmem := List.mem_filter.mp (List.mem_of_getLast? hpoint)
      exact mem_measuredRevisions.mpr (List.mem_map.mpr ⟨point, hmem.1, by simpa using hmem.2⟩)
    obtain ⟨k, rfl⟩ := Roster.exists_item_eq hb
    refine ⟨k, rfl, hpath.tail (joins_iff.mpr ?_)⟩
    have hbucket := hab.2.1
    rw [bucketOf?_item, Option.some.injEq] at hbucket
    rwa [hbucket]

/-- Two places are joined exactly if a path leads from one to the other. -/
theorem joined_item_iff {i j : Fin (measuredRevisions points).size} :
    Joined size points edges ((measuredRevisions points).item i)
        ((measuredRevisions points).item j) ↔
      ReflTransGen (adjacency size points edges).Joins i j := by
  constructor
  · rintro ⟨bucket, -, -, hpath⟩
    obtain ⟨k, hk, hpath⟩ := exists_item_of_reflTransGen hpath
    rwa [← (measuredRevisions points).item_injective hk]
  · intro h
    obtain ⟨hbucket, hpath⟩ := reflTransGen_item h
    exact ⟨_, bucketOf?_item i, by rw [bucketOf?_item, hbucket], hpath⟩

end Places

/-- Where no revision is listed twice, only one component holds it. -/
theorem eq_of_mem_members {components : List Component}
    (hnodup : (components.flatMap (·.members)).Nodup) {k k' : Nat} {c c' : Component} {rev : String}
    (hk : components[k]? = some c) (hk' : components[k']? = some c') (hrev : rev ∈ c.members)
    (hrev' : rev ∈ c'.members) : k = k' := by
  have hdisjoint := (List.nodup_flatMap.mp hnodup).2
  obtain ⟨hlt, rfl⟩ := List.getElem?_eq_some_iff.mp hk
  obtain ⟨hlt', rfl⟩ := List.getElem?_eq_some_iff.mp hk'
  by_contra hne
  rcases Nat.lt_or_gt_of_ne hne with h | h
  · exact List.disjoint_left.mp (List.pairwise_iff_getElem.mp hdisjoint k k' hlt hlt' h) hrev hrev'
  · exact List.disjoint_left.mp (List.pairwise_iff_getElem.mp hdisjoint k' k hlt' hlt h) hrev' hrev

/-! ### The partition -/

section OfPoints

variable {size : BucketSize} {points : List Point} {edges : List MinimalEdge}

/-- What was found after any seeds are classes. -/
theorem inv_progressed (size : BucketSize) (points : List Point) (edges : List MinimalEdge)
    (seeds : List (Fin (measuredRevisions points).size)) :
    Progress.Inv (bucketsOf size points (measuredRevisions points)) (adjacency size points edges)
      (progressed size points edges seeds) :=
  Progress.Inv.start.foldl_add seeds

/-- The components are classes, and every measured revision is reached. -/
theorem exists_inv (size : BucketSize) (points : List Point) (edges : List MinimalEdge) :
    ∃ p : Progress (measuredRevisions points).size,
      Progress.Inv (bucketsOf size points (measuredRevisions points))
        (adjacency size points edges) p ∧
      (∀ i : Fin (measuredRevisions points).size, p.reached.get i = true) ∧
      (ofPoints size points edges).components = p.components :=
  ⟨_, inv_progressed size points edges (List.finRange _),
    fun i => Progress.reached_foldl_add _ _ (Or.inl (List.mem_finRange i)),
    components_ofPoints size points edges⟩

/-- Every component is found from a seed. -/
theorem exists_isFoundFrom {c : Component}
    (hc : c ∈ (ofPoints size points edges).components.toList) :
    ∃ seed, IsFoundFrom (bucketsOf size points (measuredRevisions points))
      (adjacency size points edges) c seed := by
  obtain ⟨p, hinv, -, heq⟩ := exists_inv size points edges
  rw [heq] at hc
  exact hinv.isFoundFrom c hc

theorem nodup_members_ofPoints (size : BucketSize) (points : List Point)
    (edges : List MinimalEdge) :
    ((ofPoints size points edges).components.toList.flatMap (·.members)).Nodup := by
  obtain ⟨p, hinv, -, heq⟩ := exists_inv size points edges
  rw [heq]
  exact hinv.nodup

/-- The members of all components are the measured revisions. -/
theorem mem_members_ofPoints {rev : String} :
    rev ∈ (ofPoints size points edges).components.toList.flatMap (·.members) ↔
      rev ∈ points.map (·.revId) := by
  obtain ⟨p, hinv, hreached, heq⟩ := exists_inv size points edges
  rw [heq, ← mem_measuredRevisions]
  constructor
  · intro h
    obtain ⟨c, hc, hrev⟩ := List.mem_flatMap.mp h
    obtain ⟨seed, hfound⟩ := hinv.isFoundFrom c hc
    obtain ⟨i, rfl, -⟩ := hfound.mem_iff.mp hrev
    exact (measuredRevisions points).item_mem i
  · intro h
    obtain ⟨i, rfl⟩ := Roster.exists_item_eq h
    exact (hinv.reached_iff i).mp (hreached i)

/-- Only measured revisions are members. -/
theorem isMeasured_of_mem {c : Component} {rev : String}
    (hc : c ∈ (ofPoints size points edges).components.toList) (hrev : rev ∈ c.members) :
    rev ∈ points.map (·.revId) :=
  mem_members_ofPoints.mp (List.mem_flatMap.mpr ⟨c, hc, hrev⟩)

/-- Every member has a place. -/
theorem exists_item_of_mem {c : Component} {rev : String}
    (hc : c ∈ (ofPoints size points edges).components.toList) (hrev : rev ∈ c.members) :
    ∃ i, (measuredRevisions points).item i = rev :=
  Roster.exists_item_eq (mem_measuredRevisions.mpr (isMeasured_of_mem hc hrev))

/-- Every measured revision is a member of a component. -/
theorem exists_component_of_isMeasured {points : List Point} {rev : String} (size : BucketSize)
    (edges : List MinimalEdge) (hrev : rev ∈ points.map (·.revId)) :
    ∃ c ∈ (ofPoints size points edges).components.toList, rev ∈ c.members :=
  List.mem_flatMap.mp (mem_members_ofPoints.mpr hrev)

/-- The components of a partition are numbered within their buckets. -/
theorem numbered_ofPoints (size : BucketSize) (points : List Point) (edges : List MinimalEdge) :
    Numbered (ofPoints size points edges).components.toList := by
  obtain ⟨p, hinv, -, heq⟩ := exists_inv size points edges
  rw [heq]
  exact hinv.numbered

theorem nodup_id_ofPoints (size : BucketSize) (points : List Point) (edges : List MinimalEdge) :
    ((ofPoints size points edges).components.toList.map (·.id)).Nodup :=
  (numbered_ofPoints size points edges).nodup_id

theorem nodup_components (size : BucketSize) (points : List Point) (edges : List MinimalEdge) :
    (ofPoints size points edges).components.toList.Nodup :=
  List.Nodup.of_map _ (nodup_id_ofPoints size points edges)

theorem nodup_members {c : Component} (hc : c ∈ (ofPoints size points edges).components.toList) :
    c.members.Nodup :=
  (List.nodup_flatMap.mp (nodup_members_ofPoints size points edges)).1 c hc

/-- The members of a component lie in its bucket. -/
theorem bucketOf?_of_mem {c : Component} {rev : String}
    (hc : c ∈ (ofPoints size points edges).components.toList) (hrev : rev ∈ c.members) :
    bucketOf? size points rev = some c.bucket := by
  obtain ⟨seed, hfound⟩ := exists_isFoundFrom hc
  obtain ⟨i, rfl, hpath⟩ := hfound.mem_iff.mp hrev
  obtain ⟨reached, -, -, -, hbucket⟩ := hfound
  rw [bucketOf?_item, (reflTransGen_item hpath).1, hbucket]

/-- A component holds, with any revision, exactly those that are joined to it. -/
theorem mem_members_iff_joined {c : Component} {a b : String}
    (hc : c ∈ (ofPoints size points edges).components.toList) (ha : a ∈ c.members) :
    b ∈ c.members ↔ Joined size points edges a b := by
  obtain ⟨seed, hfound⟩ := exists_isFoundFrom hc
  obtain ⟨i, rfl, hi⟩ := hfound.mem_iff.mp ha
  have hback : ReflTransGen (adjacency size points edges).Joins i seed :=
    Std.Symm.symm _ _ hi
  constructor
  · intro hb
    obtain ⟨j, rfl, hj⟩ := hfound.mem_iff.mp hb
    exact joined_item_iff.mpr (hback.trans hj)
  · rintro ⟨bucket, -, -, hpath⟩
    obtain ⟨j, rfl, hij⟩ := exists_item_of_reflTransGen hpath
    exact hfound.item_mem_iff.mpr (hi.trans hij)

theorem componentOf?_eq_some_iff {rev : String} {c : Component} :
    (ofPoints size points edges).componentOf? rev = some c ↔
      c ∈ (ofPoints size points edges).components.toList ∧ rev ∈ c.members := by
  rw [componentOf?, Option.bind_eq_some_iff]
  simp only [getElem?_slots_iff, ← Array.getElem?_toList]
  constructor
  · rintro ⟨k, ⟨d, hd, hrev⟩, hk⟩
    obtain rfl : d = c := Option.some.inj (hd.symm.trans hk)
    exact ⟨List.mem_of_getElem? hk, hrev⟩
  · rintro ⟨hc, hrev⟩
    obtain ⟨k, hk⟩ := List.mem_iff_getElem?.mp hc
    exact ⟨k, ⟨c, hk, hrev⟩, hk⟩

/-- A revision has only one component. -/
theorem eq_of_mem_of_mem {a b : Component} {rev : String}
    (ha : a ∈ (ofPoints size points edges).components.toList)
    (hb : b ∈ (ofPoints size points edges).components.toList)
    (hra : rev ∈ a.members) (hrb : rev ∈ b.members) : a = b := by
  have hofA := componentOf?_eq_some_iff.mpr ⟨ha, hra⟩
  have hofB := componentOf?_eq_some_iff.mpr ⟨hb, hrb⟩
  exact Option.some.inj (hofA.symm.trans hofB)

/-- No component is empty. -/
theorem exists_mem_members {c : Component}
    (hc : c ∈ (ofPoints size points edges).components.toList) : ∃ rev, rev ∈ c.members := by
  obtain ⟨seed, hfound⟩ := exists_isFoundFrom hc
  exact ⟨_, hfound.item_mem_iff.mpr ReflTransGen.refl⟩

/-- Every measured revision has a component. -/
theorem exists_componentOf? {rev : String} (hrev : rev ∈ points.map (·.revId)) :
    ∃ c, (ofPoints size points edges).componentOf? rev = some c := by
  obtain ⟨c, hc⟩ := exists_component_of_isMeasured size edges hrev
  exact ⟨c, componentOf?_eq_some_iff.mpr hc⟩

/-- **The partition**: the components list every measured revision once and no other, a component
lies in one bucket, two revisions share a component exactly if a path of edges joins them within
their bucket, and looking a revision up finds the one component in the list that holds it. -/
theorem ofPoints_spec (size : BucketSize) (points : List Point) (edges : List MinimalEdge) :
    let partition := ofPoints size points edges
    let components := partition.components.toList
    let ids := points.map (·.revId)
    (∀ rev, (components.flatMap (·.members)).count rev = if rev ∈ ids then 1 else 0) ∧
    (∀ c ∈ components, ∀ rev ∈ c.members, bucketOf? size points rev = some c.bucket) ∧
    (∀ a ∈ ids, ∀ b ∈ ids,
      (∃ c ∈ components, a ∈ c.members ∧ b ∈ c.members) ↔ Joined size points edges a b) ∧
    (∀ rev ∈ ids, ∃ (k : Nat) (c : Component),
      components[k]? = some c ∧ partition.componentOf? rev = some c ∧
        ∀ (k' : Nat) (c' : Component), components[k']? = some c' → (rev ∈ c'.members ↔ k' = k)) ∧
    (∀ rev, rev ∉ ids → partition.componentOf? rev = none) := by
  intro partition components ids
  have hnodup := nodup_members_ofPoints size points edges
  refine ⟨?_, fun c hc rev hrev => bucketOf?_of_mem hc hrev, ?_, ?_, ?_⟩
  · intro rev
    split_ifs with hrev
    · exact List.count_eq_one_of_mem hnodup (mem_members_ofPoints.mpr hrev)
    · exact List.count_eq_zero_of_not_mem (fun h => hrev (mem_members_ofPoints.mp h))
  · intro a ha b _
    constructor
    · rintro ⟨c, hc, hac, hbc⟩
      exact (mem_members_iff_joined hc hac).mp hbc
    · intro hjoined
      obtain ⟨c, hc, hac⟩ := List.mem_flatMap.mp (mem_members_ofPoints.mpr ha)
      exact ⟨c, hc, hac, (mem_members_iff_joined hc hac).mpr hjoined⟩
  · intro rev hrev
    obtain ⟨c, hcomponent⟩ := exists_componentOf? hrev
    obtain ⟨hc, hmem⟩ := componentOf?_eq_some_iff.mp hcomponent
    obtain ⟨k, hk⟩ := List.mem_iff_getElem?.mp hc
    refine ⟨k, c, hk, hcomponent, fun k' c' hk' => ?_⟩
    constructor
    · intro hmem'
      exact eq_of_mem_members hnodup hk' hk hmem' hmem
    · rintro rfl
      obtain rfl : c = c' := Option.some.inj (hk.symm.trans hk')
      exact hmem
  · intro rev hrev
    cases hcomponent : partition.componentOf? rev with
    | none => rfl
    | some c =>
      have hc := componentOf?_eq_some_iff.mp hcomponent
      exact absurd (mem_members_ofPoints.mp (List.mem_flatMap.mpr ⟨c, hc⟩)) hrev

end OfPoints

end MetricHistory.Partition
