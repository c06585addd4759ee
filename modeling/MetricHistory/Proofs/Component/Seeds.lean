import MetricHistory.Proofs.Component.Buckets
import MetricHistory.Proofs.Component.Queue

/-!
# From seed to seed

Every point gives a seed, repeated revisions included, and a component is found from each seed that
was not assigned before.  The loop keeps its books in tables of numbers: slots of components,
numbers of buckets, and counters under these.  Here it is related to the same search told in plain
terms, from each revision once, level by level and with the keys of buckets.

* `Partition.Progress.add`, `Partition.componentsOf`: the search in plain terms.
* `Partition.Tells`: the tables of the loop tell what was found; kept by each seed (`Tells.add`) and
  so by all of them (`Tells.foldl_add`).
* `Partition.components_ofPoints`: the loop finds the components of `componentsOf`.
* `Partition.getElem?_slots_iff`: the slot of a revision is that of the component that lists it.
-/

namespace MetricHistory.Partition

/-! ### The search in plain terms -/

/-- Components found so far: which places they hold, and how many there are in each bucket. -/
structure Progress (n : ℕ) where
  reached : Vector Bool n
  components : Array Component
  counts : Std.TreeMap String ℕ

section Progress

variable {n : ℕ} {item : Fin n → String} {keys : Vector String n} {adjacent : Adjacency n}

/-- Adds the component of a place, unless it was found already, where `item` names the places. -/
def Progress.add (item : Fin n → String) (keys : Vector String n) (adjacent : Adjacency n)
    (p : Progress n) (seed : Fin n) : Progress n :=
  match p with
  | ⟨reached, components, counts⟩ =>
    if reached.get seed then ⟨reached, components, counts⟩
    else
      let found := adjacent.classFrom reached seed
      let bucket := keys.get seed
      let number := counts.getD bucket 0 + 1
      let component : Component :=
        { bucket, id := componentId bucket number, members := found.fresh.toList.map item }
      ⟨found.reached, components.push component, counts.insert bucket number⟩

/-- No component was found yet. -/
def Progress.start (n : ℕ) : Progress n :=
  { reached := Vector.replicate _ false, components := #[], counts := ∅ }

/-- The components of places that lie in the given buckets and have the given neighbours. -/
def componentsOf (item : Fin n → String) (keys : Vector String n) (adjacent : Adjacency n) :
    Array Component :=
  ((List.finRange n).foldl (Progress.add item keys adjacent) (Progress.start n)).components

theorem Progress.get_reached_start (i : Fin n) : (start n).reached.get i = false :=
  Vector.getElem_replicate i.isLt

/-- Nothing is added from a seed that was reached. -/
theorem Progress.add_of_reached {p : Progress n} {seed : Fin n}
    (h : p.reached.get seed = true) : add item keys adjacent p seed = p := by
  obtain ⟨reached, components, counts⟩ := p
  unfold add
  exact if_pos h

/-- After a seed was looked at it is reached, and so is what was reached before. -/
theorem Progress.reached_add (p : Progress n) (seed : Fin n) {i : Fin n}
    (h : i = seed ∨ p.reached.get i = true) :
    (add item keys adjacent p seed).reached.get i = true := by
  obtain ⟨reached, components, counts⟩ := p
  unfold add
  by_cases hseed : reached.get seed = true
  · simp only [if_pos hseed]
    rcases h with rfl | hi
    · exact hseed
    · exact hi
  · simp only [if_neg hseed]
    rw [Bool.not_eq_true] at hseed
    have hsearch := adjacent.search_classFrom hseed
    rcases h with rfl | hi
    · exact (hsearch.reached_iff i).mpr (Or.inr hsearch.seed_mem)
    · exact (hsearch.reached_iff i).mpr (Or.inl hi)

theorem Progress.reached_foldl_add (p : Progress n) (seeds : List (Fin n)) {i : Fin n}
    (h : i ∈ seeds ∨ p.reached.get i = true) :
    (seeds.foldl (add item keys adjacent) p).reached.get i = true := by
  induction seeds generalizing p with
  | nil => exact h.resolve_left List.not_mem_nil
  | cons seed seeds ih =>
    apply ih
    rcases h with h | h
    · rcases List.mem_cons.mp h with h | h
      · exact Or.inr (reached_add p seed (Or.inl h))
      · exact Or.inl h
    · exact Or.inr (reached_add p seed (Or.inr h))

/-- A seed that is repeated adds nothing. -/
theorem Progress.foldl_add_appendNew (p : Progress n) (seeds : List (Fin n)) :
    (appendNew [] seeds).foldl (add item keys adjacent) p =
      seeds.foldl (add item keys adjacent) p := by
  induction seeds using List.reverseRecOn with
  | nil => rfl
  | append_singleton seeds seed ih =>
    rw [appendNew_concat, List.foldl_concat, ← ih]
    split_ifs with hseed
    · exact (add_of_reached (reached_foldl_add p _ (Or.inl hseed))).symm
    · rw [List.foldl_concat]

end Progress

/-! ### The tables of the loop -/

section Tells

variable {revisions : Roster String} {buckets : Buckets revisions.size}
  {keys : Vector String revisions.size} {adjacent : Adjacency revisions.size}
  {d : Discovery revisions.size} {p : Progress revisions.size}

/-- The tables of `d` tell what `p` says: the components, the places that they hold and how many
there are in each bucket.  The slot that a place is assigned to is that of the component with it. -/
structure Tells (revisions : Roster String) (buckets : Buckets revisions.size)
    (keys : Vector String revisions.size) (d : Discovery revisions.size)
    (p : Progress revisions.size) : Prop where
  components_eq : d.components = p.components
  reached_eq : Traversal.reached d.assigned = p.reached
  size_counts : d.counts.size = buckets.names.size
  counts_eq : ∀ i, d.counts.getD (buckets.numbers.get i) 0 = p.counts.getD (keys.get i) 0
  assigned_iff : ∀ rev k, (∃ i, revisions.item i = rev ∧ d.assigned.get i = some k) ↔
    ∃ c, d.components[k]? = some c ∧ rev ∈ c.members

namespace Tells

theorem start (revisions : Roster String) (buckets : Buckets revisions.size)
    (keys : Vector String revisions.size) :
    Tells revisions buckets keys
      { assigned := Vector.replicate _ none
        counts := Array.replicate buckets.names.size 0
        components := #[] }
      (Progress.start revisions.size) where
  components_eq := rfl
  reached_eq := Vector.map_replicate
  size_counts := Array.size_replicate
  counts_eq i := by
    rw [Progress.start, Std.TreeMap.getD_emptyc, Array.getD_eq_getD_getElem?,
      Array.getElem?_replicate]
    split_ifs <;> rfl
  assigned_iff rev k := by
    have hnone : ∀ i, (Vector.replicate revisions.size (none : Option ℕ)).get i = none :=
      fun i => Vector.getElem_replicate i.isLt
    simp [hnone]

/-- The counter of a bucket goes up with a component in it. -/
theorem counts_modify (hlists : buckets.Lists keys) (h : Tells revisions buckets keys d p)
    (seed i : Fin revisions.size) :
    (d.counts.modify (buckets.numbers.get seed) (· + 1)).getD (buckets.numbers.get i) 0 =
      (p.counts.insert (keys.get seed) (p.counts.getD (keys.get seed) 0 + 1)).getD
        (keys.get i) 0 := by
  have hlt : buckets.numbers.get i < d.counts.size := h.size_counts ▸ hlists.lt_size i
  have hi := h.counts_eq i
  rw [Array.getD_eq_getD_getElem?, Array.getElem?_eq_getElem hlt, Option.getD_some] at hi
  rw [Array.getD_eq_getD_getElem?, Array.getElem?_modify, Array.getElem?_eq_getElem hlt,
    Std.TreeMap.getD_insert]
  by_cases hbucket : buckets.numbers.get seed = buckets.numbers.get i
  · have hkey := hlists.numbers_eq_iff.mp hbucket
    rw [if_pos hbucket, if_pos (Std.LawfulEqCmp.compare_eq_iff_eq.mpr hkey), hkey, ← hi]
    rfl
  · have hkey : ¬ compare (keys.get seed) (keys.get i) = .eq := fun hcmp =>
      hbucket (hlists.numbers_eq_iff.mpr (Std.LawfulEqCmp.eq_of_compare hcmp))
    rw [if_neg hbucket, if_neg hkey, ← hi]
    rfl

/-- The members of a new component are assigned to its slot, the last one. -/
theorem assigned_push {assigned : Vector (Option ℕ) revisions.size} {components : Array Component}
    (hassigned : ∀ rev k, (∃ i, revisions.item i = rev ∧ assigned.get i = some k) ↔
      ∃ c, components[k]? = some c ∧ rev ∈ c.members)
    {members : List (Fin revisions.size)} {c : Component}
    (hmembers : c.members = members.map revisions.item)
    (hnew : ∀ i ∈ members, assigned.get i = none) (rev : String) (k : ℕ) :
    (∃ i, revisions.item i = rev ∧
        (if i ∈ members then some components.size else assigned.get i) = some k) ↔
      ∃ d, (components.push c)[k]? = some d ∧ rev ∈ d.members := by
  rw [Array.getElem?_push]
  by_cases hk : k = components.size
  · subst hk
    simp only [if_true, Option.some.injEq, exists_eq_left', hmembers, List.mem_map]
    constructor
    · rintro ⟨i, rfl, hi⟩
      split_ifs at hi with hmem
      · exact ⟨i, hmem, rfl⟩
      · obtain ⟨d, hd, -⟩ := (hassigned (revisions.item i) components.size).mp ⟨i, rfl, hi⟩
        exact absurd (Array.getElem?_eq_some_iff.mp hd).1 (lt_irrefl _)
    · rintro ⟨i, hmem, rfl⟩
      exact ⟨i, rfl, if_pos hmem⟩
  · rw [if_neg hk, ← hassigned]
    refine exists_congr fun i => and_congr_right fun _ => ?_
    split_ifs with hmem
    · rw [hnew i hmem, Option.some.injEq]
      exact iff_of_false (fun h => hk h.symm) nofun
    · rfl

/-- **One seed** leads both to the same component, or to none. -/
theorem add (hlists : buckets.Lists keys) (hwithin : adjacent.StaysWithin buckets.numbers)
    (h : Tells revisions buckets keys d p) (seed : Fin revisions.size) :
    Tells revisions buckets keys (Discovery.add revisions buckets adjacent d seed)
      (Progress.add revisions.item keys adjacent p seed) := by
  have hcounts := h.counts_modify hlists seed
  obtain ⟨assigned, counts, components⟩ := d
  obtain ⟨reached, components', counts'⟩ := p
  obtain ⟨hcomponents, hreached, hsize, hsame, hassigned⟩ := h
  dsimp only at hcomponents hreached hsize hsame hassigned hcounts
  subst hcomponents hreached
  unfold Discovery.add Progress.add
  dsimp only
  rw [Traversal.get_reached]
  cases hseed : assigned.get seed with
  | some k =>
    rw [if_pos Option.isSome_some, if_pos Option.isSome_some]
    exact ⟨rfl, rfl, hsize, hsame, hassigned⟩
  | none =>
    rw [if_neg (by simp), if_neg (by simp)]
    have hmembers := Traversal.members_run hwithin hseed components.size
    have hreached := Traversal.reached_run hwithin hseed components.size
    have hslots := Traversal.get_assigned_run hwithin hseed components.size
    have hnumber := hcounts seed
    rw [Std.TreeMap.getD_insert_self] at hnumber
    dsimp only at hslots
    refine ⟨?_, hreached, ?_, hcounts, ?_⟩
    · dsimp only
      rw [hlists.name_eq, hnumber, hmembers]
    · exact (Array.size_modify ..).trans hsize
    · intro rev k
      simp only [hslots]
      exact assigned_push hassigned rfl
        (fun j hj => Traversal.get_eq_none_of_mem_run hwithin hseed components.size hj) rev k

/-- All seeds lead both to the same components. -/
theorem foldl_add (hlists : buckets.Lists keys) (hwithin : adjacent.StaysWithin buckets.numbers)
    (h : Tells revisions buckets keys d p) (seeds : List (Fin revisions.size)) :
    Tells revisions buckets keys (seeds.foldl (Discovery.add revisions buckets adjacent) d)
      (seeds.foldl (Progress.add revisions.item keys adjacent) p) := by
  induction seeds generalizing d p with
  | nil => exact h
  | cons seed seeds ih => exact ih (h.add hlists hwithin seed)

end Tells

end Tells

/-! ### The components of a list of points -/

/-- The neighbours of each measured revision within its bucket. -/
def adjacency (size : BucketSize) (points : List Point) (edges : List MinimalEdge) :
    Adjacency (measuredRevisions points).size :=
  Adjacency.ofEdges (edges.filterMap
    (placeEdge? (measuredRevisions points) (bucketsOf size points (measuredRevisions points))))

instance (size : BucketSize) (points : List Point) (edges : List MinimalEdge) :
    Std.Symm (adjacency size points edges).Joins :=
  Adjacency.joins_ofEdges_symm _

/-- Neighbours have the same number of a bucket. -/
theorem staysWithin_ofEdges {β : Type} [DecidableEq β] {revisions : Roster String}
    {buckets : Vector β revisions.size} {edges : List MinimalEdge} {i j : Fin revisions.size}
    (h : (Adjacency.ofEdges (edges.filterMap (placeEdge? revisions buckets))).Joins i j) :
    buckets.get j = buckets.get i := by
  rw [Adjacency.joins_ofEdges, List.mem_filterMap, List.mem_filterMap] at h
  rcases h with ⟨e, -, he⟩ | ⟨e, -, he⟩
  · exact (placeEdge?_eq_some_iff.mp he).2.2.symm
  · exact (placeEdge?_eq_some_iff.mp he).2.2

section OfPoints

variable (size : BucketSize) (points : List Point) (edges : List MinimalEdge)

/-- The tables of the loop after some seeds. -/
def discovered (seeds : List (Fin (measuredRevisions points).size)) :
    Discovery (measuredRevisions points).size :=
  let buckets := Buckets.assign size (entries (measuredRevisions points) points)
  seeds.foldl (Discovery.add (measuredRevisions points) buckets (adjacency size points edges))
    { assigned := Vector.replicate _ none
      counts := Array.replicate buckets.names.size 0
      components := #[] }

/-- The same search in plain terms after some seeds. -/
def progressed (seeds : List (Fin (measuredRevisions points).size)) :
    Progress (measuredRevisions points).size :=
  seeds.foldl (Progress.add (measuredRevisions points).item
    (bucketsOf size points (measuredRevisions points)) (adjacency size points edges))
    (Progress.start _)

/-- Numbers of buckets and their keys give the same neighbours. -/
theorem ofEdges_numbers :
    Adjacency.ofEdges (edges.filterMap (placeEdge? (measuredRevisions points)
        (Buckets.assign size (entries (measuredRevisions points) points)).numbers)) =
      adjacency size points edges := by
  rw [adjacency, placeEdge?_congr fun i j => (lists_assign size points).numbers_eq_iff]

theorem staysWithin_adjacency :
    (adjacency size points edges).StaysWithin
      (Buckets.assign size (entries (measuredRevisions points) points)).numbers := by
  rw [← ofEdges_numbers]
  exact fun i j hij => staysWithin_ofEdges hij

/-- After any seeds the tables tell what the search in plain terms has found. -/
theorem tells_discovered (seeds : List (Fin (measuredRevisions points).size)) :
    Tells (measuredRevisions points)
      (Buckets.assign size (entries (measuredRevisions points) points))
      (bucketsOf size points (measuredRevisions points)) (discovered size points edges seeds)
      (progressed size points edges seeds) :=
  (Tells.start (measuredRevisions points) _ _).foldl_add (lists_assign size points)
    (staysWithin_adjacency size points edges) seeds

/-- The loop runs over the revisions of all points. -/
theorem ofPoints_eq_discovered :
    let found := discovered size points edges
      ((entries (measuredRevisions points) points).map (·.2))
    ofPoints size points edges =
      { components := found.components
        slots := slotsOf (measuredRevisions points) found.assigned } := by
  rw [discovered, ← ofEdges_numbers]
  rfl

/-- **Components**: the loop finds what the search in plain terms finds. -/
theorem components_ofPoints :
    (ofPoints size points edges).components =
      componentsOf (measuredRevisions points).item
        (bucketsOf size points (measuredRevisions points)) (adjacency size points edges) := by
  rw [ofPoints_eq_discovered, componentsOf, ← appendNew_entries points,
    Progress.foldl_add_appendNew]
  exact (tells_discovered size points edges _).components_eq

/-- In a table made of a list no two of whose keys agree, each key has the value that it is listed
with. -/
theorem getElem?_ofList_iff {l : List (String × ℕ)}
    (hkeys : l.Pairwise fun a b => ¬ compare a.1 b.1 = .eq) {key : String} {k : ℕ} :
    (Std.ExtTreeMap.ofList l)[key]? = some k ↔ (key, k) ∈ l := by
  have hlookup : ∀ {k}, (key, k) ∈ l → (Std.ExtTreeMap.ofList l)[key]? = some k := fun h =>
    Std.ExtTreeMap.getElem?_ofList_of_mem Std.ReflCmp.compare_self hkeys h
  refine ⟨fun h => ?_, hlookup⟩
  have hlisted : key ∈ Std.ExtTreeMap.ofList l := by
    rw [← Std.ExtTreeMap.isSome_getElem?_iff_mem, h]
    rfl
  rw [Std.ExtTreeMap.mem_ofList, List.contains_iff_mem, List.mem_map] at hlisted
  obtain ⟨⟨_, k'⟩, hk', rfl⟩ := hlisted
  rw [hlookup hk', Option.some.injEq] at h
  exact h ▸ hk'

/-- The table of slots has the slot of each place that was assigned. -/
theorem getElem?_slotsOf {revisions : Roster String} {assigned : Vector (Option ℕ) revisions.size}
    {rev : String} {k : ℕ} :
    (slotsOf revisions assigned)[rev]? = some k ↔
      ∃ i, revisions.item i = rev ∧ assigned.get i = some k := by
  have hkeys : ((List.finRange revisions.size).filterMap fun i =>
      (assigned.get i).map (revisions.item i, ·)).Pairwise
        fun a b => ¬ compare a.1 b.1 = .eq := by
    rw [List.pairwise_filterMap]
    refine (List.nodup_finRange _).imp ?_
    intro i j hij a ha b hb hcmp
    obtain ⟨k, -, rfl⟩ := Option.map_eq_some_iff.mp ha
    obtain ⟨k', -, rfl⟩ := Option.map_eq_some_iff.mp hb
    exact hij (revisions.item_injective (Std.LawfulEqCmp.eq_of_compare hcmp))
  rw [slotsOf, getElem?_ofList_iff hkeys]
  simp only [List.mem_filterMap, List.mem_finRange, true_and, Option.map_eq_some_iff,
    Prod.mk.injEq]
  constructor
  · rintro ⟨i, k, hi, rfl, rfl⟩
    exact ⟨i, rfl, hi⟩
  · rintro ⟨i, rfl, hi⟩
    exact ⟨i, k, hi, rfl, rfl⟩

/-- **Slots**: the slot of a revision is that of the component that lists it. -/
theorem getElem?_slots_iff {size : BucketSize} {points : List Point} {edges : List MinimalEdge}
    {rev : String} {k : ℕ} :
    (ofPoints size points edges).slots[rev]? = some k ↔
      ∃ c, (ofPoints size points edges).components[k]? = some c ∧ rev ∈ c.members := by
  rw [ofPoints_eq_discovered]
  exact getElem?_slotsOf.trans ((tells_discovered size points edges _).assigned_iff rev k)

/-- The components tell the slots, and so the whole partition. -/
theorem ofPoints_eq_of_components_eq {size size' : BucketSize} {points points' : List Point}
    {edges edges' : List MinimalEdge}
    (h : (ofPoints size points edges).components = (ofPoints size' points' edges').components) :
    ofPoints size points edges = ofPoints size' points' edges' := by
  have hslots : (ofPoints size points edges).slots = (ofPoints size' points' edges').slots := by
    apply Std.ExtTreeMap.ext_getElem?
    intro rev
    apply Option.ext
    intro k
    rw [getElem?_slots_iff, getElem?_slots_iff, h]
  exact congrArg₂ Partition.mk h hslots

end OfPoints

end MetricHistory.Partition
