import MetricHistory.Proofs.Component.Distance
import MetricHistory.Proofs.Component.Partition
import MetricHistory.Sample.Fixture
import Mathlib.Data.List.Infix
import Mathlib.Order.Minimal

/-!
# Breadth-first order

The members of a component are listed by their distance from the first one.  Members at one distance
come in the order of their first neighbours one step nearer, and those that share this neighbour in
the order of the edges that join them with it.

* `Adjacency.idxOf_levelAt_lt`: the order of a level, from that of the level before it and that of
  the neighbours of one place.
* `Adjacency.idxOf_classFrom`, `Adjacency.pairwise_isDistance_le`: the order of all levels.
* `Component.BreadthFirst`: the order of members, told by their edges alone.
* `Partition.exists_distances_queued`: what the queue of a search holds at any time.
* `Partition.touches_item_iff`, `Partition.isAt_item_iff`: edges and distances in a component are
  those between places.
* `Partition.breadthFirst_of_mem`: the components of any points under any edges have this order.
-/

namespace MetricHistory

open Relation

/-! ### What comes before what -/

section Before

variable {α β : Type} [DecidableEq α] [DecidableEq β]

/-- What a beginning of a list holds comes before what it does not hold. -/
theorem idxOf_lt_of_isPrefix {p l : List α} {a b : α} (hp : p <+: l) (ha : a ∈ p) (hb : b ∉ p) :
    l.idxOf a < l.idxOf b := by
  rw [hp.mem_iff_idxOf_lt_length] at ha hb
  exact lt_of_lt_of_le ha (not_lt.mp hb)

/-- Items stand at the same positions under other names. -/
theorem idxOf_map {f : α → β} (hf : Function.Injective f) (l : List α) (a : α) :
    (l.map f).idxOf (f a) = l.idxOf a := by
  rw [List.idxOf, List.findIdx_map]
  congr 1
  funext b
  simp [hf.eq_iff]

end Before

namespace Adjacency

variable {n : Nat} {adjacent : Adjacency n} {reached : Vector Bool n} {seed : Fin n} {d e : Nat}
  {u v w : Fin n}

/-! ### The order of a level -/

/-- Places of a level come in the order in which they are met from the level before it. -/
theorem idxOf_levelAt_lt_of_isPrefix {p : List (Fin n)}
    (hp : p <+: (adjacent.levelAt reached seed d).flatMap (adjacent.get ·))
    (hv : v ∈ adjacent.levelAt reached seed (d + 1)) (hvp : v ∈ p) (hwp : w ∉ p) :
    (adjacent.levelAt reached seed (d + 1)).idxOf v <
      (adjacent.levelAt reached seed (d + 1)).idxOf w := by
  rw [levelAt_succ] at hv ⊢
  have hfresh := (mem_fresh_nextLevel.mp hv).1
  rw [fresh_nextLevel]
  apply idxOf_lt_of_isPrefix (appendNew_isPrefix (hp.filter _))
  · rw [mem_appendNew_nil, List.mem_filter]
    exact ⟨hvp, by rw [hfresh, Bool.not_false]⟩
  · rw [mem_appendNew_nil, List.mem_filter]
    exact fun h => hwp h.1

/-- What the neighbour `u` gives comes before what neither an earlier place of its level gives nor
`u` up to there. -/
theorem idxOf_levelAt_lt (hu : u ∈ adjacent.levelAt reached seed d)
    (hv : v ∈ adjacent.levelAt reached seed (d + 1))
    {r : List (Fin n)} (hr : r <+: adjacent.get u) (hvr : v ∈ r) (hwr : w ∉ r)
    (hw : ∀ x ∈ adjacent.levelAt reached seed d, adjacent.Joins x w →
      (adjacent.levelAt reached seed d).idxOf u ≤ (adjacent.levelAt reached seed d).idxOf x) :
    (adjacent.levelAt reached seed (d + 1)).idxOf v <
      (adjacent.levelAt reached seed (d + 1)).idxOf w := by
  -- what the places before `u` give, and what `u` gives up to `v`
  obtain ⟨earlier, later, hlevel, hnot⟩ := List.eq_append_cons_of_mem hu
  apply idxOf_levelAt_lt_of_isPrefix (p := earlier.flatMap (adjacent.get ·) ++ r) ?_ hv
  · exact List.mem_append_right _ hvr
  · rw [List.mem_append, List.mem_flatMap, not_or]
    refine ⟨?_, hwr⟩
    rintro ⟨x, hx, hxw⟩
    have hle := hw x (hlevel ▸ List.mem_append_left _ hx) hxw
    have hlt := idxOf_lt_of_isPrefix (List.prefix_append earlier (u :: later)) hx hnot
    rw [← hlevel] at hlt
    omega
  · rw [hlevel, List.flatMap_append, List.flatMap_cons, List.prefix_append_right_inj]
    exact hr.trans (List.prefix_append _ _)

/-! ### The order of all levels -/

/-- A place stands behind all earlier levels, as far as it stands in its own level. -/
theorem idxOf_classFrom (hseed : reached.get seed = false)
    (hv : v ∈ adjacent.levelAt reached seed d) :
    (adjacent.classFrom reached seed).fresh.toList.idxOf v =
      ((List.range d).flatMap (adjacent.levelAt reached seed)).length +
        (adjacent.levelAt reached seed d).idxOf v := by
  obtain ⟨m, heq, hempty⟩ := adjacent.exists_classFrom_eq reached seed
  have hd : d < m := by
    by_contra hle
    rw [hempty d (not_lt.mp hle)] at hv
    exact List.not_mem_nil hv
  obtain ⟨k, rfl⟩ := Nat.exists_eq_add_of_lt hd
  have hearlier : v ∉ (List.range d).flatMap (adjacent.levelAt reached seed) := fun h =>
    List.disjoint_of_nodup_append (adjacent.search_stateAt hseed d).nodup h hv
  rw [heq, Nat.add_assoc, List.range_add, List.flatMap_append,
    List.idxOf_append_of_notMem hearlier, List.range_succ_eq_map, List.map_cons, List.flatMap_cons,
    Nat.add_zero, List.idxOf_append_of_mem hv]

/-- Two places of one level stand as they do within the level. -/
theorem idxOf_classFrom_lt_iff (hseed : reached.get seed = false)
    (hv : v ∈ adjacent.levelAt reached seed d) (hw : w ∈ adjacent.levelAt reached seed d) :
    (adjacent.classFrom reached seed).fresh.toList.idxOf v <
        (adjacent.classFrom reached seed).fresh.toList.idxOf w ↔
      (adjacent.levelAt reached seed d).idxOf v < (adjacent.levelAt reached seed d).idxOf w := by
  rw [idxOf_classFrom hseed hv, idxOf_classFrom hseed hw, Nat.add_lt_add_iff_left]

/-- Distances from the seed never decrease. -/
theorem pairwise_isDistance_le [Std.Symm adjacent.Joins] (hsettled : adjacent.Settled reached)
    (hseed : reached.get seed = false) :
    (adjacent.classFrom reached seed).fresh.toList.Pairwise fun i j =>
      ∀ d e, IsDistance adjacent.Joins seed d i → IsDistance adjacent.Joins seed e j → d ≤ e := by
  obtain ⟨m, heq, -⟩ := adjacent.exists_classFrom_eq reached seed
  -- a place has the distance of its level only
  have hlevel : ∀ (k d : Nat) (i : Fin n), i ∈ adjacent.levelAt reached seed k →
      IsDistance adjacent.Joins seed d i → d = k := fun k d i hi hd =>
    hd.unique ((mem_levelAt_iff hsettled hseed).mp hi)
  rw [heq, List.pairwise_flatMap]
  constructor
  · intro k _
    refine List.pairwise_of_forall_mem_list ?_
    intro i hi j hj d e hd he
    rw [hlevel k d i hi hd, hlevel k e j hj he]
  · refine List.pairwise_lt_range.imp ?_
    intro k l hkl i hi j hj d e hd he
    rw [hlevel k d i hi hd, hlevel l e j hj he]
    exact hkl.le

end Adjacency

/-! ### Breadth-first order of a component -/

namespace Component

section Definitions

variable (c : Component) (edges : List MinimalEdge)

/-- An edge joins two members, in either direction. -/
def Touches (a b : String) : Prop :=
  (⟨a, b⟩ ∈ edges ∨ ⟨b, a⟩ ∈ edges) ∧ a ∈ c.members ∧ b ∈ c.members

/-- The least number of edges between the first member and `rev`, through members, is `d`. -/
def IsAt (d : Nat) (rev : String) : Prop :=
  ∃ first ∈ c.members.head?, IsDistance (c.Touches edges) first d rev

/-- Among the members at distance `d` that an edge joins with `rev`, `u` is listed first. -/
structure IsFirstNeighbour (d : Nat) (u rev : String) : Prop where
  isAt : c.IsAt edges d u
  touches : c.Touches edges u rev
  idxOf_le : ∀ x, c.IsAt edges d x → c.Touches edges x rev →
    c.members.idxOf u ≤ c.members.idxOf x

end Definitions

variable {c : Component} {edges : List MinimalEdge} {d : Nat} {rev : String}

theorem IsAt.mem (h : c.IsAt edges d rev) : rev ∈ c.members := by
  obtain ⟨first, hfirst, hsteps, -⟩ := h
  cases hsteps with
  | zero => exact List.mem_of_head? hfirst
  | succ _ hstep => exact hstep.2.2

/-- A member that is not the first one has neighbours nearer to it. -/
theorem IsAt.exists_isFirstNeighbour (h : c.IsAt edges (d + 1) rev) :
    ∃ u, c.IsFirstNeighbour edges d u rev := by
  obtain ⟨first, hfirst, hdistance⟩ := h
  obtain ⟨x, hx, hstep⟩ := hdistance.exists_pred
  obtain ⟨u, ⟨hu, htouches⟩, hleast⟩ := exists_minimalFor_of_wellFoundedLT
    (fun a => c.IsAt edges d a ∧ c.Touches edges a rev) c.members.idxOf
    ⟨x, ⟨first, hfirst, hx⟩, hstep⟩
  refine ⟨u, hu, htouches, fun y hy hyrev => ?_⟩
  exact (le_total _ _).elim (fun h => h) (hleast ⟨hy, hyrev⟩)

end Component

/-- The position of the first edge that joins `a` and `b`, in either direction. -/
def firstJoining (edges : List MinimalEdge) (a b : String) : Nat :=
  edges.findIdx fun e => e = ⟨a, b⟩ ∨ e = ⟨b, a⟩

section FirstJoining

variable {edges : List MinimalEdge} {a b b' : String} {k : Nat}

theorem exists_getElem_firstJoining (h : ⟨a, b⟩ ∈ edges ∨ ⟨b, a⟩ ∈ edges) :
    ∃ hlt : firstJoining edges a b < edges.length,
      edges[firstJoining edges a b] = ⟨a, b⟩ ∨ edges[firstJoining edges a b] = ⟨b, a⟩ := by
  have hlt : firstJoining edges a b < edges.length := by
    rw [firstJoining, List.findIdx_lt_length]
    rcases h with h | h
    · exact ⟨_, h, by simp⟩
    · exact ⟨_, h, by simp⟩
  refine ⟨hlt, ?_⟩
  have hfound := List.findIdx_getElem (w := hlt)
  rwa [decide_eq_true_eq] at hfound

/-- One of the first `k` edges joins two revisions if the first that does so is among them. -/
theorem firstJoining_lt_iff (h : ⟨a, b⟩ ∈ edges ∨ ⟨b, a⟩ ∈ edges) :
    firstJoining edges a b < k ↔ ⟨a, b⟩ ∈ edges.take k ∨ ⟨b, a⟩ ∈ edges.take k := by
  obtain ⟨hlt, hfound⟩ := exists_getElem_firstJoining h
  simp only [List.mem_take_iff_getElem]
  constructor
  · intro hk
    exact hfound.imp (fun he => ⟨_, lt_min hk hlt, he⟩) (fun he => ⟨_, lt_min hk hlt, he⟩)
  · intro hk
    obtain ⟨m, hm, he⟩ : ∃ (m : Nat) (hm : m < min k edges.length),
        edges[m] = ⟨a, b⟩ ∨ edges[m] = ⟨b, a⟩ := by
      rcases hk with ⟨m, hm, he⟩ | ⟨m, hm, he⟩
      · exact ⟨m, hm, Or.inl he⟩
      · exact ⟨m, hm, Or.inr he⟩
    by_contra hle
    have hmlt : m < firstJoining edges a b := by omega
    exact of_decide_eq_false (List.not_of_lt_findIdx hmlt) he

/-- Different revisions are joined with `a` by different edges. -/
theorem eq_of_firstJoining_eq (h : ⟨a, b⟩ ∈ edges ∨ ⟨b, a⟩ ∈ edges)
    (h' : ⟨a, b'⟩ ∈ edges ∨ ⟨b', a⟩ ∈ edges)
    (heq : firstJoining edges a b = firstJoining edges a b') : b = b' := by
  obtain ⟨hlt, hfound⟩ := exists_getElem_firstJoining h
  obtain ⟨hlt', hfound'⟩ := exists_getElem_firstJoining h'
  simp only [heq] at hfound
  rcases hfound with hfound | hfound <;> rcases hfound' with hfound' | hfound' <;>
    · cases hfound.symm.trans hfound'
      rfl

end FirstJoining

/-- The members of a component are in breadth-first order: by their distance from the first of them,
then by their first neighbour one step nearer to it, then by the edge that joins them with this
neighbour. -/
structure Component.BreadthFirst (c : Component) (edges : List MinimalEdge) : Prop where
  exists_isAt : ∀ rev ∈ c.members, ∃ d, c.IsAt edges d rev
  /-- Distances never decrease along the list. -/
  pairwise_le : c.members.Pairwise fun a b => ∀ d e, c.IsAt edges d a → c.IsAt edges e b → d ≤ e
  exists_isFirstNeighbour : ∀ d rev, c.IsAt edges (d + 1) rev →
    ∃ u, c.IsFirstNeighbour edges d u rev
  /-- Members at one distance whose first neighbours differ are listed as these are. -/
  idxOf_lt_iff_of_ne : ∀ d v w u x, c.IsAt edges (d + 1) v → c.IsAt edges (d + 1) w →
    c.IsFirstNeighbour edges d u v → c.IsFirstNeighbour edges d x w → u ≠ x →
      (c.members.idxOf v < c.members.idxOf w ↔ c.members.idxOf u < c.members.idxOf x)
  /-- Members with the same first neighbour are listed as the edges that join them with it. -/
  idxOf_lt_iff : ∀ d v w u, c.IsAt edges (d + 1) v → c.IsAt edges (d + 1) w →
    c.IsFirstNeighbour edges d u v → c.IsFirstNeighbour edges d u w →
      (c.members.idxOf v < c.members.idxOf w ↔ firstJoining edges u v < firstJoining edges u w)

namespace Partition

variable {size : BucketSize} {points : List Point} {edges : List MinimalEdge} {c : Component}
  {seed i j u v w x : Fin (measuredRevisions points).size} {d : Nat}

/-! ### The queue -/

/-- What was assigned after any seeds is closed under adjacency. -/
theorem settled_discovered (size : BucketSize) (points : List Point) (edges : List MinimalEdge)
    (seeds : List (Fin (measuredRevisions points).size)) :
    (adjacency size points edges).Settled
      (Traversal.reached (discovered size points edges seeds).assigned) := by
  rw [(tells_discovered size points edges seeds).reached_eq]
  exact (inv_progressed size points edges seeds).settled

/-- **The queue**: at any time of the search from any seed, the places that wait are at most two
distances from it, which follow one another, and the nearer ones are visited first. -/
theorem exists_distances_queued {seeds : List (Fin (measuredRevisions points).size)}
    (hseed : (discovered size points edges seeds).assigned.get seed = none)
    {t : Traversal (measuredRevisions points).size} :
    let numbers := (Buckets.assign size (entries (measuredRevisions points) points)).numbers
    let found := discovered size points edges seeds
    let slot := found.components.size
    let bucket := numbers.get seed
    ReflTransGen (fun t t' => t.turn? (adjacency size points edges) numbers bucket slot = some t')
        (Traversal.start found.assigned slot seed) t →
      ∃ d near far, t.queued = near ++ far ∧
        (∀ i ∈ near, IsDistance (adjacency size points edges).Joins seed d i) ∧
        (∀ i ∈ far, IsDistance (adjacency size points edges).Joins seed (d + 1) i) :=
  Traversal.queued_adjacent_distances (staysWithin_adjacency size points edges)
    (settled_discovered size points edges seeds) hseed

/-! ### Places and members -/

/-- The neighbours of a member, by the edges within its bucket. -/
theorem joins_iff_of_mem (hc : c ∈ (ofPoints size points edges).components.toList)
    (hi : (measuredRevisions points).item i ∈ c.members) {edges' : List MinimalEdge} :
    (adjacency size points edges').Joins i j ↔
      BucketStep size points edges' c.bucket ((measuredRevisions points).item i)
        ((measuredRevisions points).item j) := by
  have hbucket := bucketOf?_of_mem hc hi
  rw [bucketOf?_item, Option.some.injEq] at hbucket
  rw [joins_iff, hbucket]

/-- Edges within a component join neighbouring places. -/
theorem touches_item_iff (hc : c ∈ (ofPoints size points edges).components.toList)
    (hi : (measuredRevisions points).item i ∈ c.members) :
    c.Touches edges ((measuredRevisions points).item i) ((measuredRevisions points).item j) ↔
      (adjacency size points edges).Joins i j := by
  rw [joins_iff_of_mem hc hi]
  constructor
  · rintro ⟨hedge, -, hj⟩
    exact ⟨hedge, bucketOf?_of_mem hc hi, bucketOf?_of_mem hc hj⟩
  · intro hstep
    refine ⟨hstep.1, hi, (mem_members_iff_joined hc hi).mpr ?_⟩
    exact ⟨c.bucket, hstep.2.1, hstep.2.2, .single hstep⟩

/-- Paths within a component are those between places. -/
theorem steps_item_iff (hc : c ∈ (ofPoints size points edges).components.toList)
    (hseed : (measuredRevisions points).item seed ∈ c.members) :
    Steps (c.Touches edges) ((measuredRevisions points).item seed) d
        ((measuredRevisions points).item i) ↔
      Steps (adjacency size points edges).Joins seed d i := by
  constructor
  · intro h
    generalize hrev : (measuredRevisions points).item i = rev at h
    induction h generalizing i with
    | zero =>
      obtain rfl := (measuredRevisions points).item_injective hrev
      exact .zero
    | succ hsteps hstep ih =>
      obtain ⟨k, rfl⟩ := exists_item_of_mem hc hstep.2.1
      subst hrev
      exact (ih rfl).succ ((touches_item_iff hc hstep.2.1).mp hstep)
  · intro h
    induction h with
    | zero => exact .zero
    | @succ d j k hsteps hstep ih =>
      have hj : (measuredRevisions points).item j ∈ c.members :=
        (mem_members_iff_joined hc hseed).mpr (joined_item_iff.mpr hsteps.reflTransGen)
      exact ih.succ ((touches_item_iff hc hj).mpr hstep)

/-- The neighbours that the first edges give come first. -/
theorem get_adjacency_isPrefix (size : BucketSize) (points : List Point)
    {edges edges' : List MinimalEdge} (h : edges <+: edges')
    (i : Fin (measuredRevisions points).size) :
    (adjacency size points edges).get i <+: (adjacency size points edges').get i := by
  rw [adjacency, adjacency, Adjacency.get_ofEdges, Adjacency.get_ofEdges]
  exact List.IsPrefix.flatMap (h.filterMap _) _

/-! ### The component of one search -/

section Found

variable {reached : Vector Bool (measuredRevisions points).size}
  (hc : c ∈ (ofPoints size points edges).components.toList)
  (hseed : reached.get seed = false)
  (hmembers : c.members =
    ((adjacency size points edges).classFrom reached seed).fresh.toList.map
      (measuredRevisions points).item)

include hmembers in
theorem head?_members : c.members.head? = some ((measuredRevisions points).item seed) := by
  obtain ⟨rest, hrest⟩ := (adjacency size points edges).exists_classFrom_eq_cons reached seed
  rw [hmembers, hrest, List.map_cons, List.head?_cons]

include hc hmembers in
/-- The distance of a member is that of its place from the seed. -/
theorem isAt_item_iff :
    c.IsAt edges d ((measuredRevisions points).item i) ↔
      IsDistance (adjacency size points edges).Joins seed d i := by
  have hhead := head?_members hmembers
  have hsteps : ∀ k, Steps (c.Touches edges) ((measuredRevisions points).item seed) k
      ((measuredRevisions points).item i) ↔ Steps (adjacency size points edges).Joins seed k i :=
    fun k => steps_item_iff hc (List.mem_of_head? hhead)
  simp only [Component.IsAt, hhead, Option.mem_some_iff, exists_eq_left', IsDistance, hsteps]

include hseed hmembers in
/-- Members at one distance stand as they do within their level. -/
theorem idxOf_item_lt_iff (hv : v ∈ (adjacency size points edges).levelAt reached seed d)
    (hw : w ∈ (adjacency size points edges).levelAt reached seed d) :
    c.members.idxOf ((measuredRevisions points).item v) <
        c.members.idxOf ((measuredRevisions points).item w) ↔
      ((adjacency size points edges).levelAt reached seed d).idxOf v <
        ((adjacency size points edges).levelAt reached seed d).idxOf w := by
  have hinj := (measuredRevisions points).item_injective
  rw [hmembers, idxOf_map hinj, idxOf_map hinj, Adjacency.idxOf_classFrom_lt_iff hseed hv hw]

end Found

/-- A member stands before another that `u` does not give up to there, if no neighbour of that one
stands before `u`. -/
theorem idxOf_members_lt (hc : c ∈ (ofPoints size points edges).components.toList)
    {r : List (Fin (measuredRevisions points).size)}
    (hr : r <+: (adjacency size points edges).get u) (hvr : v ∈ r) (hwr : w ∉ r)
    (hv : c.IsAt edges (d + 1) ((measuredRevisions points).item v))
    (hw : c.IsAt edges (d + 1) ((measuredRevisions points).item w))
    (hu : c.IsAt edges d ((measuredRevisions points).item u))
    (hle : ∀ x, c.IsAt edges d x → c.Touches edges x ((measuredRevisions points).item w) →
      c.members.idxOf ((measuredRevisions points).item u) ≤ c.members.idxOf x) :
    c.members.idxOf ((measuredRevisions points).item v) <
      c.members.idxOf ((measuredRevisions points).item w) := by
  obtain ⟨seed, reached, hsettled, hseed, hmembers, -⟩ := exists_isFoundFrom hc
  have hlevel : ∀ {d i}, c.IsAt edges d ((measuredRevisions points).item i) ↔
      i ∈ (adjacency size points edges).levelAt reached seed d := by
    intro d i
    rw [isAt_item_iff hc hmembers, Adjacency.mem_levelAt_iff hsettled hseed]
  rw [hlevel] at hv hw hu
  rw [idxOf_item_lt_iff hseed hmembers hv hw]
  refine Adjacency.idxOf_levelAt_lt hu hv hr hvr hwr fun x hx hxw => ?_
  have hxu := hle _ (hlevel.mpr hx) ((touches_item_iff hc (hlevel.mpr hx).mem).mpr hxw)
  by_contra hlt
  have := (idxOf_item_lt_iff hseed hmembers hx hu).mpr (not_le.mp hlt)
  omega

/-! ### The order of members -/

section Order

variable {a b a' b' rev : String}

/-- Every member has a distance. -/
theorem exists_isAt (hc : c ∈ (ofPoints size points edges).components.toList)
    (hrev : rev ∈ c.members) : ∃ d, c.IsAt edges d rev := by
  obtain ⟨seed, reached, hsettled, hseed, hmembers, -⟩ := exists_isFoundFrom hc
  rw [hmembers, List.mem_map] at hrev
  obtain ⟨i, hi, rfl⟩ := hrev
  obtain ⟨k, hsteps⟩ := exists_steps ((Adjacency.mem_classFrom_iff hsettled hseed).mp hi)
  obtain ⟨d, -, hd⟩ := hsteps.exists_isDistance
  exact ⟨d, (isAt_item_iff hc hmembers).mpr hd⟩

/-- Members come by their distance. -/
theorem pairwise_isAt_le (hc : c ∈ (ofPoints size points edges).components.toList) :
    c.members.Pairwise fun a b => ∀ d e, c.IsAt edges d a → c.IsAt edges e b → d ≤ e := by
  obtain ⟨seed, reached, hsettled, hseed, hmembers, -⟩ := exists_isFoundFrom hc
  have hsorted := Adjacency.pairwise_isDistance_le hsettled hseed
  simp only [← isAt_item_iff hc hmembers] at hsorted
  rw [← List.pairwise_map (R := fun a b => ∀ d e, c.IsAt edges d a → c.IsAt edges e b → d ≤ e),
    ← hmembers] at hsorted
  exact hsorted

/-- Of two members at one distance the one with the earlier neighbour comes first. -/
theorem idxOf_lt_of_neighbour (hc : c ∈ (ofPoints size points edges).components.toList)
    (hb : c.IsAt edges (d + 1) b) (hb' : c.IsAt edges (d + 1) b')
    (ha : c.IsFirstNeighbour edges d a b) (ha' : c.IsFirstNeighbour edges d a' b')
    (hlt : c.members.idxOf a < c.members.idxOf a') : c.members.idxOf b < c.members.idxOf b' := by
  obtain ⟨u, rfl⟩ := exists_item_of_mem hc ha.isAt.mem
  obtain ⟨v, rfl⟩ := exists_item_of_mem hc hb.mem
  obtain ⟨w, rfl⟩ := exists_item_of_mem hc hb'.mem
  apply idxOf_members_lt hc List.prefix_rfl ((touches_item_iff hc ha.isAt.mem).mp ha.touches) ?_ hb
    hb' ha.isAt
  · intro x hx hxw
    exact hlt.le.trans (ha'.idxOf_le x hx hxw)
  · intro huw
    have htouches := (touches_item_iff hc ha.isAt.mem).mpr huw
    exact absurd hlt (not_lt.mpr (ha'.idxOf_le _ ha.isAt htouches))

/-- Of two members with the same first neighbour the one that an earlier edge joins with it comes
first. -/
theorem idxOf_lt_of_edge (hc : c ∈ (ofPoints size points edges).components.toList)
    (hb : c.IsAt edges (d + 1) b) (hb' : c.IsAt edges (d + 1) b')
    (ha : c.IsFirstNeighbour edges d a b) (ha' : c.IsFirstNeighbour edges d a b')
    (hlt : firstJoining edges a b < firstJoining edges a b') :
    c.members.idxOf b < c.members.idxOf b' := by
  obtain ⟨u, rfl⟩ := exists_item_of_mem hc ha.isAt.mem
  obtain ⟨v, rfl⟩ := exists_item_of_mem hc hb.mem
  obtain ⟨w, rfl⟩ := exists_item_of_mem hc hb'.mem
  -- the edges up to the one that joins `u` with `v` give `u` some of its neighbours
  have hr := get_adjacency_isPrefix size points
    (List.take_prefix (firstJoining edges ((measuredRevisions points).item u)
      ((measuredRevisions points).item v) + 1) edges) u
  refine idxOf_members_lt hc hr ?_ ?_ hb hb' ha.isAt ha'.idxOf_le
  · apply (joins_iff_of_mem hc ha.isAt.mem).mpr
    exact ⟨(firstJoining_lt_iff ha.touches.1).mp (Nat.lt_succ_self _),
      bucketOf?_of_mem hc ha.isAt.mem, bucketOf?_of_mem hc hb.mem⟩
  · intro huw
    have hedge := ((joins_iff_of_mem hc ha.isAt.mem).mp huw).1
    have := (firstJoining_lt_iff ha'.touches.1).mpr hedge
    omega

/-- **Breadth-first order**: the members of every component are in breadth-first order. -/
theorem breadthFirst_of_mem (hc : c ∈ (ofPoints size points edges).components.toList) :
    c.BreadthFirst edges where
  exists_isAt _ hrev := exists_isAt hc hrev
  pairwise_le := pairwise_isAt_le hc
  exists_isFirstNeighbour _ _ hrev := hrev.exists_isFirstNeighbour
  idxOf_lt_iff_of_ne d v w u x hv hw hu hx hne := by
    refine ⟨fun hvw => ?_, idxOf_lt_of_neighbour hc hv hw hu hx⟩
    by_contra hle
    have hux : c.members.idxOf u ≠ c.members.idxOf x := fun h =>
      hne ((List.idxOf_inj hu.isAt.mem).mp h)
    have := idxOf_lt_of_neighbour hc hw hv hx hu (by omega)
    omega
  idxOf_lt_iff d v w u hv hw hu hu' := by
    refine ⟨fun hvw => ?_, idxOf_lt_of_edge hc hv hw hu hu'⟩
    by_contra hle
    have hne : firstJoining edges u v ≠ firstJoining edges u w := by
      intro h
      obtain rfl := eq_of_firstJoining_eq hu.touches.1 hu'.touches.1 h
      exact lt_irrefl _ hvw
    have := idxOf_lt_of_edge hc hw hv hu' hu (by omega)
    omega

/-- A merge in which one edge leads backwards, one to its own beginning, and one occurs twice. -/
theorem breadthFirst_of_mem_merge :
    let points := Fixture.merge.history.points
    let edges : List MinimalEdge := [⟨"base", "right"⟩, ⟨"right", "merged"⟩, ⟨"left", "base"⟩,
      ⟨"left", "left"⟩, ⟨"base", "right"⟩, ⟨"left", "merged"⟩]
    let c : Component := ⟨"2024-01-03", "2024-01-03:1", ["base", "right", "left", "merged"]⟩
    c ∈ (ofPoints .day points edges).components.toList ∧ c.BreadthFirst edges := by
  intro points edges c
  have hc : c ∈ (ofPoints .day points edges).components.toList := by decide +kernel
  exact ⟨hc, breadthFirst_of_mem hc⟩

end Order

end Partition

end MetricHistory
