import MetricHistory.Calendar.Bucket
import MetricHistory.History
import MetricHistory.Roster
import Std.Data.ExtTreeMap

/-!
## Components

The measured revisions, grouped by calendar bucket and by ancestry: two revisions belong together
when minimal edges join them, in either direction, without leaving the bucket.

* `Adjacency.ofEdges`: the neighbours of each revision within its bucket.
* `Traversal.run`: visits everything that can be reached from a first revision, which waits in a
  queue for its turn.
* `Buckets.assign`: the bucket of each revision, that of its last point.
* `Partition.ofPoints`: the components of a list of points, in the order in which their first points
  are listed, and the component of each revision.
-/

namespace MetricHistory

/-- Revisions that belong together, within one bucket. -/
structure Component where
  bucket : String
  id : String
  members : List String
deriving DecidableEq, Inhabited

/-- The neighbours of `n` numbered revisions. -/
abbrev Adjacency (n : Nat) := Vector (List (Fin n)) n

namespace Adjacency

variable {n : Nat}

/-- The neighbours of each place, from pairs of places: each pair makes the two neighbours of each
other, the second of the first to begin with. -/
def ofEdges (edges : List (Fin n × Fin n)) : Adjacency n :=
  edges.foldr
    (fun (a, b) table =>
      let table := table.put b (a :: table.get b)
      table.put a (b :: table.get a))
    (Vector.replicate n [])

/-- The neighbours of a place, in the order of the edges: an edge counts at either end. -/
theorem get_ofEdges (edges : List (Fin n × Fin n)) (i : Fin n) :
    (ofEdges edges).get i = edges.flatMap fun e =>
      (if e.1 = i then [e.2] else []) ++ (if e.2 = i then [e.1] else []) := by
  induction edges with
  | nil => exact Vector.getElem_replicate i.isLt
  | cons e rest ih =>
    obtain ⟨a, b⟩ := e
    rw [List.flatMap_cons, ← ih]
    have hcons : ofEdges ((a, b) :: rest) =
        ((ofEdges rest).put b (a :: (ofEdges rest).get b)).put a
          (b :: ((ofEdges rest).put b (a :: (ofEdges rest).get b)).get a) := rfl
    rw [hcons, Vector.get_put, Vector.get_put, Vector.get_put]
    by_cases ha : a = i <;> by_cases hb : b = i <;> simp_all

end Adjacency

/-! ### One component -/

/-- A search for one component: the component that each place was assigned to, the places that wait
to be visited, and the places visited. -/
structure Traversal (n : Nat) where
  assigned : Vector (Option Nat) n
  queue : Std.Queue (Fin n)
  members : Array (Fin n)

namespace Traversal

variable {n : Nat}

/-- The places that wait to be visited, in the order in which they leave the queue. -/
def queued (t : Traversal n) : List (Fin n) :=
  t.queue.dList ++ t.queue.eList.reverse

/-- Assigns a place to the component in `slot` and lets it wait, unless it was assigned before or
lies in another bucket. -/
def reach (buckets : Vector Nat n) (bucket slot : Nat) (t : Traversal n) (next : Fin n) :
    Traversal n :=
  match t with
  | ⟨assigned, queue, members⟩ =>
    if (assigned.get next).isNone && buckets.get next == bucket then
      ⟨assigned.put next (some slot), queue.enqueue next, members⟩
    else ⟨assigned, queue, members⟩

/-- Visits the place that has waited longest and reaches its neighbours, if any place waits. -/
def turn? (adjacent : Adjacency n) (buckets : Vector Nat n) (bucket slot : Nat)
    (t : Traversal n) : Option (Traversal n) :=
  match t with
  | ⟨assigned, queue, members⟩ =>
    match queue.dequeue? with
    | none => none
    | some (current, queue) =>
      some ((adjacent.get current).foldl (reach buckets bucket slot)
        ⟨assigned, queue, members.push current⟩)

/-- The places that wait and those that were not assigned. -/
def remaining (t : Traversal n) : Nat :=
  t.queued.length + t.assigned.count none

theorem queued_enqueue (assigned : Vector (Option Nat) n) (queue : Std.Queue (Fin n))
    (members : Array (Fin n)) (i : Fin n) :
    queued ⟨assigned, queue.enqueue i, members⟩ = queued ⟨assigned, queue, members⟩ ++ [i] := by
  simp [queued, Std.Queue.enqueue]

/-- The place that leaves the queue is the first of those that wait. -/
theorem queued_dequeue? {queue queue' : Std.Queue (Fin n)} {current : Fin n}
    (h : queue.dequeue? = some (current, queue')) (assigned : Vector (Option Nat) n)
    (members : Array (Fin n)) :
    queued ⟨assigned, queue, members⟩ = current :: queued ⟨assigned, queue', members⟩ := by
  unfold Std.Queue.dequeue? at h
  unfold queued
  split at h
  · next d ds hd =>
    cases h
    simp [hd]
  · next hd =>
    split at h
    · cases h
    · next d ds he =>
      cases h
      simp [hd, he]

/-- Only if no place waits does none leave the queue. -/
theorem queued_of_dequeue?_eq_none {queue : Std.Queue (Fin n)} (h : queue.dequeue? = none)
    (assigned : Vector (Option Nat) n) (members : Array (Fin n)) :
    queued ⟨assigned, queue, members⟩ = [] := by
  unfold Std.Queue.dequeue? at h
  unfold queued
  split at h
  · cases h
  · next hd =>
    split at h
    · next he => simp [hd, he]
    · cases h

/-- A place that is assigned waits. -/
theorem remaining_reach (buckets : Vector Nat n) (bucket slot : Nat) (t : Traversal n)
    (next : Fin n) : (t.reach buckets bucket slot next).remaining = t.remaining := by
  obtain ⟨assigned, queue, members⟩ := t
  unfold reach
  dsimp only
  split
  · next h =>
    have hnone : assigned[next.val] = none := by
      simp only [Bool.and_eq_true, Option.isNone_iff_eq_none] at h
      exact h.1
    have hpos : 0 < assigned.count none :=
      Vector.count_pos_iff.2 (hnone ▸ Vector.getElem_mem next.isLt)
    have hsome : (some slot == (none : Option Nat)) = false := rfl
    unfold remaining
    rw [queued_enqueue]
    simp only [Vector.put, Vector.count_set, hnone, hsome, List.length_append,
      List.length_singleton, beq_self_eq_true, if_true, Bool.false_eq_true, if_false]
    show (queued ⟨assigned, queue, members⟩).length + 1 + _ = _
    omega
  · rfl

theorem remaining_foldl_reach (buckets : Vector Nat n) (bucket slot : Nat) (row : List (Fin n))
    (t : Traversal n) : (row.foldl (reach buckets bucket slot) t).remaining = t.remaining := by
  induction row generalizing t with
  | nil => rfl
  | cons next row ih => rw [List.foldl_cons, ih, remaining_reach]

/-- After a turn one place less remains. -/
theorem remaining_turn? {adjacent : Adjacency n} {buckets : Vector Nat n} {bucket slot : Nat}
    {t t' : Traversal n} (h : t.turn? adjacent buckets bucket slot = some t') :
    t'.remaining + 1 = t.remaining := by
  obtain ⟨assigned, queue, members⟩ := t
  unfold turn? at h
  dsimp only at h
  split at h
  · cases h
  · next current queue' hqueue =>
    cases h
    rw [remaining_foldl_reach, remaining, remaining, queued_dequeue? hqueue, List.length_cons]
    show (queued ⟨assigned, queue', members⟩).length + assigned.count none + 1 =
      (queued ⟨assigned, queue', members⟩).length + 1 + assigned.count none
    omega

/-- Takes turns until no place waits. -/
def run (adjacent : Adjacency n) (buckets : Vector Nat n) (bucket slot : Nat) (t : Traversal n) :
    Traversal n :=
  match _hturn : t.turn? adjacent buckets bucket slot with
  | none => t
  | some t' => run adjacent buckets bucket slot t'
termination_by t.remaining
decreasing_by exact Nat.lt_of_succ_le (Nat.le_of_eq (remaining_turn? _hturn))

/-- The search for the component in `slot` from a place that was not assigned before.  No search
leaves a place in the queue, so that each begins with an empty one. -/
def start (assigned : Vector (Option Nat) n) (slot : Nat) (seed : Fin n) : Traversal n :=
  ⟨assigned.put seed (some slot), Std.Queue.empty.enqueue seed, #[]⟩

end Traversal

/-! ### Buckets -/

/-- The keys of buckets, numbered in the order in which they were met, and the number of the bucket
of each place. -/
structure Buckets (n : Nat) where
  names : Roster String
  numbers : Vector Nat n

namespace Buckets

variable {n : Nat}

/-- Gives a place the bucket of one of its points, instead of the one that it had. -/
def enter (size : BucketSize) (b : Buckets n) (entry : Point × Fin n) : Buckets n :=
  match b with
  | ⟨names, numbers⟩ =>
    let key := size.key entry.1.time
    ⟨names.enter key, numbers.put entry.2 (names.number key)⟩

/-- The bucket of each place, that of its last point. -/
def assign (size : BucketSize) (entries : List (Point × Fin n)) : Buckets n :=
  entries.foldl (enter size) ⟨Roster.empty, Vector.replicate n 0⟩

/-- The key of the bucket of a number. -/
def name (b : Buckets n) (number : Nat) : String :=
  b.names.items.getD number ""

end Buckets

/-- A partition of measured revisions into components, which are listed in order. -/
structure Partition where
  components : Array Component
  slots : Std.ExtTreeMap String Nat
deriving Inhabited

namespace Partition

/-- The partition of no revisions. -/
def empty : Partition :=
  { components := #[], slots := ∅ }

/-- The component that a revision belongs to, if it is measured. -/
def componentOf? (p : Partition) (rev : String) : Option Component :=
  p.slots[rev]?.bind (p.components[·]?)

/-- The id of the component that a revision belongs to. -/
def idOf? (p : Partition) (rev : String) : Option String :=
  (p.componentOf? rev).map (·.id)

/-- The id of the component with a number in its bucket. -/
def componentId (bucket : String) (number : Nat) : String :=
  bucket ++ ":" ++ toString number

/-- Components found so far: the component that each place was assigned to, and how many there are
in each bucket. -/
structure Discovery (n : Nat) where
  assigned : Vector (Option Nat) n
  counts : Array Nat
  components : Array Component

/-- Adds the component of a place, unless the place was assigned before. -/
def Discovery.add (revisions : Roster String) (buckets : Buckets revisions.size)
    (adjacent : Adjacency revisions.size) (d : Discovery revisions.size)
    (seed : Fin revisions.size) : Discovery revisions.size :=
  match d with
  | ⟨assigned, counts, components⟩ =>
    if (assigned.get seed).isSome then ⟨assigned, counts, components⟩
    else
      let slot := components.size
      let bucket := buckets.numbers.get seed
      let found := (Traversal.start assigned slot seed).run adjacent buckets.numbers bucket slot
      let counts := counts.modify bucket (· + 1)
      let name := buckets.name bucket
      let component : Component :=
        { bucket := name
          id := componentId name (counts.getD bucket 0)
          members := found.members.toList.map revisions.item }
      ⟨found.assigned, counts, components.push component⟩

/-- The points with the places of their revisions. -/
def entries (revisions : Roster String) (points : List Point) :
    List (Point × Fin revisions.size) :=
  points.filterMap fun p => (revisions.place? p.revId).map (p, ·)

/-- A minimal edge within one bucket, as places.  An edge with an end that has no point, or whose
ends lie in different buckets, joins nothing. -/
def placeEdge? {β : Type} [DecidableEq β] (revisions : Roster String)
    (buckets : Vector β revisions.size) (e : MinimalEdge) :
    Option (Fin revisions.size × Fin revisions.size) :=
  match revisions.place? e.parent, revisions.place? e.child with
  | some parent, some child =>
    if buckets.get parent = buckets.get child then some (parent, child) else none
  | _, _ => none

/-- The slots of the revisions that were assigned to a component. -/
def slotsOf (revisions : Roster String) (assigned : Vector (Option Nat) revisions.size) :
    Std.ExtTreeMap String Nat :=
  .ofList ((List.finRange revisions.size).filterMap fun i =>
    (assigned.get i).map (revisions.item i, ·))

/-- The components of a list of points under a list of minimal edges. -/
def ofPoints (size : BucketSize) (points : List Point) (edges : List MinimalEdge) : Partition :=
  let revisions := Roster.ofList (points.map (·.revId))
  let entries := entries revisions points
  let buckets := Buckets.assign size entries
  let adjacent := Adjacency.ofEdges (edges.filterMap (placeEdge? revisions buckets.numbers))
  let start : Discovery revisions.size :=
    { assigned := Vector.replicate _ none
      counts := Array.replicate buckets.names.size 0
      components := #[] }
  let found := (entries.map (·.2)).foldl (Discovery.add revisions buckets adjacent) start
  { components := found.components, slots := slotsOf revisions found.assigned }

end Partition

end MetricHistory
