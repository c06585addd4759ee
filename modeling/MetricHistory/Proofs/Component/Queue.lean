import MetricHistory.Proofs.Component.Distance
import Mathlib.Order.Fin.Basic

/-!
# The queue of a search

A search lets the places that it reaches wait in a queue, and visits the one that has waited
longest.  So it visits one level after the other: while it visits the places of a level, what it
reaches is the next level, in its order.  At any time the queue holds the rest of one level and the
beginning of the next, and what is found is what a search level by level finds.

* `Traversal.exists_of_turn?`: all that one turn does.
* `Traversal.AtLevel`: a search on its way through a level; kept by each turn (`AtLevel.turn`) and
  so by every number of turns (`exists_atLevel`).
* `Traversal.queued_adjacent_distances`: the queue holds places of at most two distances from the
  seed, the nearer ones first.
* `Traversal.members_run`, `Traversal.get_assigned_run`: what is found, and what is assigned.
-/

namespace MetricHistory

open Relation

/-- Neighbours lie in one bucket. -/
def Adjacency.StaysWithin {n : ℕ} (adjacent : Adjacency n) (buckets : Vector ℕ n) : Prop :=
  ∀ i j, adjacent.Joins i j → buckets.get j = buckets.get i

namespace Traversal

variable {n : ℕ}

/-! ### Reaching the neighbours of a place -/

/-- The places that were assigned to a component. -/
def reached (assigned : Vector (Option ℕ) n) : Vector Bool n :=
  assigned.map Option.isSome

theorem get_reached (assigned : Vector (Option ℕ) n) (i : Fin n) :
    (reached assigned).get i = (assigned.get i).isSome :=
  Vector.getElem_map Option.isSome i.isLt

theorem get_reached_eq_false {assigned : Vector (Option ℕ) n} {i : Fin n}
    (h : assigned.get i = none) : (reached assigned).get i = false := by
  rw [get_reached, h]
  rfl

theorem reached_put (assigned : Vector (Option ℕ) n) (i : Fin n) (slot : ℕ) :
    reached (assigned.put i (some slot)) = (reached assigned).put i true := by
  apply Vector.ext
  intro k hk
  show (reached _).get ⟨k, hk⟩ = Vector.get _ ⟨k, hk⟩
  rw [get_reached, Vector.get_put, Vector.get_put, get_reached]
  split_ifs <;> rfl

/-- The assignment changes only where nothing was assigned, to one slot. -/
def Assigns (slot : ℕ) (before after : Vector (Option ℕ) n) : Prop :=
  ∀ i, after.get i = before.get i ∨ before.get i = none ∧ after.get i = some slot

theorem Assigns.refl (slot : ℕ) (assigned : Vector (Option ℕ) n) :
    Assigns slot assigned assigned :=
  fun _ => Or.inl rfl

theorem Assigns.trans {slot : ℕ} {a b c : Vector (Option ℕ) n} (hab : Assigns slot a b)
    (hbc : Assigns slot b c) : Assigns slot a c := by
  intro i
  rcases hab i with hb | ⟨ha, hb⟩
  · rw [← hb]
    exact hbc i
  · rcases hbc i with hc | ⟨hnone, -⟩
    · exact Or.inr ⟨ha, hc.trans hb⟩
    · rw [hb] at hnone
      cases hnone

theorem Assigns.put {slot : ℕ} {assigned : Vector (Option ℕ) n} {i : Fin n}
    (h : assigned.get i = none) : Assigns slot assigned (assigned.put i (some slot)) := by
  intro j
  rw [Vector.get_put]
  split_ifs with hij
  · exact Or.inr ⟨hij ▸ h, rfl⟩
  · exact Or.inl rfl

section Reach

variable {buckets : Vector ℕ n} {bucket slot : ℕ} {t : Traversal n} {next : Fin n}
  {ahead : List (Fin n)} {r : Reach n}

/-- The search has reached the places that `r` has reached, and those reached freshly wait behind
`ahead`. -/
structure Mirrors (t : Traversal n) (ahead : List (Fin n)) (r : Reach n) : Prop where
  reached_eq : reached t.assigned = r.reached
  queued_eq : t.queued = ahead ++ r.fresh.toList

theorem assigns_reach (buckets : Vector ℕ n) (bucket slot : ℕ) (t : Traversal n) (next : Fin n) :
    Assigns slot t.assigned (t.reach buckets bucket slot next).assigned := by
  obtain ⟨assigned, queue, members⟩ := t
  unfold reach
  dsimp only
  split_ifs with h
  · rw [Bool.and_eq_true, Option.isNone_iff_eq_none] at h
    exact Assigns.put h.1
  · exact Assigns.refl slot assigned

@[simp] theorem members_reach (buckets : Vector ℕ n) (bucket slot : ℕ) (t : Traversal n)
    (next : Fin n) : (t.reach buckets bucket slot next).members = t.members := by
  obtain ⟨assigned, queue, members⟩ := t
  unfold reach
  dsimp only
  split_ifs <;> rfl

/-- Within its bucket a search reaches a place as one does that knows no queue. -/
theorem Mirrors.reach (h : t.Mirrors ahead r) (hnext : buckets.get next = bucket) :
    (t.reach buckets bucket slot next).Mirrors ahead (r.add next) := by
  obtain ⟨assigned, queue, members⟩ := t
  obtain ⟨hreached, hqueued⟩ := h
  have hsome : r.reached.get next = (assigned.get next).isSome := by
    rw [← hreached, get_reached]
  unfold Traversal.reach Reach.add
  dsimp only
  rw [hsome, hnext, beq_self_eq_true, Bool.and_true]
  cases hassigned : assigned.get next with
  | none =>
    refine ⟨(reached_put assigned next slot).trans ?_, ?_⟩
    · exact congrArg (Vector.put · next true) hreached
    · refine (queued_enqueue assigned queue members next).trans ?_
      rw [hqueued, List.append_assoc, ← Array.toList_push]
      rfl
  | some k => exact ⟨hreached, hqueued⟩

theorem assigns_foldl_reach (buckets : Vector ℕ n) (bucket slot : ℕ) (row : List (Fin n))
    (t : Traversal n) :
    Assigns slot t.assigned (row.foldl (reach buckets bucket slot) t).assigned := by
  induction row generalizing t with
  | nil => exact Assigns.refl slot t.assigned
  | cons next row ih => exact (assigns_reach buckets bucket slot t next).trans (ih _)

theorem members_foldl_reach (buckets : Vector ℕ n) (bucket slot : ℕ) (row : List (Fin n))
    (t : Traversal n) : (row.foldl (reach buckets bucket slot) t).members = t.members := by
  induction row generalizing t with
  | nil => rfl
  | cons next row ih => rw [List.foldl_cons, ih, members_reach]

theorem Mirrors.foldl_reach {row : List (Fin n)} (h : t.Mirrors ahead r)
    (hrow : ∀ next ∈ row, buckets.get next = bucket) :
    (row.foldl (Traversal.reach buckets bucket slot) t).Mirrors ahead (row.foldl Reach.add r) := by
  induction row generalizing t r with
  | nil => exact h
  | cons next row ih =>
    obtain ⟨hnext, hrow⟩ := List.forall_mem_cons.mp hrow
    exact ih (h.reach hnext) hrow

end Reach

/-! ### One turn -/

section Turn

variable {adjacent : Adjacency n} {buckets : Vector ℕ n} {bucket slot : ℕ} {t t' : Traversal n}

/-- A turn takes the first place out of the queue, visits it and reaches its neighbours. -/
theorem exists_of_turn? (h : t.turn? adjacent buckets bucket slot = some t') :
    ∃ (current : Fin n) (s : Traversal n), t.queued = current :: s.queued ∧
      s.assigned = t.assigned ∧ s.members = t.members.push current ∧
      t' = (adjacent.get current).foldl (reach buckets bucket slot) s := by
  obtain ⟨assigned, queue, members⟩ := t
  unfold turn? at h
  dsimp only at h
  split at h
  · cases h
  · next current queue' hqueue =>
    cases h
    refine ⟨current, ⟨assigned, queue', members.push current⟩, ?_, rfl, rfl, rfl⟩
    exact queued_dequeue? hqueue assigned members

/-- There is no turn only if no place waits. -/
theorem queued_eq_nil_of_turn? (h : t.turn? adjacent buckets bucket slot = none) :
    t.queued = [] := by
  obtain ⟨assigned, queue, members⟩ := t
  unfold turn? at h
  dsimp only at h
  split at h
  · next hqueue => exact queued_of_dequeue?_eq_none hqueue assigned members
  · cases h

theorem assigns_of_turn? (h : t.turn? adjacent buckets bucket slot = some t') :
    Assigns slot t.assigned t'.assigned := by
  obtain ⟨current, s, -, hassigned, -, rfl⟩ := exists_of_turn? h
  rw [← hassigned]
  exact assigns_foldl_reach buckets bucket slot _ s

/-- A search comes to its end by turns. -/
theorem reflTransGen_run (adjacent : Adjacency n) (buckets : Vector ℕ n) (bucket slot : ℕ)
    (t : Traversal n) :
    ReflTransGen (fun t t' => t.turn? adjacent buckets bucket slot = some t') t
      (t.run adjacent buckets bucket slot) := by
  fun_induction run adjacent buckets bucket slot t with
  | case1 t hturn => exact ReflTransGen.refl
  | case2 t t' hturn ih => exact ReflTransGen.head hturn ih

/-- At the end no place waits. -/
theorem queued_run (adjacent : Adjacency n) (buckets : Vector ℕ n) (bucket slot : ℕ)
    (t : Traversal n) : (t.run adjacent buckets bucket slot).queued = [] := by
  fun_induction run adjacent buckets bucket slot t with
  | case1 t hturn => exact queued_eq_nil_of_turn? hturn
  | case2 t t' hturn ih => exact ih

end Turn

/-! ### Levels -/

section Levels

variable {adjacent : Adjacency n} {buckets : Vector ℕ n} {slot : ℕ} {base : Vector Bool n}
  {seed : Fin n} {t t' : Traversal n} {d : ℕ} {done ahead : List (Fin n)}

/-- Everything a search comes to lies in the bucket of its seed. -/
theorem get_of_mem_levelAt (hwithin : adjacent.StaysWithin buckets)
    (hseed : base.get seed = false) {i : Fin n} (hi : i ∈ adjacent.levelAt base seed d) :
    buckets.get i = buckets.get seed := by
  have hpath := (adjacent.search_stateAt hseed d).connected i (List.mem_append_right _ hi)
  clear hi
  induction hpath with
  | refl => rfl
  | tail _ hij ih => exact (hwithin _ _ hij).trans ih

/-- The search from `seed` has visited all levels before level `d` and the places of `done` on this
one, and `ahead` is what is left of it.  What these places reached freshly waits behind `ahead`. -/
structure AtLevel (adjacent : Adjacency n) (base : Vector Bool n) (seed : Fin n)
    (t : Traversal n) (d : ℕ) (done ahead : List (Fin n)) : Prop where
  levelAt_eq : adjacent.levelAt base seed d = done ++ ahead
  mirrors : t.Mirrors ahead
    (adjacent.nextLevel (adjacent.stateAt (base.put seed true, [seed]) d).1 done)
  members_eq :
    t.members.toList = (List.range d).flatMap (adjacent.levelAt base seed) ++ done

namespace AtLevel

/-- A search starts on the level of its seed. -/
theorem start (adjacent : Adjacency n) (assigned : Vector (Option ℕ) n) (slot : ℕ)
    (seed : Fin n) :
    AtLevel adjacent (reached assigned) seed (start assigned slot seed) 0 [] [seed] where
  levelAt_eq := rfl
  mirrors := ⟨reached_put assigned seed slot, rfl⟩
  members_eq := rfl

/-- Where a level is done, the search is at the beginning of the next. -/
theorem next (h : AtLevel adjacent base seed t d done []) :
    AtLevel adjacent base seed t (d + 1) [] (adjacent.levelAt base seed (d + 1)) := by
  obtain ⟨hlevel, ⟨hreached, hqueued⟩, hmembers⟩ := h
  obtain rfl : adjacent.levelAt base seed d = done := by rw [hlevel, List.append_nil]
  refine ⟨rfl, ⟨?_, ?_⟩, ?_⟩
  · rw [hreached, Adjacency.stateAt_succ]
    rfl
  · rw [hqueued, List.nil_append, Adjacency.levelAt_succ]
    exact (List.append_nil _).symm
  · rw [hmembers, List.range_succ, List.flatMap_append, List.flatMap_singleton, List.append_nil]

/-- The first place that is left of a level is visited. -/
theorem visit (hwithin : adjacent.StaysWithin buckets) (hseed : base.get seed = false)
    {current : Fin n} (h : AtLevel adjacent base seed t d done (current :: ahead))
    (hturn : t.turn? adjacent buckets (buckets.get seed) slot = some t') :
    AtLevel adjacent base seed t' d (done ++ [current]) ahead := by
  obtain ⟨hlevel, ⟨hreached, hqueued⟩, hmembers⟩ := h
  obtain ⟨first, s, hfirst, hassigned, hpush, rfl⟩ := exists_of_turn? hturn
  rw [hqueued, List.cons_append, List.cons.injEq] at hfirst
  obtain ⟨rfl, hrest⟩ := hfirst
  have hcurrent : buckets.get current = buckets.get seed :=
    get_of_mem_levelAt hwithin hseed (hlevel ▸ List.mem_append_right _ List.mem_cons_self)
  have hrow : ∀ next ∈ adjacent.get current, buckets.get next = buckets.get seed :=
    fun next hnext => (hwithin current next hnext).trans hcurrent
  have hs : s.Mirrors ahead
      (adjacent.nextLevel (adjacent.stateAt (base.put seed true, [seed]) d).1 done) :=
    ⟨hassigned ▸ hreached, hrest.symm⟩
  refine ⟨by rw [hlevel, List.append_assoc]; rfl, ?_, ?_⟩
  · rw [Adjacency.nextLevel, List.foldl_append]
    exact hs.foldl_reach hrow
  · rw [members_foldl_reach, hpush, Array.toList_push, hmembers, List.append_assoc]

/-- **A turn** leads on within a level or to the first place of the next. -/
theorem turn (hwithin : adjacent.StaysWithin buckets) (hseed : base.get seed = false)
    (h : AtLevel adjacent base seed t d done ahead)
    (hturn : t.turn? adjacent buckets (buckets.get seed) slot = some t') :
    ∃ d' done' ahead', AtLevel adjacent base seed t' d' done' ahead' := by
  cases ahead with
  | cons current ahead => exact ⟨d, done ++ [current], ahead, h.visit hwithin hseed hturn⟩
  | nil =>
    have hnext := h.next
    obtain ⟨current, s, hqueued, -⟩ := exists_of_turn? hturn
    -- what is left of the next level is all that waits
    have hlevel : adjacent.levelAt base seed (d + 1) = current :: s.queued := by
      rw [← hqueued, hnext.mirrors.queued_eq]
      exact (List.append_nil _).symm
    rw [hlevel] at hnext
    exact ⟨d + 1, [current], s.queued, hnext.visit hwithin hseed hturn⟩

end AtLevel

/-- After any number of turns a search is on its way through some level. -/
theorem exists_atLevel {assigned : Vector (Option ℕ) n} (hwithin : adjacent.StaysWithin buckets)
    (hseed : assigned.get seed = none)
    (h : ReflTransGen (fun t t' => t.turn? adjacent buckets (buckets.get seed) slot = some t')
      (start assigned slot seed) t) :
    ∃ d done ahead, AtLevel adjacent (reached assigned) seed t d done ahead := by
  have hbase := get_reached_eq_false hseed
  induction h with
  | refl => exact ⟨0, [], [seed], AtLevel.start adjacent assigned slot seed⟩
  | tail _ hturn ih =>
    obtain ⟨d, done, ahead, hlevel⟩ := ih
    exact hlevel.turn hwithin hbase hturn

/-- **The queue** holds the rest of one level and the beginning of the next, at any time. -/
theorem exists_queued_eq {assigned : Vector (Option ℕ) n} (hwithin : adjacent.StaysWithin buckets)
    (hseed : assigned.get seed = none)
    (h : ReflTransGen (fun t t' => t.turn? adjacent buckets (buckets.get seed) slot = some t')
      (start assigned slot seed) t) :
    ∃ d near far, t.queued = near ++ far ∧
      near <:+ adjacent.levelAt (reached assigned) seed d ∧
      far <+: adjacent.levelAt (reached assigned) seed (d + 1) := by
  obtain ⟨d, done, ahead, hlevel, hmirrors, -⟩ := exists_atLevel hwithin hseed h
  refine ⟨d, ahead, _, hmirrors.queued_eq, hlevel ▸ List.suffix_append done ahead, ?_⟩
  rw [Adjacency.levelAt_succ, hlevel, Adjacency.fresh_nextLevel, Adjacency.fresh_nextLevel,
    List.flatMap_append, List.filter_append]
  exact appendNew_isPrefix (List.prefix_append _ _)

/-- The queue holds places of at most two distances from the seed, which follow one another, and the
nearer ones leave it first. -/
theorem queued_adjacent_distances [Std.Symm adjacent.Joins] {assigned : Vector (Option ℕ) n}
    (hwithin : adjacent.StaysWithin buckets) (hsettled : adjacent.Settled (reached assigned))
    (hseed : assigned.get seed = none)
    (h : ReflTransGen (fun t t' => t.turn? adjacent buckets (buckets.get seed) slot = some t')
      (start assigned slot seed) t) :
    ∃ d near far, t.queued = near ++ far ∧
      (∀ i ∈ near, IsDistance adjacent.Joins seed d i) ∧
      (∀ i ∈ far, IsDistance adjacent.Joins seed (d + 1) i) := by
  have hbase := get_reached_eq_false hseed
  obtain ⟨d, near, far, hqueued, hnear, hfar⟩ := exists_queued_eq hwithin hseed h
  refine ⟨d, near, far, hqueued, fun i hi => ?_, fun i hi => ?_⟩
  · exact (Adjacency.mem_levelAt_iff hsettled hbase).mp (hnear.mem hi)
  · exact (Adjacency.mem_levelAt_iff hsettled hbase).mp (hfar.mem hi)

/-! ### The end of a search -/

/-- At its end a search has visited one level after the other, up to an empty one. -/
theorem exists_atLevel_run {assigned : Vector (Option ℕ) n}
    (hwithin : adjacent.StaysWithin buckets) (hseed : assigned.get seed = none) (slot : ℕ) :
    ∃ d, AtLevel adjacent (reached assigned) seed
        ((start assigned slot seed).run adjacent buckets (buckets.get seed) slot) d [] [] := by
  obtain ⟨d, done, ahead, hlevel⟩ := exists_atLevel hwithin hseed
    (reflTransGen_run adjacent buckets (buckets.get seed) slot (start assigned slot seed))
  have hqueued := queued_run adjacent buckets (buckets.get seed) slot (start assigned slot seed)
  rw [hlevel.mirrors.queued_eq, List.append_eq_nil_iff] at hqueued
  obtain ⟨rfl, -⟩ := hqueued
  -- nothing waits, so that the next level is empty
  have hnext := hlevel.next
  have hempty := queued_run adjacent buckets (buckets.get seed) slot (start assigned slot seed)
  rw [hnext.mirrors.queued_eq, List.append_eq_nil_iff] at hempty
  rw [hempty.1] at hnext
  exact ⟨d + 1, hnext⟩

/-- Along a search the assignment changes only where nothing was assigned. -/
theorem assigns_run {assigned : Vector (Option ℕ) n} (adjacent : Adjacency n)
    (buckets : Vector ℕ n) (bucket slot : ℕ) (hseed : assigned.get seed = none) :
    Assigns slot assigned
      ((start assigned slot seed).run adjacent buckets bucket slot).assigned := by
  have hrun := reflTransGen_run adjacent buckets bucket slot (start assigned slot seed)
  generalize (start assigned slot seed).run adjacent buckets bucket slot = found at hrun ⊢
  induction hrun with
  | refl => exact Assigns.put hseed
  | tail _ hturn ih => exact ih.trans (assigns_of_turn? hturn)

/-- **What is found**: a search with a queue finds what one level by level finds, in its order. -/
theorem members_run {assigned : Vector (Option ℕ) n} (hwithin : adjacent.StaysWithin buckets)
    (hseed : assigned.get seed = none) (slot : ℕ) :
    ((start assigned slot seed).run adjacent buckets (buckets.get seed) slot).members.toList =
      (adjacent.classFrom (reached assigned) seed).fresh.toList := by
  obtain ⟨d, hlevel, -, hmembers⟩ := exists_atLevel_run hwithin hseed slot
  rw [hmembers, List.append_nil, Adjacency.classFrom_eq_of_levelAt_eq_nil hlevel]

/-- Only places that were not assigned before are found. -/
theorem get_eq_none_of_mem_run {assigned : Vector (Option ℕ) n}
    (hwithin : adjacent.StaysWithin buckets) (hseed : assigned.get seed = none) (slot : ℕ)
    {i : Fin n} (hi : i ∈ ((start assigned slot seed).run adjacent buckets (buckets.get seed)
      slot).members.toList) : assigned.get i = none := by
  rw [members_run hwithin hseed slot] at hi
  have hsearch := adjacent.search_classFrom (get_reached_eq_false hseed)
  have houtside := hsearch.outside i (by rwa [List.append_nil])
  rw [get_reached, Bool.not_eq_true, Option.isSome_eq_false_iff] at houtside
  exact Option.isNone_iff_eq_none.mp houtside

/-- What is found, and nothing else, is assigned to the slot of the search. -/
theorem get_assigned_run {assigned : Vector (Option ℕ) n}
    (hwithin : adjacent.StaysWithin buckets) (hseed : assigned.get seed = none) (slot : ℕ)
    (i : Fin n) :
    let found := (start assigned slot seed).run adjacent buckets (buckets.get seed) slot
    found.assigned.get i = if i ∈ found.members.toList then some slot else assigned.get i := by
  intro found
  obtain ⟨d, hlevel, hmirrors, hmembers⟩ := exists_atLevel_run hwithin hseed slot
  have hsearch := adjacent.search_stateAt (get_reached_eq_false hseed) d
  rw [hlevel, List.append_nil] at hsearch
  rw [List.append_nil] at hmembers
  have hreached : (found.assigned.get i).isSome = true ↔
      (assigned.get i).isSome = true ∨ i ∈ found.members.toList := by
    rw [← get_reached, ← get_reached, hmirrors.reached_eq, hmembers]
    exact (hsearch.reached_iff i).trans (by rw [List.append_nil])
  rcases assigns_run adjacent buckets (buckets.get seed) slot hseed i with hsame | ⟨hnone, hsome⟩
  · rw [hsame]
    split_ifs with hi
    · -- what is found is assigned, so that it cannot have stayed as it was
      have hfound := hreached.mpr (Or.inr hi)
      rw [hsame, get_eq_none_of_mem_run hwithin hseed slot hi] at hfound
      cases hfound
    · rfl
  · have hi := hreached.mp (by rw [hsome]; rfl)
    rw [hnone] at hi
    rw [if_pos (hi.resolve_left (by simp)), hsome]

/-- A search with a queue reaches what one level by level reaches. -/
theorem reached_run {assigned : Vector (Option ℕ) n} (hwithin : adjacent.StaysWithin buckets)
    (hseed : assigned.get seed = none) (slot : ℕ) :
    reached ((start assigned slot seed).run adjacent buckets (buckets.get seed) slot).assigned =
      (adjacent.classFrom (reached assigned) seed).reached := by
  have hbase := get_reached_eq_false hseed
  have hmembers := members_run hwithin hseed slot
  have hassigned := get_assigned_run hwithin hseed slot
  apply Vector.ext
  intro k hk
  have hiff := (adjacent.search_classFrom hbase).reached_iff ⟨k, hk⟩
  rw [List.append_nil, ← hmembers, get_reached] at hiff
  rw [Bool.eq_iff_iff]
  refine Iff.trans ?_ hiff.symm
  show (reached _).get ⟨k, hk⟩ = true ↔ _
  rw [get_reached, hassigned]
  split_ifs with hfound
  · exact iff_of_true rfl (Or.inr hfound)
  · exact (or_iff_left hfound).symm

end Levels

end Traversal

end MetricHistory
