import MetricHistory.Proofs.Component.Levels
import MetricHistory.Proofs.Roster
import Mathlib.Logic.Relation

/-!
# The search through one component

Searching level by level from a seed finds exactly what the seed is connected to, provided that what
was reached before is closed under adjacency.

* `Adjacency.Joins`: adjacency as a relation; `Adjacency.joins_ofEdges`.
* `Adjacency.fresh_nextLevel`: the next level, in its order.
* `Adjacency.Search`: the invariant of the search, kept by each level (`Search.next`) and thus by
  the whole of it (`Search.spread`).
* `Adjacency.mem_classFrom_iff`: the search finds the class of the seed.
-/

namespace MetricHistory

open Relation

/-! ### Reaching a list of places -/

namespace Reach

variable {n : Nat}

theorem get_put_true (reached : Vector Bool n) (i j : Fin n) :
    (reached.put i true).get j = true ↔ reached.get j = true ∨ j = i := by
  rw [Vector.get_put]
  split_ifs with hij
  · simp [hij]
  · simp [Ne.symm hij]

theorem reached_add (r : Reach n) (i j : Fin n) :
    (r.add i).reached.get j = true ↔ r.reached.get j = true ∨ j = i := by
  unfold add
  split_ifs with h
  · constructor
    · exact Or.inl
    · rintro (hj | rfl)
      · exact hj
      · exact h
  · exact get_put_true r.reached i j

theorem fresh_add (r : Reach n) (i : Fin n) :
    (r.add i).fresh.toList =
      if r.reached.get i = true then r.fresh.toList else r.fresh.toList ++ [i] := by
  unfold add
  split_ifs
  · rfl
  · rw [Array.toList_push]

theorem reached_foldl_add (l : List (Fin n)) (r : Reach n) (j : Fin n) :
    (l.foldl add r).reached.get j = true ↔ r.reached.get j = true ∨ j ∈ l := by
  induction l generalizing r with
  | nil => simp
  | cons i l ih => rw [List.foldl_cons, ih, reached_add, List.mem_cons, or_assoc]

/-- What is reached freshly: the new places of the list, apart from those of `base`, which were
reached to begin with. -/
theorem fresh_foldl_add (base : Fin n → Bool) (l : List (Fin n)) (r : Reach n)
    (hr : ∀ j, r.reached.get j = true ↔ base j = true ∨ j ∈ r.fresh.toList) :
    (l.foldl add r).fresh.toList = appendNew r.fresh.toList (l.filter fun i => !base i) := by
  induction l generalizing r with
  | nil => rfl
  | cons i l ih =>
    have hr' : ∀ j, (r.add i).reached.get j = true ↔
        base j = true ∨ j ∈ (r.add i).fresh.toList := by
      intro j
      rw [reached_add, fresh_add, hr j]
      split_ifs with hi
      · rw [hr i] at hi
        constructor
        · rintro (h | rfl)
          · exact h
          · exact hi
        · exact Or.inl
      · rw [List.mem_append, List.mem_singleton, or_assoc]
    rw [List.foldl_cons, ih _ hr', fresh_add]
    have hi := hr i
    by_cases hbase : base i = true
    · rw [if_pos (hi.mpr (Or.inl hbase)), List.filter_cons_of_neg (by simp [hbase])]
    · rw [List.filter_cons_of_pos (by simp [hbase]), appendNew_cons]
      by_cases hmem : i ∈ r.fresh.toList
      · rw [if_pos (hi.mpr (Or.inr hmem)), if_pos hmem]
      · rw [if_neg (fun h => (hi.mp h).elim hbase hmem), if_neg hmem]

end Reach

namespace Adjacency

variable {n : Nat}

/-! ### Adjacency -/

/-- `j` is a neighbour of `i`. -/
def Joins (adjacent : Adjacency n) (i j : Fin n) : Prop :=
  j ∈ adjacent.get i

theorem joins_ofEdges {edges : List (Fin n × Fin n)} {i j : Fin n} :
    (ofEdges edges).Joins i j ↔ (i, j) ∈ edges ∨ (j, i) ∈ edges := by
  rw [Joins, get_ofEdges, List.mem_flatMap]
  constructor
  · rintro ⟨⟨a, b⟩, he, hmem⟩
    rcases List.mem_append.mp hmem with hmem | hmem
    · split_ifs at hmem with ha
      · rw [List.mem_singleton] at hmem
        exact Or.inl (ha ▸ hmem ▸ he)
      · cases hmem
    · split_ifs at hmem with hb
      · rw [List.mem_singleton] at hmem
        exact Or.inr (hb ▸ hmem ▸ he)
      · cases hmem
  · rintro (he | he)
    · exact ⟨(i, j), he, by simp⟩
    · exact ⟨(j, i), he, by simp⟩

theorem joins_ofEdges_symm (edges : List (Fin n × Fin n)) : Std.Symm (ofEdges edges).Joins where
  symm _ _ h := joins_ofEdges.mpr (joins_ofEdges.mp h).symm

/-! ### Levels -/

theorem nextLevel_eq (adjacent : Adjacency n) (reached : Vector Bool n) (level : List (Fin n)) :
    nextLevel adjacent reached level =
      (level.flatMap (adjacent.get ·)).foldl Reach.add { reached, fresh := #[] } := by
  rw [List.foldl_flatMap]
  rfl

theorem reached_nextLevel {adjacent : Adjacency n} {reached : Vector Bool n}
    {level : List (Fin n)} {j : Fin n} :
    (nextLevel adjacent reached level).reached.get j = true ↔
      reached.get j = true ∨ ∃ i ∈ level, adjacent.Joins i j := by
  rw [nextLevel_eq, Reach.reached_foldl_add, List.mem_flatMap]
  rfl

/-- The next level holds the neighbours of this one that were not reached before, in the order in
which they are met. -/
theorem fresh_nextLevel (adjacent : Adjacency n) (reached : Vector Bool n)
    (level : List (Fin n)) :
    (nextLevel adjacent reached level).fresh.toList =
      appendNew [] ((level.flatMap (adjacent.get ·)).filter fun i => !reached.get i) := by
  rw [nextLevel_eq]
  exact Reach.fresh_foldl_add (reached.get ·) _ _ (by simp)

theorem mem_fresh_nextLevel {adjacent : Adjacency n} {reached : Vector Bool n}
    {level : List (Fin n)} {j : Fin n} :
    j ∈ (nextLevel adjacent reached level).fresh.toList ↔
      reached.get j = false ∧ ∃ i ∈ level, adjacent.Joins i j := by
  rw [fresh_nextLevel, mem_appendNew, List.mem_filter, List.mem_flatMap]
  simp [Joins, and_comm]

/-! ### The search -/

/-- A search from `seed` on the way: `members` were searched, `level` is to be searched next, and
the places of `base` were reached before it began. -/
structure Search (adjacent : Adjacency n) (base : Fin n → Prop) (seed : Fin n)
    (reached : Vector Bool n) (members level : List (Fin n)) : Prop where
  nodup : (members ++ level).Nodup
  reached_iff : ∀ j, reached.get j = true ↔ base j ∨ j ∈ members ++ level
  outside : ∀ j ∈ members ++ level, ¬ base j
  closed : ∀ i ∈ members, ∀ j, adjacent.Joins i j → reached.get j = true
  connected : ∀ j ∈ members ++ level, ReflTransGen adjacent.Joins seed j
  seed_mem : seed ∈ members ++ level

namespace Search

variable {adjacent : Adjacency n} {base : Fin n → Prop} {seed : Fin n}

theorem start {reached : Vector Bool n} (hseed : reached.get seed = false) :
    adjacent.Search (fun j => reached.get j = true) seed (reached.put seed true) [] [seed] where
  nodup := List.nodup_singleton seed
  reached_iff := by
    intro j
    rw [Reach.get_put_true, List.nil_append, List.mem_singleton]
  outside := by
    intro j hj
    rw [List.nil_append, List.mem_singleton] at hj
    rw [hj, hseed]
    exact Bool.false_ne_true
  closed := by simp
  connected := by
    intro j hj
    rw [List.nil_append, List.mem_singleton] at hj
    rw [hj]
  seed_mem := by simp

/-- The search goes on with the next level. -/
theorem next {reached : Vector Bool n} {members level : List (Fin n)}
    (hs : adjacent.Search base seed reached members level) :
    adjacent.Search base seed (nextLevel adjacent reached level).reached (members ++ level)
      (nextLevel adjacent reached level).fresh.toList where
  nodup := by
    rw [List.nodup_append]
    refine ⟨hs.nodup, ?_, ?_⟩
    · rw [fresh_nextLevel]
      exact nodup_appendNew List.nodup_nil _
    · intro a ha b hb hab
      have hb' := (mem_fresh_nextLevel.mp hb).1
      rw [← hab, Bool.eq_false_iff] at hb'
      exact hb' ((hs.reached_iff a).mpr (Or.inr ha))
  reached_iff := by
    intro j
    have hj := hs.reached_iff j
    rw [reached_nextLevel, List.mem_append, mem_fresh_nextLevel]
    constructor
    · rintro (h | h)
      · exact (hj.mp h).imp_right Or.inl
      · by_cases hr : reached.get j = true
        · exact (hj.mp hr).imp_right Or.inl
        · exact Or.inr (Or.inr ⟨Bool.eq_false_iff.mpr hr, h⟩)
    · rintro (h | h | h)
      · exact Or.inl (hj.mpr (Or.inl h))
      · exact Or.inl (hj.mpr (Or.inr h))
      · exact Or.inr h.2
  outside := by
    intro j hj
    rcases List.mem_append.mp hj with hj | hj
    · exact hs.outside j hj
    · intro hbase
      have hr := (mem_fresh_nextLevel.mp hj).1
      rw [Bool.eq_false_iff] at hr
      exact hr ((hs.reached_iff j).mpr (Or.inl hbase))
  closed := by
    intro i hi j hij
    rw [reached_nextLevel]
    rcases List.mem_append.mp hi with hi | hi
    · exact Or.inl (hs.closed i hi j hij)
    · exact Or.inr ⟨i, hi, hij⟩
  connected := by
    intro j hj
    rcases List.mem_append.mp hj with hj | hj
    · exact hs.connected j hj
    · obtain ⟨i, hi, hij⟩ := (mem_fresh_nextLevel.mp hj).2
      exact (hs.connected i (List.mem_append_right _ hi)).tail hij
  seed_mem := List.mem_append_left _ hs.seed_mem

/-- The search goes on until no level is left. -/
theorem spread {reached : Vector Bool n} {members : Array (Fin n)} {level : List (Fin n)}
    (hs : adjacent.Search base seed reached members.toList level) :
    adjacent.Search base seed (adjacent.spread reached members level).reached
      (adjacent.spread reached members level).fresh.toList [] := by
  fun_induction Adjacency.spread adjacent reached members level with
  | case1 reached members => exact hs
  | case2 reached members first others following ih =>
    apply ih
    rw [Array.toList_appendList]
    exact hs.next

/-- A search that has come to an end has found the class of the seed. -/
theorem mem_iff {reached : Vector Bool n} {members : List (Fin n)}
    (hs : adjacent.Search base seed reached members []) [hsymm : Std.Symm adjacent.Joins]
    (hbase : ∀ i j, adjacent.Joins i j → base i → base j) {j : Fin n} :
    j ∈ members ↔ ReflTransGen adjacent.Joins seed j := by
  constructor
  · intro hj
    exact hs.connected j (by rwa [List.append_nil])
  · intro hpath
    induction hpath with
    | refl => exact List.append_nil members ▸ hs.seed_mem
    | @tail i j _ hij ih =>
      rcases (hs.reached_iff j).mp (hs.closed i ih j hij) with hj | hj
      · -- what was reached before is closed, so `i` would belong to it
        exact absurd (hbase j i (hsymm.symm i j hij) hj)
          (hs.outside i (by rwa [List.append_nil]))
      · rwa [List.append_nil] at hj

end Search

/-- What is reached is closed under adjacency. -/
def Settled (adjacent : Adjacency n) (reached : Vector Bool n) : Prop :=
  ∀ i j, adjacent.Joins i j → reached.get i = true → reached.get j = true

/-- The places that are found from a seed which was not reached before. -/
def classFrom (adjacent : Adjacency n) (reached : Vector Bool n) (seed : Fin n) : Reach n :=
  adjacent.spread (reached.put seed true) #[] [seed]

theorem search_classFrom (adjacent : Adjacency n) {reached : Vector Bool n} {seed : Fin n}
    (hseed : reached.get seed = false) :
    adjacent.Search (fun j => reached.get j = true) seed (adjacent.classFrom reached seed).reached
      (adjacent.classFrom reached seed).fresh.toList [] := by
  have hstart : adjacent.Search (fun j => reached.get j = true) seed (reached.put seed true)
      (#[] : Array (Fin n)).toList [seed] := Search.start hseed
  exact hstart.spread

/-- The search finds the class of the seed. -/
theorem mem_classFrom_iff {adjacent : Adjacency n} [Std.Symm adjacent.Joins]
    {reached : Vector Bool n} {seed : Fin n} (hsettled : adjacent.Settled reached)
    (hseed : reached.get seed = false) {j : Fin n} :
    j ∈ (adjacent.classFrom reached seed).fresh.toList ↔ ReflTransGen adjacent.Joins seed j :=
  (adjacent.search_classFrom hseed).mem_iff hsettled

end Adjacency

end MetricHistory
