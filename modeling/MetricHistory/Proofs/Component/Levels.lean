import MetricHistory.Component

/-!
# Searching level by level

Another way to search: the neighbours of a whole level are collected before any of them is visited,
and make the next level.  No queue is needed, so that distances are plain to see; the places are
found in the order in which a queue gives them, which is proved elsewhere.

* `Reach.add`: reaches a place; `Adjacency.nextLevel`: reaches the neighbours of a level.
* `Adjacency.spread`: everything that can be reached from a level.
-/

namespace MetricHistory

/-- Places that were reached, and those of them that were reached just now. -/
structure Reach (n : Nat) where
  reached : Vector Bool n
  fresh : Array (Fin n)

namespace Reach

variable {n : Nat}

/-- Reaches a place, unless it was reached before. -/
def add (r : Reach n) (i : Fin n) : Reach n :=
  if r.reached.get i then r
  else { reached := r.reached.put i true, fresh := r.fresh.push i }

/-- The places not reached yet. -/
def missing (reached : Vector Bool n) : Nat :=
  reached.count false

/-- A place that is reached is no longer missing. -/
theorem missing_add (r : Reach n) (i : Fin n) :
    missing (r.add i).reached + (r.add i).fresh.size = missing r.reached + r.fresh.size := by
  unfold add missing Vector.put
  split
  · rfl
  · next h =>
    have hi : r.reached[i.val] = false := eq_false_of_ne_true h
    have hpos : 0 < r.reached.count false :=
      Vector.count_pos_iff.2 (hi ▸ Vector.getElem_mem i.isLt)
    simp only [Vector.count_set, hi, Array.size_push, beq_self_eq_true, if_true]
    have : (true == false) = false := rfl
    simp only [this, Bool.false_eq_true, if_false]
    omega

/-- Reaching a list of places neither loses nor doubles one. -/
theorem missing_foldl_add (l : List (Fin n)) (r : Reach n) :
    missing (l.foldl add r).reached + (l.foldl add r).fresh.size =
      missing r.reached + r.fresh.size := by
  induction l generalizing r with
  | nil => rfl
  | cons i rest ih => rw [List.foldl_cons, ih, missing_add]

end Reach

namespace Adjacency

variable {n : Nat}

/-- The neighbours of the places of one level that were not reached before. -/
def nextLevel (adjacent : Adjacency n) (reached : Vector Bool n) (level : List (Fin n)) :
    Reach n :=
  level.foldl (fun r i => (adjacent.get i).foldl Reach.add r) { reached, fresh := #[] }

/-- The next level holds what is missing less than before. -/
theorem missing_nextLevel (adjacent : Adjacency n) (reached : Vector Bool n)
    (level : List (Fin n)) :
    Reach.missing (nextLevel adjacent reached level).reached +
      (nextLevel adjacent reached level).fresh.size = Reach.missing reached := by
  suffices h : ∀ (r : Reach n),
      let s := level.foldl (fun r i => (adjacent.get i).foldl Reach.add r) r
      Reach.missing s.reached + s.fresh.size = Reach.missing r.reached + r.fresh.size by
    simpa [nextLevel] using h { reached, fresh := #[] }
  induction level with
  | nil => intro r; rfl
  | cons i rest ih =>
    intro r
    have := ih ((adjacent.get i).foldl Reach.add r)
    simp only [List.foldl_cons] at this ⊢
    rw [this, Reach.missing_foldl_add]

/-- Adds to `members` a level of places and all that can be reached from it.  The places of `level`
count as reached. -/
def spread (adjacent : Adjacency n) (reached : Vector Bool n) (members : Array (Fin n))
    (level : List (Fin n)) : Reach n :=
  match level with
  | [] => { reached, fresh := members }
  | first :: others =>
    -- the neighbours of a level, in its order, make the next one
    let next := nextLevel adjacent reached (first :: others)
    spread adjacent next.reached (members ++ first :: others) next.fresh.toList
termination_by 2 * Reach.missing reached + level.length
decreasing_by
  have := missing_nextLevel adjacent reached (first :: others)
  simp only [Array.length_toList, List.length_cons]
  omega

end Adjacency

end MetricHistory
