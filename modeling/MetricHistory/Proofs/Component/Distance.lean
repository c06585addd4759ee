import MetricHistory.Proofs.Component.Search
import Mathlib.Data.List.Basic
import Mathlib.Data.Nat.Find
import Mathlib.Logic.Function.Iterate
import Mathlib.Order.Bounds.Basic

/-!
# Distances in a search

A search goes on level by level, and a level holds the places at one distance from the seed: the
first level those at distance 0, which is the seed itself, and each further one those at the next
distance.  What the search finds is therefore a chain of levels in the order of distances.

* `Steps`, `IsDistance`: the least number of steps from one item to another.
* `Adjacency.levelAt`: the level after some others were searched.
* `Adjacency.mem_levelAt_iff`: the places of a level are those at its distance.
* `Adjacency.exists_classFrom_eq`: what a search finds is the chain of its levels, and
  `Adjacency.exists_classFrom_eq_cons`: the seed comes first.
-/

namespace MetricHistory

open Relation

/-! ### Steps and distances -/

section Steps

variable {α β : Type} {r : α → α → Prop} {s : β → β → Prop} {a b c : α} {d e : Nat}

/-- `Steps r a d b`: exactly `d` steps of `r` lead from `a` to `b`. -/
inductive Steps (r : α → α → Prop) (a : α) : Nat → α → Prop where
  | zero : Steps r a 0 a
  | succ {d : Nat} {b c : α} (steps : Steps r a d b) (step : r b c) : Steps r a (d + 1) c

/-- The least number of steps that lead from `a` to `b` is `d`. -/
def IsDistance (r : α → α → Prop) (a : α) (d : Nat) (b : α) : Prop :=
  IsLeast {k | Steps r a k b} d

theorem Steps.reflTransGen (h : Steps r a d b) : ReflTransGen r a b := by
  induction h with
  | zero => exact .refl
  | succ _ step ih => exact ih.tail step

theorem exists_steps (h : ReflTransGen r a b) : ∃ d, Steps r a d b := by
  induction h with
  | refl => exact ⟨0, .zero⟩
  | tail _ step ih =>
    obtain ⟨d, hsteps⟩ := ih
    exact ⟨d + 1, hsteps.succ step⟩

/-- Where some steps lead there is a distance, which is not greater. -/
theorem Steps.exists_isDistance (h : Steps r a d b) : ∃ e ≤ d, IsDistance r a e b := by
  classical
  have hex : ∃ k, Steps r a k b := ⟨d, h⟩
  exact ⟨Nat.find hex, Nat.find_min' hex h, Nat.find_spec hex, fun k hk => Nat.find_min' hex hk⟩

theorem isDistance_zero_iff : IsDistance r a 0 b ↔ b = a := by
  constructor
  · rintro ⟨hsteps, -⟩
    cases hsteps
    rfl
  · rintro rfl
    exact ⟨.zero, fun _ _ => Nat.zero_le _⟩

/-- The last step to an item at distance `d + 1` comes from one at distance `d`. -/
theorem IsDistance.exists_pred (h : IsDistance r a (d + 1) c) :
    ∃ b, IsDistance r a d b ∧ r b c := by
  obtain ⟨hsteps, hleast⟩ := h
  cases hsteps with
  | succ hsteps hstep =>
    obtain ⟨e, hle, he⟩ := hsteps.exists_isDistance
    obtain rfl : e = d := by
      have := hleast (he.1.succ hstep)
      omega
    exact ⟨_, he, hstep⟩

/-- Items are at distance `d + 1` if they are a step from one at distance `d` and not nearer. -/
theorem isDistance_succ_iff :
    IsDistance r a (d + 1) c ↔
      (∃ b, IsDistance r a d b ∧ r b c) ∧ ∀ e ≤ d, ¬ IsDistance r a e c := by
  constructor
  · intro h
    refine ⟨h.exists_pred, fun e he hdistance => ?_⟩
    have := h.unique hdistance
    omega
  · rintro ⟨⟨b, hb, hstep⟩, hfar⟩
    refine ⟨hb.1.succ hstep, fun k hk => ?_⟩
    obtain ⟨e, hle, he⟩ := hk.exists_isDistance
    by_contra hlt
    exact hfar e (by omega) he

end Steps

namespace Adjacency

variable {n : Nat} {adjacent : Adjacency n} {reached : Vector Bool n} {seed : Fin n}

/-! ### Levels -/

/-- The state of a search, what was reached and the level to be searched, one level further. -/
def advance (adjacent : Adjacency n) (s : Vector Bool n × List (Fin n)) :
    Vector Bool n × List (Fin n) :=
  ((nextLevel adjacent s.1 s.2).reached, (nextLevel adjacent s.1 s.2).fresh.toList)

/-- The state of a search after `d` levels. -/
def stateAt (adjacent : Adjacency n) (s : Vector Bool n × List (Fin n)) (d : Nat) :
    Vector Bool n × List (Fin n) :=
  adjacent.advance^[d] s

/-- The level that a search from `seed` comes to after `d` others. -/
def levelAt (adjacent : Adjacency n) (reached : Vector Bool n) (seed : Fin n) (d : Nat) :
    List (Fin n) :=
  (adjacent.stateAt (reached.put seed true, [seed]) d).2

theorem flatMap_range_of_le {α : Type} {f : Nat → List α} {d e : Nat} (hle : d ≤ e)
    (hempty : ∀ k, d ≤ k → f k = []) : (List.range e).flatMap f = (List.range d).flatMap f := by
  induction e, hle using Nat.le_induction with
  | base => rfl
  | succ e he ih =>
    rw [List.range_succ, List.flatMap_append, List.flatMap_singleton, hempty e he, List.append_nil,
      ih]

/-- After an empty level there are only empty ones. -/
theorem snd_stateAt_nil (adjacent : Adjacency n) (reached : Vector Bool n) (d : Nat) :
    (adjacent.stateAt (reached, []) d).2 = [] := by
  induction d generalizing reached with
  | zero => rfl
  | succ d ih => exact ih reached

/-- A search adds its levels to the members, as long as they are not empty. -/
theorem exists_spread_eq (adjacent : Adjacency n) (reached : Vector Bool n)
    (members : Array (Fin n)) (level : List (Fin n)) :
    ∃ m, (adjacent.spread reached members level).fresh.toList =
        members.toList ++
          (List.range m).flatMap (fun d => (adjacent.stateAt (reached, level) d).2) ∧
      ∀ d, m ≤ d → (adjacent.stateAt (reached, level) d).2 = [] := by
  fun_induction spread adjacent reached members level with
  | case1 reached members =>
    exact ⟨0, (List.append_nil _).symm, fun d _ => snd_stateAt_nil adjacent reached d⟩
  | case2 reached members first others following ih =>
    obtain ⟨m, hspread, hempty⟩ := ih
    refine ⟨m + 1, ?_, ?_⟩
    · rw [hspread, Array.toList_appendList, List.range_succ_eq_map, List.flatMap_cons,
        List.flatMap_map, List.append_assoc]
      rfl
    · intro d hd
      obtain ⟨d, rfl⟩ : ∃ e, d = e + 1 := ⟨d - 1, by omega⟩
      exact hempty d (by omega)

/-- What a search finds is the chain of its levels. -/
theorem exists_classFrom_eq (adjacent : Adjacency n) (reached : Vector Bool n) (seed : Fin n) :
    ∃ m, (adjacent.classFrom reached seed).fresh.toList =
        (List.range m).flatMap (adjacent.levelAt reached seed) ∧
      ∀ d, m ≤ d → adjacent.levelAt reached seed d = [] :=
  adjacent.exists_spread_eq (reached.put seed true) #[] [seed]

/-- A search finds its seed first. -/
theorem exists_classFrom_eq_cons (adjacent : Adjacency n) (reached : Vector Bool n)
    (seed : Fin n) : ∃ rest, (adjacent.classFrom reached seed).fresh.toList = seed :: rest := by
  obtain ⟨m, heq, hempty⟩ := adjacent.exists_classFrom_eq reached seed
  cases m with
  | zero => exact absurd (hempty 0 le_rfl) (List.cons_ne_nil seed [])
  | succ m =>
    rw [List.range_succ_eq_map, List.flatMap_cons] at heq
    exact ⟨_, heq⟩

theorem stateAt_succ (adjacent : Adjacency n) (s : Vector Bool n × List (Fin n)) (d : Nat) :
    adjacent.stateAt s (d + 1) = adjacent.advance (adjacent.stateAt s d) :=
  Function.iterate_succ_apply' adjacent.advance d s

theorem levelAt_succ (adjacent : Adjacency n) (reached : Vector Bool n) (seed : Fin n) (d : Nat) :
    adjacent.levelAt reached seed (d + 1) =
      (adjacent.nextLevel (adjacent.stateAt (reached.put seed true, [seed]) d).1
        (adjacent.levelAt reached seed d)).fresh.toList := by
  rw [levelAt, stateAt_succ]
  rfl

theorem levelAt_eq_nil_of_le {d e : Nat} (hd : adjacent.levelAt reached seed d = [])
    (hle : d ≤ e) : adjacent.levelAt reached seed e = [] := by
  induction e, hle using Nat.le_induction with
  | base => exact hd
  | succ e _ ih =>
    rw [levelAt_succ, ih]
    rfl

/-- What a search finds are its levels before the first empty one. -/
theorem classFrom_eq_of_levelAt_eq_nil {d : Nat} (hd : adjacent.levelAt reached seed d = []) :
    (adjacent.classFrom reached seed).fresh.toList =
      (List.range d).flatMap (adjacent.levelAt reached seed) := by
  obtain ⟨m, heq, hempty⟩ := adjacent.exists_classFrom_eq reached seed
  rw [heq]
  rcases le_total d m with hle | hle
  · exact flatMap_range_of_le hle fun e he => levelAt_eq_nil_of_le hd he
  · exact (flatMap_range_of_le hle hempty).symm

/-- After some levels the search has these levels as members, and the next one before it. -/
theorem search_stateAt (hseed : reached.get seed = false) (d : Nat) :
    adjacent.Search (fun j => reached.get j = true) seed
      (adjacent.stateAt (reached.put seed true, [seed]) d).1
      ((List.range d).flatMap (adjacent.levelAt reached seed))
      (adjacent.levelAt reached seed d) := by
  induction d with
  | zero => exact Search.start hseed
  | succ d ih =>
    rw [List.range_succ, List.flatMap_append, List.flatMap_singleton, levelAt_succ, stateAt_succ]
    exact ih.next

theorem mem_levels_iff {d : Nat} {j : Fin n} :
    j ∈ (List.range d).flatMap (adjacent.levelAt reached seed) ++ adjacent.levelAt reached seed d ↔
      ∃ e ≤ d, j ∈ adjacent.levelAt reached seed e := by
  have hsucc := List.range_succ (n := d)
  rw [← List.flatMap_singleton (adjacent.levelAt reached seed) d, ← List.flatMap_append, ← hsucc,
    List.mem_flatMap]
  simp only [List.mem_range, Nat.lt_succ_iff]

/-- A place is on the next level if it is a neighbour of one on this level, and on no level so
far. -/
theorem mem_levelAt_succ_iff [hsymm : Std.Symm adjacent.Joins] (hsettled : adjacent.Settled reached)
    (hseed : reached.get seed = false) {d : Nat} {j : Fin n} :
    j ∈ adjacent.levelAt reached seed (d + 1) ↔
      (∃ i ∈ adjacent.levelAt reached seed d, adjacent.Joins i j) ∧
        ∀ e ≤ d, j ∉ adjacent.levelAt reached seed e := by
  have hsearch := adjacent.search_stateAt hseed d
  have hreached := hsearch.reached_iff j
  rw [mem_levels_iff] at hreached
  rw [levelAt_succ, mem_fresh_nextLevel, and_comm, Bool.eq_false_iff, ne_eq, hreached, not_or]
  constructor
  · rintro ⟨hnext, -, hnot⟩
    exact ⟨hnext, fun e he hj => hnot ⟨e, he, hj⟩⟩
  · rintro ⟨⟨i, hi, hij⟩, hnot⟩
    refine ⟨⟨i, hi, hij⟩, ?_, fun ⟨e, he, hj⟩ => hnot e he hj⟩
    -- what was reached before is closed, so it holds no neighbour of the level
    intro hbase
    exact hsearch.outside i (List.mem_append_right _ hi) (hsettled j i (hsymm.symm i j hij) hbase)

/-- **Levels**: the places of a level are those at its distance from the seed. -/
theorem mem_levelAt_iff [Std.Symm adjacent.Joins] (hsettled : adjacent.Settled reached)
    (hseed : reached.get seed = false) {d : Nat} {j : Fin n} :
    j ∈ adjacent.levelAt reached seed d ↔ IsDistance adjacent.Joins seed d j := by
  induction d using Nat.strong_induction_on generalizing j with
  | _ d ih =>
  cases d with
  | zero =>
    rw [isDistance_zero_iff]
    exact List.mem_singleton
  | succ d =>
    rw [mem_levelAt_succ_iff hsettled hseed, isDistance_succ_iff]
    apply and_congr
    · exact exists_congr fun i => and_congr_left fun _ => ih d (Nat.lt_succ_self d)
    · exact forall₂_congr fun e he => not_congr (ih e (Nat.lt_succ_of_le he))

end Adjacency

end MetricHistory
