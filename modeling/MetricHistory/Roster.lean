import Std.Data.TreeMap

/-!
## Rosters

A roster lists distinct items in the order in which they were first entered, and finds the place of
each.  The places number the items densely, so that what is known of each item can be kept in a
vector.

* `Roster.enter`: enters an item, unless it is listed already.
* `Roster.place?`: the place of an item; `Roster.item`: the item at a place.
* `Roster.place?_eq_some_iff`: the two are inverse to each other.
* `Roster.mem_ofList`: a roster made of a list holds the items of that list.
* `Vector.put`: a vector with another value at one place.
-/

namespace Vector

variable {α : Type} {n : Nat}

/-- The vector with another value at one place. -/
@[inline] def put (xs : Vector α n) (i : Fin n) (a : α) : Vector α n :=
  xs.set i a i.isLt

/-- Putting a value at one place changes no other. -/
theorem get_put (xs : Vector α n) (i j : Fin n) (a : α) :
    (xs.put i a).get j = if i = j then a else xs.get j := by
  show (xs.set i a i.isLt)[j.val] = if i = j then a else xs[j.val]
  rw [Vector.getElem_set]
  by_cases h : i = j
  · rw [if_pos h, if_pos (congrArg Fin.val h)]
  · rw [if_neg h, if_neg (fun hval => h (Fin.ext hval))]

end Vector

namespace MetricHistory

/-- Distinct items in the order of their entry, with the place of each. -/
structure Roster (α : Type) [Ord α] where
  items : Array α
  places : Std.TreeMap α Nat
  /-- The table of places inverts the list of items. -/
  places_iff : ∀ (a : α) (i : Nat), places[a]? = some i ↔ items[i]? = some a

namespace Roster

variable {α : Type} [Ord α]

/-- The number of items. -/
def size (r : Roster α) : Nat :=
  r.items.size

/-- The items in the order of their entry. -/
def toList (r : Roster α) : List α :=
  r.items.toList

/-- The item at a place. -/
def item (r : Roster α) (i : Fin r.size) : α :=
  have h : i.val < r.items.size := i.isLt
  r.items[i.val]

/-- The place of a listed item is one of the roster's. -/
theorem lt_size_of_place {r : Roster α} {a : α} {i : Nat} (h : r.places[a]? = some i) :
    i < r.size := by
  have := (r.places_iff a i).1 h
  exact (Array.getElem?_eq_some_iff.1 this).1

/-- The place of an item, if it is listed. -/
def place? (r : Roster α) (a : α) : Option (Fin r.size) :=
  match h : r.places[a]? with
  | none => none
  | some i => some ⟨i, lt_size_of_place h⟩

/-- The number of an item: its place, or the next place if it is not listed. -/
def number (r : Roster α) (a : α) : Nat :=
  r.places[a]?.getD r.size

/-- Looking up an item finds the place that lists it. -/
theorem place?_eq_some_iff {r : Roster α} {a : α} {i : Fin r.size} :
    r.place? a = some i ↔ r.item i = a := by
  have key : r.places[a]? = some i.val ↔ r.item i = a := by
    rw [r.places_iff, item, Array.getElem?_eq_getElem i.isLt, Option.some.injEq]
  rw [← key]
  unfold place?
  split
  · next h => simp [h]
  · next j h => simp [h, Fin.ext_iff]

variable [Std.TransOrd α]

/-- The items with a place are the items listed. -/
theorem mem_places_iff {r : Roster α} {a : α} : a ∈ r.places ↔ a ∈ r.toList := by
  rw [← Std.TreeMap.isSome_getElem?_iff_mem, Option.isSome_iff_exists, toList,
    Array.mem_toList_iff, Array.mem_iff_getElem?]
  exact exists_congr fun i => r.places_iff a i

/-- The roster without items. -/
def empty : Roster α :=
  ⟨#[], ∅, by simp⟩

variable [Std.LawfulEqOrd α]

/-- The table of places of a longer list of items. -/
theorem places_iff_push {items : Array α} {places : Std.TreeMap α Nat} {a : α}
    (inv : ∀ (b : α) (i : Nat), places[b]? = some i ↔ items[i]? = some b) (h : a ∉ places)
    (b : α) (i : Nat) :
    (places.insert a items.size)[b]? = some i ↔ (items.push a)[i]? = some b := by
  have hnone : places[a]? = none := Std.TreeMap.getElem?_eq_none h
  have hb := inv b i
  rw [Std.TreeMap.getElem?_insert, Array.getElem?_push]
  by_cases hab : a = b
  · subst hab
    rw [hnone] at hb
    simp only [Std.ReflCmp.compare_self, if_true, Option.some.injEq]
    constructor
    · intro hi; simp [← hi]
    · intro hi
      split at hi
      · next hi' => exact hi'.symm
      · simp [hi] at hb
  · rw [if_neg (fun h => hab (Std.LawfulEqCmp.eq_of_compare h)), hb]
    split
    · next hi => simp [hi, hab]
    · rfl

/-- Enters an item at the end of the roster, unless it is listed already. -/
def enter (r : Roster α) (a : α) : Roster α :=
  match r with
  | ⟨items, places, inv⟩ =>
    if h : a ∈ places then ⟨items, places, inv⟩
    else
      let place := items.size
      ⟨items.push a, places.insert a place, places_iff_push inv h⟩

/-- Enters the items of a list one after the other. -/
def enterAll (r : Roster α) (as : List α) : Roster α :=
  as.foldl enter r

/-- The distinct items of a list, in the order of their first occurrence. -/
def ofList (as : List α) : Roster α :=
  empty.enterAll as

/-- Entering an item that is listed changes nothing. -/
theorem enter_of_mem {r : Roster α} {a : α} (h : a ∈ r.toList) : r.enter a = r := by
  have hp := mem_places_iff.2 h
  obtain ⟨items, places, inv⟩ := r
  simp only [enter]
  rw [dif_pos hp]

/-- Entering a new item lists it last. -/
theorem toList_enter_of_not_mem {r : Roster α} {a : α} (h : a ∉ r.toList) :
    (r.enter a).toList = r.toList ++ [a] := by
  have hp := fun hm => h (mem_places_iff.1 hm)
  obtain ⟨items, places, inv⟩ := r
  simp only [enter, toList]
  rw [dif_neg hp]
  simp

/-- The items of a roster after one more was entered. -/
theorem mem_enter {r : Roster α} {a b : α} :
    b ∈ (r.enter a).toList ↔ b ∈ r.toList ∨ b = a := by
  by_cases h : a ∈ r.toList
  · rw [enter_of_mem h]
    constructor
    · exact Or.inl
    · rintro (hb | rfl)
      · exact hb
      · exact h
  · rw [toList_enter_of_not_mem h]
    simp

/-- The items of a roster after a list was entered. -/
theorem mem_enterAll {r : Roster α} {as : List α} {b : α} :
    b ∈ (r.enterAll as).toList ↔ b ∈ r.toList ∨ b ∈ as := by
  induction as generalizing r with
  | nil => simp [enterAll]
  | cons a as ih =>
    rw [show r.enterAll (a :: as) = (r.enter a).enterAll as from rfl, ih, mem_enter]
    simp [or_assoc]

/-- A roster made of a list holds the items of that list. -/
theorem mem_ofList {as : List α} {b : α} : b ∈ (ofList as).toList ↔ b ∈ as := by
  rw [ofList, mem_enterAll]
  simp [empty, toList]

end Roster

end MetricHistory
