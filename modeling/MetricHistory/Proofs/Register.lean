import MetricHistory.Proofs.Ancestry.Indexed
import MetricHistory.Proofs.Roster
import Mathlib.Data.List.Forall2

/-!
# Numbers told on entry

A register keeps names by number and numbers by name, in two plain tables that nothing ties
together.  Whoever enters a name is told its number at once: the one that it has, or else the next
one.  A roster keeps the same tables, with the proof that they invert each other, and is asked for
places only after all was entered.  Both come to the same, since a number keeps its name.

* `Register.enter`, `Register.ofList`, `Register.told`: the tables, and the numbers told.
* `Register.enter_register`, `Register.name?_enter`: on the tables of a roster a name is entered as
  in the roster, and the number told is that of the name.
* `Register.forall₂_enterAll`: every number told names what it was told for, whatever is entered
  later.
* `Register.told_spec`: the names in their order, their numbers, and the numbers told.
* `History.places_told`: the revisions of a history are placed by the numbers told.
-/

namespace MetricHistory

/-- Names by number, and numbers by name. -/
structure Register (α : Type) [Ord α] where
  names : Array α
  numbers : Std.TreeMap α Nat

/-- The tables of a roster. -/
def Roster.register {α : Type} [Ord α] (r : Roster α) : Register α :=
  { names := r.items, numbers := r.places }

namespace Register

section Tables

variable {α : Type} [Ord α]

/-! ### The program -/

/-- The register without names. -/
def empty : Register α :=
  { names := #[], numbers := ∅ }

/-- How many numbers were given. -/
def size (r : Register α) : Nat :=
  r.names.size

/-- The number of a name, if it has one. -/
def number? (r : Register α) (a : α) : Option Nat :=
  r.numbers[a]?

/-- The name of a number, if it was given. -/
def name? (r : Register α) (i : Nat) : Option α :=
  r.names[i]?

/-- Enters a name and tells its number, which is the next one if the name is new. -/
def enter (r : Register α) (a : α) : Nat × Register α :=
  match r.number? a with
  | some i => (i, r)
  | none => (r.size, { names := r.names.push a, numbers := r.numbers.insert a r.size })

/-- Enters names one after the other and tells the number of each. -/
def enterAll (r : Register α) : List α → List Nat × Register α
  | [] => ([], r)
  | a :: as =>
    let (i, r) := r.enter a
    let (told, r) := r.enterAll as
    (i :: told, r)

/-- The register once the names of a list were entered. -/
def ofList (as : List α) : Register α :=
  (empty.enterAll as).2

/-- The numbers told while the names of a list were entered. -/
def told (as : List α) : List Nat :=
  (empty.enterAll as).1

theorem enterAll_cons (r : Register α) (a : α) (as : List α) :
    r.enterAll (a :: as) =
      ((r.enter a).1 :: ((r.enter a).2.enterAll as).1, ((r.enter a).2.enterAll as).2) :=
  rfl

theorem enterAll_append (r : Register α) (as later : List α) :
    r.enterAll (as ++ later) =
      ((r.enterAll as).1 ++ ((r.enterAll as).2.enterAll later).1,
        ((r.enterAll as).2.enterAll later).2) := by
  induction as generalizing r with
  | nil => rfl
  | cons a as ih => rw [List.cons_append, enterAll_cons, ih, enterAll_cons, List.cons_append]

/-- What was told does not depend on what is entered later. -/
theorem told_isPrefix (as later : List α) : told as <+: told (as ++ later) := by
  rw [told, told, enterAll_append]
  exact List.prefix_append _ _

/-! ### The tables of a roster -/

/-- The tables of a roster invert each other. -/
theorem number?_eq_some_iff {r : Roster α} {a : α} {i : Nat} :
    r.register.number? a = some i ↔ r.register.name? i = some a :=
  r.places_iff a i

theorem name?_register (r : Roster α) (i : Nat) : r.register.name? i = r.toList[i]? :=
  Array.getElem?_toList.symm

theorem map_val_place? (r : Roster α) (a : α) :
    (r.place? a).map Fin.val = r.register.number? a := by
  unfold Roster.place?
  split
  · next h => exact h.symm
  · next h => exact h.symm

variable [Std.TransOrd α]

theorem isSome_number?_register {r : Roster α} {a : α} :
    (r.register.number? a).isSome ↔ a ∈ r.toList :=
  Std.TreeMap.isSome_getElem?_iff_mem.trans Roster.mem_places_iff

variable [Std.LawfulEqOrd α]

/-- On the tables of a roster, a name is entered as in the roster. -/
theorem enter_register (r : Roster α) (a : α) :
    (r.register.enter a).2 = (r.enter a).register := by
  cases h : r.register.number? a with
  | some i =>
    have ha : a ∈ r.toList := isSome_number?_register.mp (Option.isSome_of_eq_some h)
    rw [Roster.enter_of_mem ha, enter, h]
  | none =>
    -- the roster looks for the name in the same table
    have ha : a ∉ r.places := by
      rw [Roster.mem_places_iff, ← isSome_number?_register, h]
      exact Bool.false_ne_true
    rw [enter, h]
    obtain ⟨items, places, inv⟩ := r
    rw [Roster.enter, dif_neg ha]
    rfl

/-- The number told is that of the name entered. -/
theorem name?_enter (r : Roster α) (a : α) :
    (r.enter a).register.name? (r.register.enter a).1 = some a := by
  rw [← enter_register]
  cases h : r.register.number? a with
  | some i =>
    rw [enter, h]
    exact number?_eq_some_iff.mp h
  | none =>
    rw [enter, h]
    exact Array.getElem?_push_size

/-- On the tables of a roster, names are entered as in the roster. -/
theorem enterAll_register (r : Roster α) (as : List α) :
    (r.register.enterAll as).2 = (r.enterAll as).register := by
  induction as generalizing r with
  | nil => rfl
  | cons a as ih =>
    rw [enterAll_cons, enter_register]
    exact ih (r.enter a)

theorem ofList_eq (as : List α) : ofList as = (Roster.ofList as).register :=
  enterAll_register Roster.empty as

theorem isSome_number?_ofList {as : List α} {a : α} :
    ((ofList as).number? a).isSome ↔ a ∈ as := by
  rw [ofList_eq, isSome_number?_register, Roster.mem_ofList]

/-- The name of a number that was given has that number. -/
theorem number?_name? (as : List α) {i : Nat} (hi : i < (ofList as).size) :
    ((ofList as).name? i).bind (ofList as).number? = some i := by
  obtain ⟨a, ha⟩ : ∃ a, (ofList as).name? i = some a := ⟨_, Array.getElem?_eq_getElem hi⟩
  rw [ha, Option.bind_some]
  rw [ofList_eq] at ha ⊢
  exact number?_eq_some_iff.mpr ha

variable [DecidableEq α]

/-- A number keeps its name, whatever is entered. -/
theorem name?_enterAll {r : Roster α} {i : Nat} {a : α} (h : r.register.name? i = some a)
    (later : List α) : (r.enterAll later).register.name? i = some a := by
  have hprefix : r.toList <+: (r.enterAll later).toList := by
    rw [Roster.toList_enterAll]
    exact isPrefix_appendNew r.toList later
  rw [name?_register] at h ⊢
  obtain ⟨hi, rfl⟩ := List.getElem?_eq_some_iff.mp h
  exact List.prefix_iff_getElem?.mp hprefix i hi

/-- Every number told is that of the name entered, whatever is entered later. -/
theorem forall₂_enterAll (r : Roster α) (as later : List α) :
    List.Forall₂ (fun i a => (r.enterAll (as ++ later)).register.name? i = some a)
      (r.register.enterAll as).1 as := by
  induction as generalizing r with
  | nil => exact List.Forall₂.nil
  | cons a as ih =>
    rw [enterAll_cons, enter_register]
    -- the first number keeps its name while all the others are entered
    exact List.Forall₂.cons (name?_enterAll (name?_enter r a) (as ++ later)) (ih (r.enter a))

/-! ### The names and the numbers of a list -/

theorem toList_names (as : List α) : (ofList as).names.toList = appendNew [] as := by
  rw [ofList_eq, ← Roster.toList_ofList]
  rfl

/-- The names stand in the order in which they were entered first. -/
theorem pairwise_idxOf_names (as : List α) :
    (ofList as).names.toList.Pairwise fun a b => as.idxOf a < as.idxOf b := by
  have hidx : ∀ a : α, as.findIdx (fun b => decide (some b = some a)) = as.idxOf a := by
    intro a
    rw [List.idxOf]
    congr 1
    funext b
    simp [beq_eq_decide]
  have h := pairwise_findIdx_appendNew some as
  rw [List.filterMap_some] at h
  simp only [hidx] at h
  rwa [toList_names]

theorem forall₂_told (as later : List α) :
    List.Forall₂ (fun i a => (ofList (as ++ later)).name? i = some a) (told as) as := by
  rw [ofList_eq]
  exact forall₂_enterAll Roster.empty as later

/-- The numbers told are those of the names at any later time. -/
theorem map_number?_told (as later : List α) :
    as.map (ofList (as ++ later)).number? = (told as).map some := by
  have h := forall₂_told as later
  rw [ofList_eq] at h ⊢
  rw [eq_comm, ← List.forall₂_eq_eq_eq, List.forall₂_map_left_iff, List.forall₂_map_right_iff]
  exact h.imp fun i a hname => (number?_eq_some_iff.mpr hname).symm

/-- The numbers told, looked up at any later time. -/
theorem filterMap_number?_told (as later : List α) :
    as.filterMap (ofList (as ++ later)).number? = told as := by
  calc as.filterMap (ofList (as ++ later)).number?
    _ = (as.map (ofList (as ++ later)).number?).filterMap id := by rw [List.filterMap_map]; rfl
    _ = ((told as).map some).filterMap id := by rw [map_number?_told]
    _ = told as := by rw [List.filterMap_map]; exact List.filterMap_some

theorem map_name?_told (as later : List α) :
    (told as).map (ofList (as ++ later)).name? = as.map some := by
  rw [← List.forall₂_eq_eq_eq, List.forall₂_map_left_iff, List.forall₂_map_right_iff]
  exact forall₂_told as later

/-- Equal numbers are told for equal names, and only for them. -/
theorem getElem?_told_eq_iff (as : List α) (j k : Nat) :
    (told as)[j]? = (told as)[k]? ↔ as[j]? = as[k]? := by
  -- at every place, the tables give the name from the number and the number from the name
  have hname : ∀ n : Nat, ((told as)[n]?).map (ofList (as ++ [])).name? = (as[n]?).map some := by
    intro n
    rw [← List.getElem?_map, ← List.getElem?_map, map_name?_told]
  have hnumber : ∀ n : Nat,
      (as[n]?).map (ofList (as ++ [])).number? = ((told as)[n]?).map some := by
    intro n
    rw [← List.getElem?_map, ← List.getElem?_map, map_number?_told]
  constructor
  · intro h
    apply Option.map_injective (Option.some_injective α)
    rw [← hname, ← hname, h]
  · intro h
    apply Option.map_injective (Option.some_injective Nat)
    rw [← hnumber, ← hnumber, h]

end Tables

/-- **Names and numbers**: however names are entered, the tables are those of the roster.  They list
the distinct names in the order of their first entry and invert each other, and exactly the names
that were entered have a number.  Two entries are told the same number exactly if their names are
equal.  Whatever is entered later, a number told keeps its name. -/
theorem told_spec (names : List String) :
    ofList names = (Roster.ofList names).register ∧
      ((ofList names).names.toList.Nodup ∧
        (∀ a, a ∈ (ofList names).names.toList ↔ a ∈ names) ∧
        (ofList names).names.toList.Pairwise fun a b => names.idxOf a < names.idxOf b) ∧
      (∀ i < (ofList names).size,
        ((ofList names).name? i).bind (ofList names).number? = some i) ∧
      (∀ a, (((ofList names).number? a).isSome ↔ a ∈ names) ∧
        ∀ i, (ofList names).number? a = some i → (ofList names).name? i = some a) ∧
      (∀ j k : Nat, (told names)[j]? = (told names)[k]? ↔ names[j]? = names[k]?) ∧
      ∀ later, told names <+: told (names ++ later) ∧
        List.Forall₂ (fun i a => (ofList (names ++ later)).name? i = some a)
          (told names) names := by
  refine ⟨ofList_eq names, ⟨?_, ?_, pairwise_idxOf_names names⟩, ?_, ?_, ?_, ?_⟩
  · rw [toList_names]
    exact nodup_appendNew List.nodup_nil names
  · intro a
    rw [toList_names, mem_appendNew_nil]
  · intro i hi
    exact number?_name? names hi
  · intro a
    refine ⟨isSome_number?_ofList, fun i hnumber => ?_⟩
    rw [ofList_eq] at hnumber ⊢
    exact number?_eq_some_iff.mp hnumber
  · exact getElem?_told_eq_iff names
  · intro later
    exact ⟨told_isPrefix names later, forall₂_told names later⟩

/-- A name entered again is told its number again, and keeps it when others are entered. -/
theorem told_spec_again :
    told ["B", "A", "B"] = [0, 1, 0] ∧ told ["B", "A", "B", "C", "A"] = [0, 1, 0, 2, 1] ∧
      1 < (ofList ["B", "A", "B"]).size ∧
      ((ofList ["B", "A", "B"]).name? 1).bind (ofList ["B", "A", "B"]).number? = some 1 ∧
      (ofList ["B", "A", "B"]).number? "A" = some 1 ∧
      (ofList ["B", "A", "B"]).name? 1 = some "A" ∧
      (ofList ["B", "A", "B", "C", "A"]).name? 1 = some "A" := by
  have htold : told ["B", "A", "B"] = [0, 1, 0] := by decide +kernel
  have hlater : told ["B", "A", "B", "C", "A"] = [0, 1, 0, 2, 1] := by decide +kernel
  have hsize : 1 < (ofList ["B", "A", "B"]).size := by decide +kernel
  have hnumber : (ofList ["B", "A", "B"]).number? "A" = some 1 := by decide +kernel
  obtain ⟨-, -, hinverse, hnumbered, -, hkept⟩ := told_spec ["B", "A", "B"]
  have hnames := (hkept ["C", "A"]).2
  rw [htold] at hnames
  cases hnames with
  | cons _ hrest =>
    cases hrest with
    | cons hname _ =>
      exact ⟨htold, hlater, hsize, hinverse 1 hsize, hnumber, (hnumbered "A").2 1 hnumber, hname⟩

end Register

namespace History

/-- Every end of an edge between listed revisions is placed by its number. -/
theorem flatMap_placeEdge? {r : Roster String} {parents : List ParentEdge}
    (hlisted : ∀ e ∈ parents, e.child ∈ r.toList ∧ e.parent ∈ r.toList) :
    (parents.filterMap (Pedigree.placeEdge? r)).flatMap (fun e => [e.1.val, e.2.val]) =
      (parents.flatMap fun e => [e.child, e.parent]).filterMap r.register.number? := by
  induction parents with
  | nil => rfl
  | cons e parents ih =>
    obtain ⟨i, j, hi, hj, hplace⟩ := Pedigree.exists_placeEdge? (hlisted e List.mem_cons_self)
    have hchild : r.register.number? e.child = some i.val := Indexed.getElem?_places hi
    have hparent : r.register.number? e.parent = some j.val := Indexed.getElem?_places hj
    have htail := ih fun e' he' => hlisted e' (List.mem_cons_of_mem e he')
    rw [List.filterMap_cons_some hplace, List.flatMap_cons, List.flatMap_cons, htail,
      List.filterMap_append, List.filterMap_cons_some hchild, List.filterMap_cons_some hparent,
      List.filterMap_nil]

/-- **The places of a history are the numbers told**: the points and the ends of the edges are
placed by the numbers told while the revisions of the points, and then those of the edges, are
entered. -/
theorem places_told (h : History) :
    h.roots.map Fin.val ++
        (h.parents.filterMap (Pedigree.placeEdge? h.revisions)).flatMap
          (fun e => [e.1.val, e.2.val]) =
      Register.told
        (h.points.map (·.revId) ++ h.parents.flatMap fun e => [e.child, e.parent]) := by
  have hrevisions : Register.ofList
      (h.points.map (·.revId) ++ h.parents.flatMap fun e => [e.child, e.parent]) =
        h.revisions.register := by
    rw [Register.ofList_eq, revisions, Roster.ofList, Roster.ofList, Roster.enterAll,
      List.foldl_append]
    rfl
  have hroots : h.roots.map Fin.val =
      (h.points.map (·.revId)).filterMap h.revisions.register.number? := by
    rw [roots, List.map_filterMap, List.filterMap_map]
    simp only [Register.map_val_place?]
    rfl
  rw [← Register.filterMap_number?_told _ [], List.append_nil, hrevisions, List.filterMap_append,
    hroots, flatMap_placeEdge? ends_mem_revisions]

end History

end MetricHistory
