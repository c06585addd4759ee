import MetricHistory.Roster
import Mathlib.Data.List.Basic
import Mathlib.Data.List.Induction
import Mathlib.Data.List.Nodup
import Mathlib.Data.Set.Function

/-!
# The items of a roster

A roster lists every item once, and entering a list of items appends those that are new.

* `Roster.nodup_toList`: no item is listed twice.
* `Roster.item_injective`, `Roster.exists_item_eq`: the places number the items.
* `Roster.toList_enterAll`: the items after a list was entered are `appendNew` of the items before.
-/

namespace MetricHistory

/-! ### Appending what is new -/

/-- The items of `more` that are not listed yet, appended one after the other. -/
def appendNew {α : Type} [DecidableEq α] (listed more : List α) : List α :=
  more.foldl (fun listed a => if a ∈ listed then listed else listed ++ [a]) listed

section AppendNew

variable {α β : Type} [DecidableEq α] [DecidableEq β]

@[simp] theorem appendNew_nil (listed : List α) : appendNew listed [] = listed :=
  rfl

theorem appendNew_cons (listed : List α) (a : α) (more : List α) :
    appendNew listed (a :: more) =
      appendNew (if a ∈ listed then listed else listed ++ [a]) more :=
  rfl

theorem appendNew_concat (listed more : List α) (a : α) :
    appendNew listed (more ++ [a]) =
      if a ∈ appendNew listed more then appendNew listed more
      else appendNew listed more ++ [a] := by
  rw [appendNew, List.foldl_append]
  rfl

theorem appendNew_append (listed more more' : List α) :
    appendNew listed (more ++ more') = appendNew (appendNew listed more) more' :=
  List.foldl_append

@[simp] theorem mem_appendNew {listed more : List α} {a : α} :
    a ∈ appendNew listed more ↔ a ∈ listed ∨ a ∈ more := by
  induction more generalizing listed with
  | nil => simp
  | cons b more ih =>
    rw [appendNew_cons, ih, List.mem_cons]
    split_ifs with hb
    · constructor
      · rintro (h | h)
        · exact Or.inl h
        · exact Or.inr (Or.inr h)
      · rintro (h | rfl | h)
        · exact Or.inl h
        · exact Or.inl hb
        · exact Or.inr h
    · rw [List.mem_append, List.mem_singleton, or_assoc]

/-- The first occurrences of items are all of them. -/
theorem mem_appendNew_nil {l : List α} {a : α} : a ∈ appendNew [] l ↔ a ∈ l := by
  rw [mem_appendNew]
  exact or_iff_right List.not_mem_nil

theorem nodup_appendNew {listed : List α} (h : listed.Nodup) (more : List α) :
    (appendNew listed more).Nodup := by
  induction more generalizing listed with
  | nil => exact h
  | cons a more ih =>
    rw [appendNew_cons]
    apply ih
    split_ifs with ha
    · exact h
    · exact List.nodup_append.mpr ⟨h, List.nodup_singleton a, by
        intro x hx y hy hxy
        rw [List.mem_singleton] at hy
        exact ha (hy ▸ hxy ▸ hx)⟩

/-- Items are told apart as well under other names. -/
theorem map_appendNew {f : α → β} {listed more : List α}
    (hf : Set.InjOn f {a | a ∈ listed ∨ a ∈ more}) :
    (appendNew listed more).map f = appendNew (listed.map f) (more.map f) := by
  induction more generalizing listed with
  | nil => rfl
  | cons a more ih =>
    have ha : a ∈ {b | b ∈ listed ∨ b ∈ a :: more} := Or.inr List.mem_cons_self
    have hmem : f a ∈ listed.map f ↔ a ∈ listed := by
      constructor
      · intro h
        obtain ⟨b, hb, hba⟩ := List.mem_map.mp h
        rwa [← hf (Or.inl hb) ha hba]
      · exact List.mem_map_of_mem
    rw [appendNew_cons, List.map_cons, appendNew_cons]
    by_cases h : a ∈ listed
    · rw [if_pos h, if_pos (hmem.mpr h), ih]
      exact hf.mono fun b hb => hb.imp_right (List.mem_cons_of_mem a)
    · rw [if_neg h, if_neg (fun hm => h (hmem.mp hm)), ih, List.map_append, List.map_singleton]
      apply hf.mono
      intro b hb
      rw [Set.mem_ofPred_eq, List.mem_append, List.mem_singleton, or_assoc] at hb
      rw [Set.mem_ofPred_eq, List.mem_cons]
      exact hb

/-- Nothing is appended where all is listed. -/
theorem appendNew_of_subset {listed more : List α} (h : more ⊆ listed) :
    appendNew listed more = listed := by
  induction more with
  | nil => rfl
  | cons a more ih =>
    obtain ⟨ha, hmore⟩ := List.cons_subset.mp h
    rw [appendNew_cons, if_pos ha, ih hmore]

/-- What is listed stays where it is. -/
theorem isPrefix_appendNew (listed more : List α) : listed <+: appendNew listed more := by
  induction more generalizing listed with
  | nil => exact List.prefix_rfl
  | cons a more ih =>
    rw [appendNew_cons]
    split_ifs
    · exact ih listed
    · exact (List.prefix_append listed [a]).trans (ih (listed ++ [a]))

/-- A beginning of what is appended gives a beginning of the result. -/
theorem appendNew_isPrefix {listed more more' : List α} (h : more <+: more') :
    appendNew listed more <+: appendNew listed more' := by
  obtain ⟨rest, rfl⟩ := h
  rw [appendNew_append]
  exact isPrefix_appendNew _ rest

theorem filter_appendNew (keep : α → Bool) (listed more : List α) :
    (appendNew listed more).filter keep = appendNew (listed.filter keep) (more.filter keep) := by
  induction more generalizing listed with
  | nil => rfl
  | cons a more ih =>
    rw [appendNew_cons, ih]
    by_cases hkeep : keep a = true
    · have hmem : a ∈ listed.filter keep ↔ a ∈ listed := by
        rw [List.mem_filter]
        exact and_iff_left hkeep
      rw [List.filter_cons_of_pos hkeep, appendNew_cons]
      simp only [hmem]
      split_ifs
      · rfl
      · rw [List.filter_append, List.filter_singleton, hkeep, cond_true]
    · rw [List.filter_cons_of_neg hkeep]
      split_ifs
      · rfl
      · rw [List.filter_append, List.filter_singleton, Bool.eq_false_iff.mpr hkeep, cond_false,
          List.append_nil]

/-- What each item gives is new only at the first occurrence of the item. -/
theorem appendNew_flatMap_appendNew (listed : List β) (l : List α) (f : α → List β) :
    appendNew listed ((appendNew [] l).flatMap f) = appendNew listed (l.flatMap f) := by
  induction l using List.reverseRecOn with
  | nil => rfl
  | append_singleton l a ih =>
    rw [appendNew_concat, List.flatMap_append, List.flatMap_singleton, appendNew_append, ← ih]
    split_ifs with ha
    · refine (appendNew_of_subset ?_).symm
      intro b hb
      exact mem_appendNew.mpr (Or.inr (List.mem_flatMap.mpr ⟨a, ha, hb⟩))
    · rw [List.flatMap_append, List.flatMap_singleton, appendNew_append]

theorem appendNew_filterMap_appendNew (listed : List β) (l : List α) (f : α → Option β) :
    appendNew listed ((appendNew [] l).filterMap f) = appendNew listed (l.filterMap f) := by
  rw [List.filterMap_eq_flatMap_toList, List.filterMap_eq_flatMap_toList,
    appendNew_flatMap_appendNew]

theorem appendNew_appendNew_nil (listed more : List α) :
    appendNew listed (appendNew [] more) = appendNew listed more := by
  have h := appendNew_filterMap_appendNew listed more some
  rwa [List.filterMap_some, List.filterMap_some] at h

omit [DecidableEq α] in
theorem appendNew_flatMap_congr {l : List α} {f g : α → List β}
    (h : ∀ a ∈ l, appendNew [] (f a) = appendNew [] (g a)) (listed : List β) :
    appendNew listed (l.flatMap f) = appendNew listed (l.flatMap g) := by
  induction l generalizing listed with
  | nil => rfl
  | cons a l ih =>
    have ha := h a List.mem_cons_self
    have hl := fun b hb => h b (List.mem_cons_of_mem a hb)
    rw [List.flatMap_cons, List.flatMap_cons, appendNew_append, appendNew_append, ih hl,
      ← appendNew_appendNew_nil listed (f a), ha, appendNew_appendNew_nil]

/-- What is appended comes in the order of the first items that give it. -/
theorem pairwise_findIdx_appendNew {γ : Type} (f : γ → Option α) (l : List γ) :
    (appendNew [] (l.filterMap f)).Pairwise fun a b =>
      l.findIdx (f · = some a) < l.findIdx (f · = some b) := by
  induction l using List.reverseRecOn with
  | nil => exact List.Pairwise.nil
  | append_singleton l x ih =>
    -- what is listed already is first given within `l`
    have hlt : ∀ a ∈ appendNew [] (l.filterMap f), l.findIdx (f · = some a) < l.length := by
      intro a ha
      rw [mem_appendNew_nil, List.mem_filterMap] at ha
      obtain ⟨c, hc, hca⟩ := ha
      exact List.findIdx_lt_length_of_exists ⟨c, hc, decide_eq_true hca⟩
    have hold : (appendNew [] (l.filterMap f)).Pairwise fun a b =>
        (l ++ [x]).findIdx (f · = some a) < (l ++ [x]).findIdx (f · = some b) := by
      refine ih.imp_of_mem ?_
      intro a b ha hb hab
      rwa [List.findIdx_append, List.findIdx_append, if_pos (hlt a ha), if_pos (hlt b hb)]
    rw [List.filterMap_append]
    cases hx : f x with
    | none => rwa [List.filterMap_cons_none hx, List.filterMap_nil, List.append_nil]
    | some b =>
      rw [List.filterMap_cons_some hx, List.filterMap_nil, appendNew_concat]
      split_ifs with hb
      · exact hold
      · have hnew : ¬ l.findIdx (f · = some b) < l.length := by
          intro h
          obtain ⟨c, hc, hcb⟩ := List.findIdx_lt_length.mp h
          refine hb (mem_appendNew_nil.mpr (List.mem_filterMap.mpr ⟨c, hc, ?_⟩))
          exact of_decide_eq_true hcb
        rw [List.pairwise_append]
        refine ⟨hold, List.pairwise_singleton _ _, ?_⟩
        intro a ha c hc
        obtain rfl := List.mem_singleton.mp hc
        rw [List.findIdx_append, List.findIdx_append, if_pos (hlt a ha), if_neg hnew]
        have := hlt a ha
        omega

end AppendNew

/-! ### Rosters -/

namespace Roster

variable {α : Type} [Ord α]

/-- The item at a place is listed there. -/
theorem getElem?_toList (r : Roster α) (i : Fin r.size) : r.toList[i.val]? = some (r.item i) := by
  have h : i.val < r.items.size := i.isLt
  rw [toList, Array.getElem?_toList, Array.getElem?_eq_getElem h]
  rfl

theorem item_mem (r : Roster α) (i : Fin r.size) : r.item i ∈ r.toList :=
  List.mem_of_getElem? (r.getElem?_toList i)

/-- Every listed item has a place. -/
theorem exists_item_eq {r : Roster α} {a : α} (h : a ∈ r.toList) :
    ∃ i : Fin r.size, r.item i = a := by
  obtain ⟨k, hk, hka⟩ := List.mem_iff_getElem.mp h
  exact ⟨⟨k, hk⟩, hka⟩

/-- Different places list different items. -/
theorem item_injective (r : Roster α) : Function.Injective r.item := by
  intro i j h
  have hi := place?_eq_some_iff.mpr h
  have hj := place?_eq_some_iff.mpr (rfl : r.item j = r.item j)
  exact Option.some.inj (hi.symm.trans hj)

/-- The items in the order of their places. -/
theorem toList_eq_map_item (r : Roster α) : r.toList = (List.finRange r.size).map r.item := by
  apply List.ext_getElem
  · rw [List.length_map, List.length_finRange]
    rfl
  · intro k h₁ h₂
    rw [List.getElem_map, List.getElem_finRange]
    rfl

/-- No item is listed twice. -/
theorem nodup_toList (r : Roster α) : r.toList.Nodup := by
  rw [toList_eq_map_item]
  exact (List.nodup_finRange r.size).map r.item_injective

theorem place?_item (r : Roster α) (i : Fin r.size) : r.place? (r.item i) = some i :=
  place?_eq_some_iff.mpr rfl

variable [Std.TransOrd α]

@[simp] theorem toList_empty : (empty : Roster α).toList = [] :=
  rfl

variable [Std.LawfulEqOrd α] [DecidableEq α]

theorem toList_enter (r : Roster α) (a : α) :
    (r.enter a).toList = if a ∈ r.toList then r.toList else r.toList ++ [a] := by
  split_ifs with h
  · rw [enter_of_mem h]
  · exact toList_enter_of_not_mem h

/-- Entering a list of items appends those that are new. -/
theorem toList_enterAll (r : Roster α) (as : List α) :
    (r.enterAll as).toList = appendNew r.toList as := by
  induction as generalizing r with
  | nil => rfl
  | cons a as ih =>
    rw [appendNew_cons, ← toList_enter, ← ih]
    rfl

/-- A roster made of a list holds the distinct items of that list. -/
theorem toList_ofList (as : List α) : (ofList as).toList = appendNew [] as := by
  rw [ofList, toList_enterAll, toList_empty]

/-- A roster is made of its own items. -/
theorem ofList_toList_ofList (as : List α) : ofList (ofList as).toList = ofList as := by
  have hconcat : ∀ (l : List α) (a : α), ofList (l ++ [a]) = (ofList l).enter a := fun _ _ =>
    List.foldl_append
  induction as using List.reverseRecOn with
  | nil => rfl
  | append_singleton as a ih =>
    rw [hconcat]
    by_cases ha : a ∈ (ofList as).toList
    · rw [enter_of_mem ha, ih]
    · rw [toList_enter_of_not_mem ha, hconcat, ih]

end Roster

end MetricHistory
