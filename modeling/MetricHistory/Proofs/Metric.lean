import MetricHistory.Metric
import Mathlib.Data.List.Perm.Basic
import Mathlib.Data.String.Basic

/-!
# Metrics in a menu

The metrics of a menu are sorted by name, and those of one name keep their order.  Only one order is
like that, so that it does not matter whether metrics are left out before or after they are sorted.
The metric to show first is the one that was shown before, or else the first of the menu.

* `codePoints_le_iff`: texts are ordered by their code points.
* `filter_mergeSort`, `eq_of_pairwise_of_filter_eq`: what stable sorting keeps, and that this
  determines the result.
* `Metric.eq_byName_iff`: which permutation sorting is.
* `Metric.leastName_eq_head?`: the least name is that of the first metric of the menu.
* `Metric.menu_spec`: filtering, sorting and choosing together.
-/

namespace MetricHistory

/-! ### Code points -/

/-- The code points of a text, as numbers. -/
def codePoints (s : String) : List Nat :=
  s.toList.map Char.toNat

theorem map_toNat_lt_iff {cs ds : List Char} : cs.map Char.toNat < ds.map Char.toNat ↔ cs < ds := by
  induction cs generalizing ds with
  | nil => cases ds <;> simp
  | cons c cs ih =>
    cases ds with
    | nil => simp
    | cons d ds =>
      rw [List.map_cons, List.map_cons, List.cons_lt_cons_iff, List.cons_lt_cons_iff, ih,
        Char.toNat_inj]
      rfl

/-- Texts are ordered by their code points. -/
theorem codePoints_le_iff {s t : String} : codePoints s ≤ codePoints t ↔ s ≤ t := by
  rw [String.le_iff_toList_le, ← not_lt, ← not_lt]
  exact not_congr map_toNat_lt_iff

/-! ### Stable sorting -/

section StableSorting

variable {α κ : Type} [LinearOrder κ] {key : α → κ}

theorem decide_le_trans (key : α → κ) (a b c : α) (hab : decide (key a ≤ key b) = true)
    (hbc : decide (key b ≤ key c) = true) : decide (key a ≤ key c) = true :=
  decide_eq_true ((of_decide_eq_true hab).trans (of_decide_eq_true hbc))

theorem decide_le_total (key : α → κ) (a b : α) :
    (decide (key a ≤ key b) || decide (key b ≤ key a)) = true := by
  rw [Bool.or_eq_true, decide_eq_true_iff, decide_eq_true_iff]
  exact le_total _ _

theorem pairwise_mergeSort_key (key : α → κ) (l : List α) :
    (l.mergeSort fun a b => decide (key a ≤ key b)).Pairwise fun a b => key a ≤ key b :=
  (List.pairwise_mergeSort (decide_le_trans key) (decide_le_total key) l).imp of_decide_eq_true

/-- Sorting by a key keeps the order of the items of each key. -/
theorem filter_mergeSort (key : α → κ) (l : List α) (k : κ) :
    (l.mergeSort fun a b => decide (key a ≤ key b)).filter (key · = k) =
      l.filter (key · = k) := by
  -- the items of one key are in order already, so sorting keeps them as they are
  have hsorted : (l.filter (key · = k)).Pairwise fun a b => decide (key a ≤ key b) = true := by
    refine List.pairwise_of_forall_mem_list fun a ha b hb => ?_
    have hak := of_decide_eq_true (List.mem_filter.mp ha).2
    have hbk := of_decide_eq_true (List.mem_filter.mp hb).2
    exact decide_eq_true (hak.trans hbk.symm).le
  have hsublist := (List.sublist_mergeSort (decide_le_trans key) (decide_le_total key) hsorted
    List.filter_sublist).filter (key · = k)
  rw [List.filter_filter] at hsublist
  simp only [Bool.and_self] at hsublist
  have hlength := ((List.mergeSort_perm l fun a b => decide (key a ≤ key b)).filter
    (key · = k)).length_eq
  exact (hsublist.eq_of_length hlength.symm).symm

theorem mem_iff_of_filter_eq {l l' : List α}
    (hfilter : ∀ k, l.filter (key · = k) = l'.filter (key · = k)) (a : α) : a ∈ l ↔ a ∈ l' := by
  have ha : a ∈ l.filter (key · = key a) ↔ a ∈ l'.filter (key · = key a) := by rw [hfilter]
  simpa using ha

/-- Sorted lists with the same items of each key, in the same order, are the same. -/
theorem eq_of_pairwise_of_filter_eq {l l' : List α} (hl : l.Pairwise fun a b => key a ≤ key b)
    (hl' : l'.Pairwise fun a b => key a ≤ key b)
    (hfilter : ∀ k, l.filter (key · = k) = l'.filter (key · = k)) : l = l' := by
  induction l generalizing l' with
  | nil =>
    symm
    rw [List.eq_nil_iff_forall_not_mem]
    intro a ha
    cases (mem_iff_of_filter_eq hfilter a).mpr ha
  | cons a l ih =>
    cases l' with
    | nil => cases (mem_iff_of_filter_eq hfilter a).mp List.mem_cons_self
    | cons b l' =>
      obtain ⟨ha, htail⟩ := List.pairwise_cons.mp hl
      obtain ⟨hb, htail'⟩ := List.pairwise_cons.mp hl'
      -- both heads have the least key, and both are the first items of that key
      have hab : key a ≤ key b := by
        rcases List.mem_cons.mp ((mem_iff_of_filter_eq hfilter b).mpr List.mem_cons_self)
          with rfl | hbl
        · exact le_rfl
        · exact ha b hbl
      have hba : key b ≤ key a := by
        rcases List.mem_cons.mp ((mem_iff_of_filter_eq hfilter a).mp List.mem_cons_self)
          with rfl | hal'
        · exact le_rfl
        · exact hb a hal'
      have hkey : key b = key a := le_antisymm hba hab
      have hheads := hfilter (key a)
      rw [List.filter_cons_of_pos (by simp), List.filter_cons_of_pos (by simp [hkey])] at hheads
      have heq : a = b := (List.cons.inj hheads).1
      have hrest : ∀ k, l.filter (key · = k) = l'.filter (key · = k) := by
        intro k
        have hk := hfilter k
        rw [List.filter_cons, List.filter_cons, heq] at hk
        split_ifs at hk
        · exact (List.cons.inj hk).2
        · exact hk
      rw [heq, ih htail htail' hrest]

end StableSorting

namespace Metric

/-! ### Sorting and filtering -/

theorem pairwise_byName (l : List Metric) : (byName l).Pairwise fun a b => a.name ≤ b.name :=
  pairwise_mergeSort_key Metric.name l

theorem perm_byName (l : List Metric) : (byName l).Perm l :=
  List.mergeSort_perm _ _

theorem filter_byName (l : List Metric) (name : String) :
    (byName l).filter (·.name = name) = l.filter (·.name = name) :=
  filter_mergeSort Metric.name l name

/-- Of the orders of some metrics, sorting takes the one by name in which metrics of one name stand
as they stood before. -/
theorem eq_byName_iff {l l' : List Metric} :
    l' = byName l ↔ l'.Perm l ∧ (l'.Pairwise fun a b => codePoints a.name ≤ codePoints b.name) ∧
      ∀ name, l'.filter (·.name = name) = l.filter (·.name = name) := by
  simp only [codePoints_le_iff]
  constructor
  · rintro rfl
    exact ⟨perm_byName l, pairwise_byName l, filter_byName l⟩
  · rintro ⟨-, hsorted, hfilter⟩
    exact eq_of_pairwise_of_filter_eq hsorted (pairwise_byName l) fun name => by
      rw [hfilter, filter_byName]

/-- Metrics can be left out before or after they are sorted. -/
theorem numeric_byName (l : List Metric) : numeric (byName l) = byName (numeric l) := by
  have hsorted : (numeric (byName l)).Pairwise fun a b => a.name ≤ b.name :=
    (pairwise_byName l).filter _
  refine eq_of_pairwise_of_filter_eq hsorted (pairwise_byName _) fun name => ?_
  calc (numeric (byName l)).filter (·.name = name)
      = numeric ((byName l).filter (·.name = name)) := List.filter_comm _ _ _
    _ = numeric (l.filter (·.name = name)) := by rw [filter_byName]
    _ = (numeric l).filter (·.name = name) := List.filter_comm _ _ _
    _ = (byName (numeric l)).filter (·.name = name) := (filter_byName _ _).symm

/-! ### Choosing -/

theorem leastName_eq_min? (names : List String) : leastName names = names.min? := by
  cases names with
  | nil => rfl
  | cons name rest =>
    have hmin : (fun least name : String => if name < least then name else least) = min := by
      funext least name
      rw [min_def]
      split_ifs with hlt hle hle
      · exact absurd hlt (not_lt.mpr hle)
      · rfl
      · rfl
      · exact absurd (not_lt.mp hlt) hle
    rw [leastName, hmin]
    rfl

/-- The least name is that of the first metric in the order of names. -/
theorem leastName_eq_head? (l : List Metric) :
    leastName (l.map (·.name)) = (byName l).head?.map (·.name) := by
  have hmem : ∀ {m}, m ∈ byName l ↔ m ∈ l := (perm_byName l).mem_iff
  have hsorted := pairwise_byName l
  rw [leastName_eq_min?]
  cases hl : byName l with
  | nil =>
    rw [hl] at hmem
    have hnil : l = [] := List.eq_nil_iff_forall_not_mem.mpr fun m hm => by cases hmem.mpr hm
    rw [hnil]
    rfl
  | cons first rest =>
    rw [hl] at hmem hsorted
    rw [List.head?_cons, Option.map_some, List.min?_eq_some_iff]
    refine ⟨List.mem_map_of_mem (hmem.mp List.mem_cons_self), ?_⟩
    intro name hname
    obtain ⟨m, hm, rfl⟩ := List.mem_map.mp hname
    rcases List.mem_cons.mp (hmem.mpr hm) with rfl | hrest
    · exact le_rfl
    · exact (List.pairwise_cons.mp hsorted).1 m hrest

theorem byName_byName (l : List Metric) : byName (byName l) = byName l :=
  (eq_byName_iff.mpr ⟨.rfl, by simpa only [codePoints_le_iff] using pairwise_byName l,
    fun _ => rfl⟩).symm

theorem any_name_iff {l : List Metric} {name : String} :
    l.any (·.name == name) = true ↔ name ∈ l.map (·.name) := by
  simp

/-- What was shown before is shown again as long as it is there. -/
theorem choose_of_mem {l : List Metric} {name : String} (hname : name ∈ l.map (·.name)) :
    choose l (some name) = some name :=
  if_pos (any_name_iff.mpr hname)

/-- Otherwise the first metric of the menu is shown. -/
theorem choose_of_not_mem {l : List Metric} {previous : Option String}
    (hprevious : ∀ name ∈ previous, name ∉ l.map (·.name)) :
    choose l previous = (byName l).head?.map (·.name) := by
  rw [← leastName_eq_head?]
  cases previous with
  | none => rfl
  | some name => exact if_neg fun h => hprevious name rfl (any_name_iff.mp h)

theorem choose_byName (l : List Metric) (previous : Option String) :
    choose (byName l) previous = choose l previous := by
  have hnames : ∀ name, name ∈ (byName l).map (·.name) ↔ name ∈ l.map (·.name) := fun _ =>
    ((perm_byName l).map _).mem_iff
  by_cases hprevious : ∃ name ∈ previous, name ∈ l.map (·.name)
  · obtain ⟨name, rfl, hname⟩ := hprevious
    rw [choose_of_mem hname, choose_of_mem ((hnames name).mpr hname)]
  · push Not at hprevious
    rw [choose_of_not_mem hprevious, choose_of_not_mem, byName_byName]
    intro name hname
    rw [hnames]
    exact hprevious name hname

theorem choose_eq_none_iff {l : List Metric} {previous : Option String} :
    choose l previous = none ↔ l = [] := by
  by_cases hprevious : ∃ name ∈ previous, name ∈ l.map (·.name)
  · obtain ⟨name, rfl, hname⟩ := hprevious
    rw [choose_of_mem hname]
    refine iff_of_false nofun ?_
    rintro rfl
    cases hname
  · push Not at hprevious
    rw [choose_of_not_mem hprevious, Option.map_eq_none_iff, List.head?_eq_none_iff,
      ← List.length_eq_zero_iff, (perm_byName l).length_eq, List.length_eq_zero_iff]

/-- **The menu**: sorting takes the metrics to their one order by the code points of their names in
which those of one name keep their order, and metrics can be left out before or after.  The name to
show depends on the metrics but not on their order: there is one as soon as there are metrics, and
it is the one shown before, as long as a metric has it, and else the first of the menu. -/
theorem menu_spec (l : List Metric) (previous : Option String) :
    (∀ l', l' = byName l ↔ l'.Perm l ∧
      (l'.Pairwise fun a b => codePoints a.name ≤ codePoints b.name) ∧
        ∀ name, l'.filter (·.name = name) = l.filter (·.name = name)) ∧
    numeric (byName l) = byName (numeric l) ∧
    choose l previous = choose (byName l) previous ∧
    (choose l previous = none ↔ l = []) ∧
    ((∃ name ∈ previous, name ∈ l.map (·.name)) → choose l previous = previous) ∧
    ((∀ name ∈ previous, name ∉ l.map (·.name)) →
      choose l previous = (byName l).head?.map (·.name)) := by
  refine ⟨fun _ => eq_byName_iff, numeric_byName l, (choose_byName l previous).symm,
    choose_eq_none_iff, ?_, choose_of_not_mem⟩
  rintro ⟨name, rfl, hname⟩
  exact choose_of_mem hname

/-- Two metrics of one name, and others before and between them that come after them by name. -/
def shelf : List Metric :=
  [⟨"runtime", none, none, "DOUBLE"⟩, ⟨"alloc", none, some "MB", "BIGINT"⟩,
    ⟨"note", none, none, "VARCHAR"⟩, ⟨"alloc", none, some "kB", "DOUBLE"⟩]

/-- The same in the order of a menu. -/
def sortedShelf : List Metric :=
  [⟨"alloc", none, some "MB", "BIGINT"⟩, ⟨"alloc", none, some "kB", "DOUBLE"⟩,
    ⟨"note", none, none, "VARCHAR"⟩, ⟨"runtime", none, none, "DOUBLE"⟩]

/-- The two of one name keep their order, and a name that is gone gives way to theirs. -/
theorem menu_spec_shelf :
    sortedShelf = byName shelf ∧
    (∃ name ∈ some "runtime", name ∈ shelf.map (·.name)) ∧
    choose shelf (some "runtime") = some "runtime" ∧
    (∀ name ∈ some "gone", name ∉ shelf.map (·.name)) ∧
    choose shelf (some "gone") = some "alloc" := by
  have hruntime : ∃ name ∈ some "runtime", name ∈ shelf.map (·.name) := by decide
  have hgone : ∀ name ∈ some "gone", name ∉ shelf.map (·.name) := by decide
  obtain ⟨horder, -, -, -, hkept, -⟩ := menu_spec shelf (some "runtime")
  obtain ⟨-, -, -, -, -, hfirst⟩ := menu_spec shelf (some "gone")
  have hsorted : sortedShelf = byName shelf := by
    refine (horder _).mpr ⟨by decide, by decide, fun name => ?_⟩
    by_cases halloc : "alloc" = name
    · subst halloc
      decide
    · by_cases hnote : "note" = name
      · subst hnote
        decide
      · simp [sortedShelf, shelf, List.filter_cons, halloc, hnote]
  refine ⟨hsorted, hruntime, hkept hruntime, hgone, ?_⟩
  rw [hfirst hgone, ← hsorted]
  rfl

end Metric

end MetricHistory
