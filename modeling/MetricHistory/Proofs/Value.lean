import MetricHistory.Candle
import Mathlib

/-!
# The order of values, and extremes

Values that are numbers stand in a line, from minus infinity to infinity, with the two zeros in one
place.  Taking the smaller of two values again and again leaves one that is at most each of the
numbers among them; taking the larger one leaves one that is at least each.

* `Value.rank`: where a value stands; `Value.lt_iff` and `Value.le_iff`: what comparing finds.
* `Value.IsExtreme`: one of several values, and none of them is beyond.
* `Value.Selects.foldl`: what taking the smaller or the larger value again and again leaves.
* `Value.IsExtreme.of_parts`: the extreme of a whole is that of the extremes of its parts.
-/

namespace MetricHistory

open Float.Model (UnpackedFloat)

namespace Value

/-! ### Where a value stands -/

/-- Where a value stands: its kind, from minus infinity to infinity, then what tells it apart from
others of that kind.  What is not a number is put with zero, though it compares with nothing. -/
def position : UnpackedFloat → ℤ ×ₗ ℤ ×ₗ ℤ
  | .infinity .negative => toLex (-2, toLex (0, 0))
  | .finite .negative mantissa exponent _ => toLex (-1, toLex (-exponent, -mantissa))
  | .notANumber | .zero _ => toLex (0, toLex (0, 0))
  | .finite .positive mantissa exponent _ => toLex (1, toLex (exponent, mantissa))
  | .infinity .positive => toLex (2, toLex (0, 0))

theorem compare_negative_positive : compare UnpackedFloat.Sign.negative .positive = .lt :=
  rfl

theorem compare_sign_self (s : UnpackedFloat.Sign) : compare s s = .eq := by
  cases s <;> rfl

theorem compare_eq_lt_iff {a b : UnpackedFloat} (ha : a.isNaN = false) (hb : b.isNaN = false) :
    a.compare b = some .lt ↔ position a < position b := by
  -- by the kinds of both: exponents and mantissas are looked at for one kind only
  rcases a with (_ | _) | _ | _ | ⟨_ | _, m, e, _⟩ <;>
    rcases b with (_ | _) | _ | _ | ⟨_ | _, n, f, _⟩ <;>
    simp [UnpackedFloat.compare, UnpackedFloat.isNaN, compare_negative_positive, compare_sign_self,
      position, Prod.Lex.toLex_lt_toLex, Ordering.then_eq_lt, Ordering.then_eq_gt,
      compare_gt_iff_gt, compare_lt_iff_lt] at ha hb ⊢

theorem compare_eq_eq_iff {a b : UnpackedFloat} (ha : a.isNaN = false) (hb : b.isNaN = false) :
    a.compare b = some .eq ↔ position a = position b := by
  rcases a with (_ | _) | _ | _ | ⟨_ | _, m, e, _⟩ <;>
    rcases b with (_ | _) | _ | _ | ⟨_ | _, n, f, _⟩ <;>
    simp [UnpackedFloat.compare, UnpackedFloat.isNaN, compare_sign_self, position,
      Ordering.then_eq_eq] at ha hb ⊢

theorem compare_of_isNaN {a b : UnpackedFloat} (h : a.isNaN = true ∨ b.isNaN = true) :
    a.compare b = none := by
  cases a <;> cases b <;> simp [UnpackedFloat.isNaN] at h <;> rfl

/-- Where a value stands. -/
def rank (a : Float) : ℤ ×ₗ ℤ ×ₗ ℤ :=
  position a.toModel.unpack

/-! ### Comparing values -/

variable {a b c : Float}

theorem lt_iff_compare : a < b ↔ a.toModel.unpack.compare b.toModel.unpack = some .lt := by
  show decide (((a.toModel.unpack.compare b.toModel.unpack) == some .lt) = true) = true ↔ _
  rw [decide_eq_true_iff, beq_iff_eq]

theorem le_iff_compare :
    a ≤ b ↔ a.toModel.unpack.compare b.toModel.unpack = some .lt ∨
      a.toModel.unpack.compare b.toModel.unpack = some .eq := by
  show decide (((a.toModel.unpack.compare b.toModel.unpack).any (·.isLE)) = true) = true ↔ _
  rcases a.toModel.unpack.compare b.toModel.unpack with _ | _ | _ | _ <;> simp

theorem beq_iff_compare :
    (a == b) = true ↔ a.toModel.unpack.compare b.toModel.unpack = some .eq := by
  show ((a.toModel.unpack.compare b.toModel.unpack) == some .eq) = true ↔ _
  rw [beq_iff_eq]

/-- What compares with something is a number. -/
theorem isNaN_of_compare_eq_some {o : Ordering}
    (h : a.toModel.unpack.compare b.toModel.unpack = some o) :
    a.isNaN = false ∧ b.isNaN = false := by
  rw [← Bool.not_eq_true, ← Bool.not_eq_true, ← not_or]
  intro hnan
  rw [compare_of_isNaN hnan] at h
  cases h

theorem lt_iff : a < b ↔ a.isNaN = false ∧ b.isNaN = false ∧ rank a < rank b := by
  rw [lt_iff_compare]
  constructor
  · intro h
    obtain ⟨ha, hb⟩ := isNaN_of_compare_eq_some h
    exact ⟨ha, hb, (compare_eq_lt_iff ha hb).mp h⟩
  · rintro ⟨ha, hb, h⟩
    exact (compare_eq_lt_iff ha hb).mpr h

theorem beq_iff : (a == b) = true ↔ a.isNaN = false ∧ b.isNaN = false ∧ rank a = rank b := by
  rw [beq_iff_compare]
  constructor
  · intro h
    obtain ⟨ha, hb⟩ := isNaN_of_compare_eq_some h
    exact ⟨ha, hb, (compare_eq_eq_iff ha hb).mp h⟩
  · rintro ⟨ha, hb, h⟩
    exact (compare_eq_eq_iff ha hb).mpr h

theorem le_iff : a ≤ b ↔ a.isNaN = false ∧ b.isNaN = false ∧ rank a ≤ rank b := by
  rw [le_iff_compare, ← lt_iff_compare, ← beq_iff_compare, lt_iff, beq_iff, le_iff_lt_or_eq,
    ← and_or_left, ← and_or_left]

theorem le_refl (ha : a.isNaN = false) : a ≤ a :=
  le_iff.mpr ⟨ha, ha, le_rfl⟩

theorem le_trans (hab : a ≤ b) (hbc : b ≤ c) : a ≤ c := by
  obtain ⟨ha, -, hab⟩ := le_iff.mp hab
  obtain ⟨-, hc, hbc⟩ := le_iff.mp hbc
  exact le_iff.mpr ⟨ha, hc, hab.trans hbc⟩

theorem lt_of_le_of_lt (hab : a ≤ b) (hbc : b < c) : a < c := by
  obtain ⟨ha, -, hab⟩ := le_iff.mp hab
  obtain ⟨-, hc, hbc⟩ := lt_iff.mp hbc
  exact lt_iff.mpr ⟨ha, hc, hab.trans_lt hbc⟩

theorem lt_or_beq_of_le (h : a ≤ b) : a < b ∨ (a == b) = true := by
  obtain ⟨ha, hb, hrank⟩ := le_iff.mp h
  rcases hrank.lt_or_eq with hlt | heq
  · exact Or.inl (lt_iff.mpr ⟨ha, hb, hlt⟩)
  · exact Or.inr (beq_iff.mpr ⟨ha, hb, heq⟩)

theorem le_of_beq (h : (a == b) = true) : a ≤ b ∧ b ≤ a := by
  obtain ⟨ha, hb, heq⟩ := beq_iff.mp h
  exact ⟨le_iff.mpr ⟨ha, hb, heq.le⟩, le_iff.mpr ⟨hb, ha, heq.ge⟩⟩

theorem le_of_lt (h : a < b) : a ≤ b := by
  obtain ⟨ha, hb, hrank⟩ := lt_iff.mp h
  exact le_iff.mpr ⟨ha, hb, hrank.le⟩

/-- Of two numbers, one that is not smaller is at least the other. -/
theorem le_of_not_lt (ha : a.isNaN = false) (hb : b.isNaN = false) (h : ¬ b < a) : a ≤ b := by
  have hrank : ¬ rank b < rank a := fun hlt => h (lt_iff.mpr ⟨hb, ha, hlt⟩)
  exact le_iff.mpr ⟨ha, hb, not_lt.mp hrank⟩

/-- Values that are at most each other are the same, but for the sign of zero. -/
theorem eq_of_le_of_le (ha : a ≠ -0.0) (hb : b ≠ -0.0) (hab : a ≤ b) (hba : b ≤ a) : a = b := by
  obtain ⟨hna, hnb, hab⟩ := le_iff.mp hab
  obtain ⟨-, -, hba⟩ := le_iff.mp hba
  have hbeq : (a == b) = true := beq_iff.mpr ⟨hna, hnb, le_antisymm hab hba⟩
  have hzero : (-0.0 : Float) = -0 := by decide
  rw [hzero] at ha hb
  obtain ⟨-, -, heq | ⟨-, hminus⟩ | ⟨hminus, -⟩⟩ := Float.beq_iff_ne_nan_and_eq.mp hbeq
  · exact heq
  · exact absurd hminus hb
  · exact absurd hminus ha

/-! ### Extremes -/

/-- One of several values that none of the numbers among them is beyond.  It is a number if there is
one among them. -/
structure IsExtreme (le : Float → Float → Prop) (values : List Float) (v : Float) : Prop where
  mem : v ∈ values
  isNaN_of_isNaN : v.isNaN = true → ∀ u ∈ values, u.isNaN = true
  bound : ∀ u ∈ values, u.isNaN = false → le v u

/-- A choice between two values that takes an extreme of them. -/
structure Selects (le : Float → Float → Prop) (pick : Float → Float → Float) : Prop where
  refl : ∀ {a : Float}, a.isNaN = false → le a a
  trans : ∀ {a b c : Float}, le a b → le b c → le a c
  mem : ∀ a b, pick a b = a ∨ pick a b = b
  isNaN_of_isNaN : ∀ {a b : Float}, (pick a b).isNaN = true → a.isNaN = true ∧ b.isNaN = true
  left : ∀ {a b : Float}, a.isNaN = false → le (pick a b) a
  right : ∀ {a b : Float}, b.isNaN = false → le (pick a b) b

section Extremes

variable {le : Float → Float → Prop} {pick : Float → Float → Float}

/-- What is not a number gives way, and of two numbers the second is taken only if it is beyond the
first. -/
theorem selects_ite {lt : Float → Float → Prop} [DecidableRel lt]
    (hrefl : ∀ {a : Float}, a.isNaN = false → le a a)
    (htrans : ∀ {a b c : Float}, le a b → le b c → le a c) (hlt : ∀ {a b : Float}, lt a b → le a b)
    (hnot : ∀ {a b : Float}, a.isNaN = false → b.isNaN = false → ¬ lt b a → le a b) :
    Selects le fun a b =>
      if a.isNaN then b else if b.isNaN then a else if lt b a then b else a where
  refl := hrefl
  trans := htrans
  mem a b := by grind
  isNaN_of_isNaN := by grind
  left := by grind
  right := by grind

theorem selects_smallerValue : Selects (· ≤ ·) smallerValue :=
  selects_ite le_refl le_trans le_of_lt le_of_not_lt

theorem selects_largerValue : Selects (· ≥ ·) largerValue :=
  selects_ite le_refl (fun hab hbc => le_trans hbc hab) le_of_lt
    (fun ha hb h => le_of_not_lt hb ha h)

namespace Selects

variable {values : List Float} {v : Float}

/-- One value is its own extreme. -/
theorem singleton (hs : Selects le pick) (a : Float) : IsExtreme le [a] a where
  mem := List.mem_singleton_self a
  isNaN_of_isNaN ha u hu := by rwa [List.mem_singleton.mp hu]
  bound u hu hnum := by
    rw [List.mem_singleton.mp hu] at hnum ⊢
    exact hs.refl hnum

/-- One more value is taken into account. -/
theorem concat (hs : Selects le pick) (h : IsExtreme le values v) (w : Float) :
    IsExtreme le (values ++ [w]) (pick v w) where
  mem := by
    rcases hs.mem v w with heq | heq
    · rw [heq]
      exact List.mem_append_left _ h.mem
    · rw [heq]
      exact List.mem_append_right _ (List.mem_singleton_self w)
  isNaN_of_isNaN hpick u hu := by
    obtain ⟨hv, hw⟩ := hs.isNaN_of_isNaN hpick
    rcases List.mem_append.mp hu with hu | hu
    · exact h.isNaN_of_isNaN hv u hu
    · rwa [List.mem_singleton.mp hu]
  bound u hu hnum := by
    rcases List.mem_append.mp hu with hu | hu
    · -- there is a number among the values so far, so their extreme is one
      have hv : v.isNaN = false := by
        rw [Bool.eq_false_iff]
        intro hnan
        rw [h.isNaN_of_isNaN hnan u hu] at hnum
        cases hnum
      exact hs.trans (hs.left hv) (h.bound u hu hnum)
    · rw [List.mem_singleton.mp hu] at hnum ⊢
      exact hs.right hnum

/-- **Choosing again and again** leaves an extreme of all values. -/
theorem foldl (hs : Selects le pick) (h : IsExtreme le values v) (more : List Float) :
    IsExtreme le (values ++ more) (more.foldl pick v) := by
  induction more generalizing values v with
  | nil => rwa [List.append_nil]
  | cons w rest ih =>
    rw [List.append_cons]
    exact ih (hs.concat h w)

end Selects

/-- An extreme is told by which values there are. -/
theorem IsExtreme.congr {values values' : List Float} {v : Float} (h : IsExtreme le values v)
    (hvalues : ∀ u, u ∈ values ↔ u ∈ values') : IsExtreme le values' v where
  mem := (hvalues v).mp h.mem
  isNaN_of_isNaN hv u hu := h.isNaN_of_isNaN hv u ((hvalues u).mpr hu)
  bound u hu := h.bound u ((hvalues u).mpr hu)

/-- Where the values of a whole are those of its parts, all of them numbers, the extreme of the
whole is that of the extremes of its parts. -/
theorem IsExtreme.of_parts {ι : Type} {parts : Set ι} {values : ι → List Float} {whole : List Float}
    {extreme : ι → Float} {v : Float} (hv : IsExtreme le whole v)
    (hparts : ∀ u, u ∈ whole ↔ ∃ i ∈ parts, u ∈ values i)
    (hextreme : ∀ i ∈ parts, IsExtreme le (values i) (extreme i))
    (hnum : ∀ u ∈ whole, u.isNaN = false)
    (heq : ∀ u ∈ whole, ∀ w ∈ whole, le u w → le w u → u = w) :
    v ∈ extreme '' parts ∧ ∀ u ∈ extreme '' parts, le v u := by
  have hmem : ∀ i ∈ parts, extreme i ∈ whole := fun i hi =>
    (hparts _).mpr ⟨i, hi, (hextreme i hi).mem⟩
  have hbound : ∀ i ∈ parts, le v (extreme i) := fun i hi =>
    hv.bound _ (hmem i hi) (hnum _ (hmem i hi))
  constructor
  · obtain ⟨i, hi, hvi⟩ := (hparts v).mp hv.mem
    have hback : le (extreme i) v := (hextreme i hi).bound v hvi (hnum v hv.mem)
    exact ⟨i, hi, heq _ (hmem i hi) v hv.mem hback (hbound i hi)⟩
  · rintro _ ⟨i, hi, rfl⟩
    exact hbound i hi

end Extremes

end Value

end MetricHistory
