import MetricHistory.Text.Digits
import Mathlib.Algebra.Group.Nat.Defs
import Mathlib.Logic.Function.Basic
import Mathlib.Tactic.SplitIfs

/-!
# Reading digits back

A padded number can be read back, with or without its sign, and a separator that is no digit parts
it from what stands before.

* `Digits.padded_injective`, `Digits.signed_injective`: a number is told by its text.
* `append_cons_inj`: two texts are parted alike at their last separator.
* `Digits.take?_append`, `Digits.span_append`: digits are read as far as they go.
* `Digits.length_padded_of_lt`: a number that fits its width is as long as that.
-/

namespace MetricHistory.Text

/-- Texts are parted at the last occurrence of a separator. -/
theorem append_cons_inj {c : Char} {xs xs' ys ys' : List Char} (hy : c ∉ ys) (hy' : c ∉ ys')
    (h : xs ++ c :: ys = xs' ++ c :: ys') : xs = xs' ∧ ys = ys' := by
  have key : ∀ {xs xs' ys ys' : List Char} {zs : List Char}, c ∉ ys → xs' = xs ++ zs →
      c :: ys = zs ++ c :: ys' → xs = xs' ∧ ys = ys' := by
    intro xs xs' ys ys' zs hnot hxs hys
    cases zs with
    | nil => exact ⟨by rw [hxs, List.append_nil], (List.cons.inj hys).2⟩
    | cons z zs =>
      obtain ⟨-, hys⟩ := List.cons.inj hys
      exact absurd (by rw [hys]; simp) hnot
  rcases List.append_eq_append_iff.mp h with ⟨zs, hxs, hys⟩ | ⟨zs, hxs, hys⟩
  · exact key hy hxs hys
  · obtain ⟨h₁, h₂⟩ := key hy' hxs hys
    exact ⟨h₁.symm, h₂.symm⟩

namespace Digits

theorem padded_injective (width : Nat) : Function.Injective (padded width) := by
  intro m n h
  rw [← value_padded width m, h, value_padded]

theorem not_mem_padded {c : Char} (hc : c.isDigit = false) (width n : Nat) :
    c ∉ padded width n := by
  intro hmem
  rw [isDigit_of_mem_padded hmem] at hc
  cases hc

/-- A signed number is made of digits and a minus sign. -/
theorem not_mem_signed {c : Char} (hc : c.isDigit = false) (hminus : c ≠ '-') (width : Nat)
    (n : Int) : c ∉ signed width n := by
  unfold signed
  split_ifs
  · rw [List.mem_cons, not_or]
    exact ⟨hminus, not_mem_padded hc _ _⟩
  · exact not_mem_padded hc _ _

theorem signed_injective (width : Nat) : Function.Injective (signed width) := by
  intro m n h
  have hminus : ∀ width n, '-' ∉ padded width n := not_mem_padded (by decide)
  unfold signed at h
  split_ifs at h with hm hn hn
  · have habs := padded_injective _ (List.cons.inj h).2
    omega
  · exact absurd (h ▸ List.mem_cons_self) (hminus width n.natAbs)
  · exact absurd (h ▸ List.mem_cons_self) (hminus width m.natAbs)
  · have habs := padded_injective _ h
    omega

/-! ### The digits at the front of a text -/

theorem length_padded (width n : Nat) :
    (padded width n).length = max width (Nat.toDigits 10 n).length :=
  List.length_leftpad

theorem length_padded_of_lt {width n : Nat} (hwidth : 0 < width) (hn : n < 10 ^ width) :
    (padded width n).length = width := by
  rw [length_padded]
  exact Nat.max_eq_left ((Nat.length_toDigits_le_iff (by decide) hwidth).mpr hn)

theorem padded_ne_nil (width n : Nat) : padded width n ≠ [] := by
  have hpos : 0 < (Nat.toDigits 10 n).length := Nat.length_toDigits_pos
  have hlength := length_padded width n
  rw [← List.length_pos_iff]
  omega

/-- A padded number begins with a digit. -/
theorem exists_padded_eq_cons (width n : Nat) :
    ∃ c digits, padded width n = c :: digits ∧ c.isDigit = true := by
  obtain ⟨c, digits, hpadded⟩ := List.exists_cons_of_ne_nil (padded_ne_nil width n)
  have hc : c ∈ padded width n := by
    rw [hpadded]
    exact List.mem_cons_self
  exact ⟨c, digits, hpadded, isDigit_of_mem_padded hc⟩

variable {digits rest : List Char}

/-- Where no digit follows, no digit is taken. -/
theorem takeWhile_isDigit_take (hrest : ∀ c ∈ rest.head?, c.isDigit = false) (limit : Nat) :
    (rest.take limit).takeWhile Char.isDigit = [] := by
  cases rest with
  | nil => rw [List.take_nil, List.takeWhile_nil]
  | cons c rest =>
    cases limit with
    | zero => rfl
    | succ limit => rw [List.take_succ_cons, List.takeWhile_cons_of_neg (by simp [hrest c rfl])]

/-- Digits up to the limit are read if nothing after them could be a further digit. -/
theorem take?_append {limit : Nat} (hdigits : ∀ c ∈ digits, c.isDigit = true) (hne : digits ≠ [])
    (hlimit : digits.length ≤ limit)
    (hrest : digits.length = limit ∨ ∀ c ∈ rest.head?, c.isDigit = false) :
    take? limit (digits ++ rest) = some (value digits, rest) := by
  have hnone : (rest.take (limit - digits.length)).takeWhile Char.isDigit = [] := by
    rcases hrest with heq | hrest
    · rw [heq, Nat.sub_self, List.take_zero, List.takeWhile_nil]
    · exact takeWhile_isDigit_take hrest _
  have htaken : ((digits ++ rest).take limit).takeWhile Char.isDigit = digits := by
    rw [List.take_append, List.take_of_length_le hlimit, List.takeWhile_append_of_pos hdigits, hnone,
      List.append_nil]
  rw [take?, htaken, if_neg (by simpa using hne), List.drop_left]

/-- A number that fits its width is read whatever follows. -/
theorem take?_padded {width n : Nat} (hwidth : 0 < width) (hn : n < 10 ^ width)
    (rest : List Char) : take? width (padded width n ++ rest) = some (n, rest) := by
  have hlength := length_padded_of_lt hwidth hn
  rw [take?_append (fun _ => isDigit_of_mem_padded) (padded_ne_nil width n)
    (Nat.le_of_eq hlength) (Or.inl hlength), value_padded]

theorem span_append (hdigits : ∀ c ∈ digits, c.isDigit = true)
    (hrest : ∀ c ∈ rest.head?, c.isDigit = false) : span (digits ++ rest) = (digits, rest) := by
  rw [span, List.takeWhile_append_of_pos hdigits, List.dropWhile_append_of_pos hdigits]
  cases rest with
  | nil => rw [List.takeWhile_nil, List.dropWhile_nil, List.append_nil]
  | cons c rest =>
    have hc : ¬ c.isDigit = true := by simp [hrest c rfl]
    rw [List.takeWhile_cons_of_neg hc, List.dropWhile_cons_of_neg hc, List.append_nil]

end Digits

end MetricHistory.Text
