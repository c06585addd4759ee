/-!
## Decimal digits

Numbers written with leading zeros, and runs of digits read back from the front of a text.

* `padded`, `signed`: a number filled up with zeros to a width.
* `take?`: a number of at most so many digits, with the text after it.
* `value_padded`: the zeros in front do not change the number.
-/

namespace MetricHistory.Text.Digits

/-- The decimal digits of `n`, with zeros in front up to `width` characters. -/
def padded (width n : Nat) : List Char :=
  (Nat.toDigits 10 n).leftpad width '0'

/-- An integer filled up with zeros to `width` characters, of which a minus sign is one. -/
def signed (width : Nat) (n : Int) : List Char :=
  if n < 0 then '-' :: padded (width - 1) n.natAbs else padded width n.natAbs

/-- The number that a run of digits stands for. -/
def value (digits : List Char) : Nat :=
  Nat.ofDigitChars 10 digits 0

/-- A number of one to `limit` digits at the front of `text`, and the text after it. -/
def take? (limit : Nat) (text : List Char) : Option (Nat × List Char) :=
  let digits := (text.take limit).takeWhile Char.isDigit
  if digits.isEmpty then none else some (value digits, text.drop digits.length)

/-- A number written with exactly `width` digits at the front of `text`, and the text after it. -/
def takeExactly? (width : Nat) (text : List Char) : Option (Nat × List Char) :=
  let digits := (text.take width).takeWhile Char.isDigit
  if digits.length = width then some (value digits, text.drop width) else none

/-- All the digits at the front of `text`, and the text after them. -/
def span (text : List Char) : List Char × List Char :=
  (text.takeWhile Char.isDigit, text.dropWhile Char.isDigit)

/-- Leading zeros do not change a number. -/
theorem value_padded (width n : Nat) : value (padded width n) = n := by
  simp [value, padded, List.leftpad, Nat.ofDigitChars_append, Nat.ofDigitChars_replicate_zero,
    Nat.ofDigitChars_ten_toDigits]

/-- Every character of a padded number is a digit. -/
theorem isDigit_of_mem_padded {width n : Nat} {c : Char} (h : c ∈ padded width n) :
    c.isDigit := by
  simp only [padded, List.leftpad, List.mem_append, List.mem_replicate] at h
  rcases h with ⟨_, rfl⟩ | h
  · rfl
  · exact Nat.isDigit_of_mem_toDigits (by decide) (by decide) h

end MetricHistory.Text.Digits
