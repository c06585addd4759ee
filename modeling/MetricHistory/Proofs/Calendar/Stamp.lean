import MetricHistory.Calendar.Stamp
import MetricHistory.Proofs.Calendar.Date
import MetricHistory.Proofs.Calendar.Instant
import MetricHistory.Proofs.Text.Digits

/-!
# Timestamps read back

The text of an instant is read back as that instant, unless it lies in a leap second that does not
come at the end of a minute: this is written like the next second.  The reader accepts many other
texts, so each part is read where it stands, whatever comes after it: a number of two digits ends
with the second digit, a year and a fraction end where a character comes that is no digit, and no
part begins with white space.

* `Instant.LeapInPlace`: a leap second at the end of a minute, or none.
* `Instant.asRead`: what an instant is read back as; `Instant.asRead_eq_self_iff`.
* `Stamp.Tells`: the parts of a timestamp and what they say of an instant.
* `Instant.exists_tells`: the text of an instant has these parts.
* `Instant.ofText?_toText`: the text of an instant read back.
-/

namespace MetricHistory

namespace Text

theorem isBlank_of_isDigit {c : Char} (hc : c.isDigit = true) : isBlank c = false := by
  have hbounds : 48 ≤ c.toNat ∧ c.toNat ≤ 57 := by
    simpa [Char.isDigit, UInt32.le_iff_toNat_le] using hc
  unfold isBlank
  simp only [Bool.or_eq_false_iff, Bool.and_eq_false_iff, decide_eq_false_iff_not,
    beq_eq_false_iff_ne]
  omega

theorem dropBlanks_cons {c : Char} (hc : isBlank c = false) (text : List Char) :
    dropBlanks (c :: text) = c :: text :=
  List.dropWhile_cons_of_neg (by simp [hc])

/-- No white space stands in front of a number. -/
theorem dropBlanks_padded (width n : Nat) (rest : List Char) :
    dropBlanks (Digits.padded width n ++ rest) = Digits.padded width n ++ rest := by
  obtain ⟨c, digits, hpadded, hc⟩ := Digits.exists_padded_eq_cons width n
  rw [hpadded, List.cons_append, dropBlanks_cons (isBlank_of_isDigit hc)]

end Text

open Text

namespace Instant

/-! ### Dates -/

/-- A year without a sign has at most four digits. -/
theorem takeYear?_of_isDigit {c : Char} (hc : c.isDigit = true) (rest : List Char) :
    takeYear? (c :: rest) =
      (Digits.take? 4 (c :: rest)).map fun (n, rest) => ((n : Int), rest) := by
  unfold takeYear?
  split
  · next h => cases h; cases hc
  · next h => cases h; cases hc
  · rfl

theorem takeYear?_yearText (year : Int) {c : Char} (hc : c.isDigit = false) (rest : List Char) :
    takeYear? (yearText year ++ c :: rest) = some (year, c :: rest) := by
  -- the digits after a sign end where the next character is no digit
  have hsigned : Digits.take? (Digits.padded 4 year.natAbs ++ c :: rest).length
      (Digits.padded 4 year.natAbs ++ c :: rest) = some (year.natAbs, c :: rest) := by
    rw [Digits.take?_append (fun _ => Digits.isDigit_of_mem_padded) (Digits.padded_ne_nil _ _)
      (by rw [List.length_append]; exact Nat.le_add_right _ _) (Or.inr (by simpa using hc)),
      Digits.value_padded]
  unfold yearText
  split_ifs with hplain hneg
  · simp only [Bool.and_eq_true, decide_eq_true_eq] at hplain
    obtain ⟨d, digits, hpadded, hd⟩ := Digits.exists_padded_eq_cons 4 year.natAbs
    have htake : Digits.take? 4 (Digits.padded 4 year.natAbs ++ c :: rest) =
        some (year.natAbs, c :: rest) := Digits.take?_padded (by decide) (by omega) _
    have habs : (year.natAbs : Int) = year := Int.natAbs_of_nonneg hplain.1
    rw [hpadded, List.cons_append] at htake ⊢
    rw [takeYear?_of_isDigit hd, htake]
    exact congrArg (fun n => some (n, c :: rest)) habs
  · have habs : -(year.natAbs : Int) = year := by omega
    rw [List.cons_append, takeYear?, hsigned]
    exact congrArg (fun n => some (n, c :: rest)) habs
  · simp only [Bool.and_eq_true, decide_eq_true_eq] at hplain
    have habs : (year.natAbs : Int) = year := by omega
    rw [List.cons_append, takeYear?, hsigned]
    exact congrArg (fun n => some (n, c :: rest)) habs

theorem dropBlanks_yearText (year : Int) (rest : List Char) :
    dropBlanks (yearText year ++ rest) = yearText year ++ rest := by
  unfold yearText
  split_ifs
  · exact dropBlanks_padded 4 _ rest
  · exact dropBlanks_cons (by decide) _
  · exact dropBlanks_cons (by decide) _

theorem takeField?_padded {n : Nat} (hn : n < 100) (rest : List Char) :
    takeField? (Digits.padded 2 n ++ rest) = some (n, rest) := by
  rw [takeField?, dropBlanks_padded, Digits.take?_padded (by decide) hn]

theorem skip?_cons (c : Char) (rest : List Char) : skip? c (c :: rest) = some rest :=
  if_pos rfl

theorem takeDate?_dateText {date : Date} (hdate : date.isValid = true) (rest : List Char) :
    takeDate? (dateText date ++ rest) = some (date, rest) := by
  have hmonth : date.month < 100 := by
    have := Date.month_le_of_isValid hdate
    omega
  have hday : date.day < 100 := by
    have := Date.day_le_of_isValid hdate
    omega
  simp only [takeDate?, dateText, List.append_assoc, List.cons_append, dropBlanks_yearText,
    takeYear?_yearText date.year (c := '-') (by decide), Option.bind_eq_bind, Option.bind_some,
    dropBlanks_cons (c := '-') (by decide), skip?_cons, takeField?_padded hmonth,
    takeField?_padded hday, hdate, if_pos]

/-! ### Times of day -/

/-- The fraction of a second is told by at most nine digits. -/
theorem takeFraction?_cons {digits : List Char} (hdigits : ∀ d ∈ digits, d.isDigit = true)
    (hne : digits ≠ []) (hlength : digits.length ≤ 9) {c : Char} (hc : c.isDigit = false)
    (rest : List Char) :
    takeFraction? ('.' :: digits ++ c :: rest) =
      some (Digits.value digits * 10 ^ (9 - digits.length), c :: rest) := by
  have hspan : Digits.span (digits ++ c :: rest) = (digits, c :: rest) :=
    Digits.span_append hdigits (by simpa using hc)
  rw [List.cons_append, takeFraction?, hspan]
  simp only [List.isEmpty_iff, hne, if_false, List.take_of_length_le hlength]
  rfl

/-- The fraction of a second has no digits or three, six or nine of them, the fewest that tell the
nanoseconds. -/
theorem fractionText_spec {nano : Nat} (hnano : nano < nanosPerSecond) :
    ∃ digits, fractionText nano = (if digits = [] then [] else '.' :: digits) ∧
      (∀ c ∈ digits, c.isDigit = true) ∧ digits.length ∈ [0, 3, 6, 9] ∧
      Digits.value digits * 10 ^ (9 - digits.length) = nano ∧
      (digits ≠ [] → ¬ 10 ^ (12 - digits.length) ∣ nano) := by
  unfold nanosPerSecond at hnano
  have hpadded : ∀ width ∈ [3, 6, 9], 10 ^ (9 - width) ∣ nano → ¬ 10 ^ (12 - width) ∣ nano →
      ∃ digits, '.' :: Digits.padded width (nano / 10 ^ (9 - width)) =
          (if digits = [] then [] else '.' :: digits) ∧
        (∀ c ∈ digits, c.isDigit = true) ∧ digits.length ∈ [0, 3, 6, 9] ∧
        Digits.value digits * 10 ^ (9 - digits.length) = nano ∧
        (digits ≠ [] → ¬ 10 ^ (12 - digits.length) ∣ nano) := by
    intro width hwidth hdvd hfewest
    have hlength : (Digits.padded width (nano / 10 ^ (9 - width))).length = width := by
      simp only [List.mem_cons, List.not_mem_nil, or_false] at hwidth
      apply Digits.length_padded_of_lt
      · omega
      · rw [Nat.div_lt_iff_lt_mul (Nat.pow_pos (by decide)), ← Nat.pow_add]
        rcases hwidth with rfl | rfl | rfl <;> exact hnano
    refine ⟨_, (if_neg (Digits.padded_ne_nil _ _)).symm, fun _ => Digits.isDigit_of_mem_padded, ?_⟩
    rw [hlength, Digits.value_padded]
    exact ⟨List.mem_cons_of_mem 0 hwidth, Nat.div_mul_cancel hdvd, fun _ => hfewest⟩
  unfold fractionText
  split_ifs with hzero hmilli hmicro
  · exact ⟨[], rfl, nofun, List.mem_cons_self, hzero.symm, fun hne => absurd rfl hne⟩
  · exact hpadded 3 (by decide) (Nat.dvd_of_mod_eq_zero hmilli) (by omega)
  · exact hpadded 6 (by decide) (Nat.dvd_of_mod_eq_zero hmicro) (by omega)
  · have hnine := hpadded 9 (by decide) (by omega) (by omega)
    rwa [Nat.sub_self, Nat.pow_zero, Nat.div_one] at hnine

theorem takeFraction?_fractionText {nano : Nat} (hnano : nano < nanosPerSecond) {c : Char}
    (hc : c.isDigit = false) (hpoint : c ≠ '.') (rest : List Char) :
    takeFraction? (fractionText nano ++ c :: rest) = some (nano, c :: rest) := by
  obtain ⟨digits, htext, hdigits, hlength, hvalue, -⟩ := fractionText_spec hnano
  rw [htext]
  split_ifs with hnil
  · subst hnil
    rw [← hvalue, List.nil_append]
    unfold takeFraction?
    split
    · next h => exact absurd (List.cons.inj h).1 hpoint
    · rfl
  · have hle : digits.length ≤ 9 := by
      simp only [List.mem_cons, List.not_mem_nil, or_false] at hlength
      omega
    rw [takeFraction?_cons hdigits hnil hle hc, hvalue]

theorem takeTime?_clock {hour minute second nano : Nat} (hhour : hour ≤ 23) (hminute : minute ≤ 59)
    (hsecond : second ≤ 60) (hnano : nano < nanosPerSecond) {c : Char} (hc : c.isDigit = false)
    (hpoint : c ≠ '.') (rest : List Char) :
    takeTime? (Digits.padded 2 hour ++ ':' :: Digits.padded 2 minute ++
        ':' :: Digits.padded 2 second ++ fractionText nano ++ c :: rest) =
      some ((3600 * hour + 60 * minute + min second 59,
        if second = 60 then nanosPerSecond + nano else nano), c :: rest) := by
  simp only [takeTime?, List.append_assoc, List.cons_append, Option.bind_eq_bind, Option.bind_some,
    takeField?_padded (show hour < 100 by omega), takeField?_padded (show minute < 100 by omega),
    takeField?_padded (show second < 100 by omega), dropBlanks_cons (c := ':') (by decide),
    skip?_cons, takeFraction?_fractionText hnano hc hpoint, hhour, hminute, hsecond, decide_true,
    Bool.and_self, if_true]

/-! ### Timestamps -/

/-- A leap second comes after the last second of a minute. -/
def LeapInPlace (t : Instant) : Prop :=
  t.isLeap = true → t.second % 60 = 59

instance (t : Instant) : Decidable t.LeapInPlace :=
  inferInstanceAs (Decidable (_ → _))

/-- What a reader takes an instant for: a leap second in place is told by second 60, any other is
taken for the next second. -/
def asRead (t : Instant) : Instant :=
  if h : t.LeapInPlace then t
  else
    { second := t.second + 1
      nano := t.nano - nanosPerSecond
      firstSecond_le := by have := t.firstSecond_le; omega
      le_lastSecond := by
        have := t.le_lastSecond
        unfold LeapInPlace lastSecond at *
        omega
      nano_lt := by have := t.nano_lt; omega }

theorem asRead_eq_self_iff {t : Instant} : t.asRead = t ↔ t.LeapInPlace := by
  unfold asRead
  split_ifs with h
  · exact iff_of_true rfl h
  · refine iff_of_false (fun heq => ?_) h
    have hsecond : t.second + 1 = t.second := congrArg Instant.second heq
    omega

/-- The fraction stays the same when a leap second is taken for the next second. -/
theorem asRead_of_not_leapInPlace {t : Instant} (h : ¬ t.LeapInPlace) :
    t.asRead.second = t.second + 1 ∧ t.asRead.nano + nanosPerSecond = t.nano := by
  have hleap : nanosPerSecond ≤ t.nano := by
    by_contra hlt
    exact h fun hleap => absurd (isLeap_iff.mp hleap) hlt
  rw [asRead, dif_neg h]
  exact ⟨rfl, Nat.sub_add_cancel hleap⟩

/-- The second that is written, which is the next one within a leap second. -/
def shownSecond (t : Instant) : Nat :=
  t.clock % 60 + if t.isLeap then 1 else 0

theorem day_clock (t : Instant) : t.day * secondsPerDay + t.clock = t.second := by
  unfold day clock secondsPerDay
  omega

theorem clock_lt (t : Instant) : t.clock < 86400 := by
  unfold clock secondsPerDay
  omega

/-- A day has whole minutes. -/
theorem clock_mod_sixty (t : Instant) : ((t.clock % 60 : Nat) : Int) = t.second % 60 := by
  unfold clock secondsPerDay
  omega

/-- The clock is put together again from hours, minutes and seconds. -/
theorem clock_parts (t : Instant) :
    3600 * (t.clock / 3600) + 60 * (t.clock / 60 % 60) + t.clock % 60 = t.clock := by
  omega

theorem shownSecond_le (t : Instant) : t.shownSecond ≤ 60 := by
  unfold shownSecond
  split_ifs <;> omega

/-- The sixtieth second is written within the leap second of a minute. -/
theorem shownSecond_eq_sixty_iff {t : Instant} :
    t.shownSecond = 60 ↔ t.isLeap = true ∧ t.second % 60 = 59 := by
  have hclock := t.clock_mod_sixty
  unfold shownSecond
  split_ifs with hleap
  · rw [and_iff_right hleap]
    omega
  · exact iff_of_false (by omega) fun h => hleap h.1

theorem nano_mod_lt (t : Instant) : t.nano % nanosPerSecond < nanosPerSecond :=
  Nat.mod_lt _ (by decide)

/-- The reader counts second 60 with the second before it, and any other as it is written. -/
theorem second_asRead (t : Instant) :
    t.asRead.second = t.day * secondsPerDay +
      (3600 * (t.clock / 3600) + 60 * (t.clock / 60 % 60) + min t.shownSecond 59 : Nat) := by
  have hday := t.day_clock
  have hclock := t.clock_mod_sixty
  unfold asRead shownSecond
  split_ifs with hplace hleap hleap
  · have hlast := hplace hleap
    omega
  · omega
  · have hearlier : t.second % 60 ≠ 59 := fun hlast => hplace fun _ => hlast
    simp only
    omega
  · exact absurd (fun h => absurd h hleap) hplace

theorem nano_asRead (t : Instant) :
    t.asRead.nano = if t.shownSecond = 60 then nanosPerSecond + t.nano % nanosPerSecond
      else t.nano % nanosPerSecond := by
  have hnano := t.nano_lt
  have hleap := isLeap_iff (t := t)
  rw [if_congr shownSecond_eq_sixty_iff rfl rfl]
  unfold asRead
  split_ifs with hplace hsixty hsixty
  · have hle := hleap.mp hsixty.1
    unfold nanosPerSecond at *
    omega
  · have hlt : ¬ nanosPerSecond ≤ t.nano := fun hle =>
      hsixty ⟨hleap.mpr hle, hplace (hleap.mpr hle)⟩
    exact (Nat.mod_eq_of_lt (Nat.lt_of_not_le hlt)).symm
  · exact absurd (fun _ => hsixty.2) hplace
  · have hle : nanosPerSecond ≤ t.nano := by
      by_contra hlt
      exact hplace fun h => absurd (hleap.mp h) hlt
    simp only
    unfold nanosPerSecond at *
    omega

theorem chars_eq (t : Instant) :
    t.chars = dateText (Date.ofDay t.day) ++ 'T' :: (Digits.padded 2 (t.clock / 3600) ++
      ':' :: Digits.padded 2 (t.clock / 60 % 60) ++ ':' :: Digits.padded 2 t.shownSecond ++
      fractionText (t.nano % nanosPerSecond) ++ ['Z']) := by
  simp only [chars, shownSecond, List.append_assoc, List.cons_append]

theorem ofParts?_self (t : Instant) : ofParts? t.second t.nano = some t :=
  ofParts?_eq_some_iff.mpr ⟨rfl, rfl⟩

theorem ofChars?_chars (t : Instant) : ofChars? t.chars = some t.asRead := by
  have hlt := t.clock_lt
  have htime := takeTime?_clock (show t.clock / 3600 ≤ 23 by omega)
    (show t.clock / 60 % 60 ≤ 59 by omega) t.shownSecond_le t.nano_mod_lt (c := 'Z') (by decide)
    (by decide) []
  rw [← nano_asRead] at htime
  have hzone : takeZone? (dropBlanks ['Z']) = some (0, []) := by decide
  have hmark : ∀ rest, takeMark? ('T' :: rest) = some rest := fun _ => rfl
  simp only [ofChars?, chars_eq, Option.bind_eq_bind, Option.bind_some, hmark, htime, hzone,
    takeDate?_dateText (Date.isValid_ofDay t.day), Date.toDay_ofDay, ← second_asRead, ofParts?_self,
    Int.mul_zero, Int.sub_zero]
  rfl

end Instant

/-! ### The parts of a timestamp -/

/-- The parts of a timestamp: the sign of the year, and the digits of the numbers in their order. -/
structure Stamp where
  sign : List Char
  year : List Char
  month : List Char
  day : List Char
  hour : List Char
  minute : List Char
  second : List Char
  fraction : List Char

namespace Stamp

/-- Years outside 0 to 9999 have a sign. -/
def yearSign (year : Int) : List Char :=
  if year < 0 then ['-'] else if 9999 < year then ['+'] else []

/-- The parts in their order, with the marks between them.  A fraction without digits has no
point. -/
def chars (s : Stamp) : List Char :=
  s.sign ++ s.year ++ '-' :: s.month ++ '-' :: s.day ++ 'T' :: s.hour ++ ':' :: s.minute ++
    ':' :: s.second ++ (if s.fraction = [] then [] else '.' :: s.fraction) ++ ['Z']

/-- What the parts of a timestamp say of an instant. -/
structure Tells (s : Stamp) (t : Instant) : Prop where
  isDigit : ∀ part ∈ [s.year, s.month, s.day, s.hour, s.minute, s.second, s.fraction],
    ∀ c ∈ part, c.isDigit = true
  length_eq_two : ∀ part ∈ [s.month, s.day, s.hour, s.minute, s.second], part.length = 2
  sign_eq : s.sign = yearSign (Date.ofDay t.day).year
  four_le_length_year : 4 ≤ s.year.length
  length_year : s.sign = [] → s.year.length = 4
  date_eq : Digits.value s.year = (Date.ofDay t.day).year.natAbs ∧
    Digits.value s.month = (Date.ofDay t.day).month ∧ Digits.value s.day = (Date.ofDay t.day).day
  /-- Within a leap second the number of the next second is written. -/
  clock_eq : 3600 * Digits.value s.hour + 60 * Digits.value s.minute + Digits.value s.second =
    t.clock + if t.isLeap then 1 else 0
  minute_lt : Digits.value s.minute < 60
  second_le : Digits.value s.second ≤ 60
  /-- This is 60 if the leap second comes at the end of a minute. -/
  second_eq_sixty_iff : Digits.value s.second = 60 ↔ t.isLeap = true ∧ t.second % 60 = 59
  length_fraction : s.fraction.length ∈ [0, 3, 6, 9]
  fraction_eq : Digits.value s.fraction * 10 ^ (9 - s.fraction.length) = t.nano % nanosPerSecond
  /-- Three digits less would not do. -/
  fewest : s.fraction ≠ [] → ¬ 10 ^ (12 - s.fraction.length) ∣ t.nano % nanosPerSecond

end Stamp

namespace Instant

theorem yearText_eq (year : Int) :
    yearText year = Stamp.yearSign year ++ Digits.padded 4 year.natAbs := by
  unfold yearText Stamp.yearSign
  simp only [Bool.and_eq_true, decide_eq_true_eq]
  split_ifs <;> first | omega | rfl

/-- The parts of the text of an instant, with the digits of the fraction as they are given. -/
def stamp (t : Instant) (fraction : List Char) : Stamp :=
  let date := Date.ofDay t.day
  { sign := Stamp.yearSign date.year
    year := Digits.padded 4 date.year.natAbs
    month := Digits.padded 2 date.month
    day := Digits.padded 2 date.day
    hour := Digits.padded 2 (t.clock / 3600)
    minute := Digits.padded 2 (t.clock / 60 % 60)
    second := Digits.padded 2 t.shownSecond
    fraction }

theorem chars_stamp {t : Instant} {fraction : List Char}
    (htext : fractionText (t.nano % nanosPerSecond) =
      if fraction = [] then [] else '.' :: fraction) : (t.stamp fraction).chars = t.chars := by
  rw [chars_eq, dateText, yearText_eq, htext, Stamp.chars, stamp]
  simp only [List.append_assoc, List.cons_append]

/-- **The form of timestamps**: the text of an instant is made of the parts that tell of it. -/
theorem exists_tells (t : Instant) : ∃ s : Stamp, t.toText.toList = s.chars ∧ s.Tells t := by
  have hlt := t.clock_lt
  have hdate := Date.isValid_ofDay t.day
  have hmonth := Date.month_le_of_isValid hdate
  have hday := Date.day_le_of_isValid hdate
  have hsecond := t.shownSecond_le
  obtain ⟨fraction, htext, hdigits, hlength, hvalue, hfewest⟩ := fractionText_spec t.nano_mod_lt
  refine ⟨t.stamp fraction, ?_, ?_⟩
  · rw [chars_stamp htext, toText, String.toList_ofList]
  · exact {
      isDigit := by
        have hpadded : ∀ width n, ∀ c ∈ Digits.padded width n, c.isDigit = true :=
          fun _ _ _ => Digits.isDigit_of_mem_padded
        simp only [stamp, List.forall_mem_cons]
        exact ⟨hpadded _ _, hpadded _ _, hpadded _ _, hpadded _ _, hpadded _ _, hpadded _ _,
          hdigits, nofun⟩
      length_eq_two := by
        have htwo : ∀ n < 100, (Digits.padded 2 n).length = 2 := fun n hn =>
          Digits.length_padded_of_lt (by decide) hn
        simp only [stamp, List.forall_mem_cons]
        exact ⟨htwo _ (by omega), htwo _ (by omega), htwo _ (by omega), htwo _ (by omega),
          htwo _ (by omega), nofun⟩
      sign_eq := rfl
      four_le_length_year := by
        rw [stamp, Digits.length_padded]
        exact Nat.le_max_left 4 _
      length_year := by
        intro hsign
        apply Digits.length_padded_of_lt (by decide)
        simp only [stamp, Stamp.yearSign] at hsign
        split_ifs at hsign
        omega
      date_eq := ⟨Digits.value_padded _ _, Digits.value_padded _ _, Digits.value_padded _ _⟩
      clock_eq := by
        simp only [stamp, Digits.value_padded, shownSecond]
        rw [← Nat.add_assoc, clock_parts]
      minute_lt := by
        simp only [stamp, Digits.value_padded]
        exact Nat.mod_lt _ (by decide)
      second_le := by
        simp only [stamp, Digits.value_padded]
        exact hsecond
      second_eq_sixty_iff := by
        simp only [stamp, Digits.value_padded, shownSecond_eq_sixty_iff]
      length_fraction := hlength
      fraction_eq := hvalue
      fewest := hfewest }

/-- **Reading back**: the text of an instant is read as that instant, with a leap second out of
place taken for the next second. -/
theorem ofText?_toText (t : Instant) : ofText? t.toText = some t.asRead := by
  rw [ofText?, toText, String.toList_ofList, ofChars?_chars]

end Instant

end MetricHistory
