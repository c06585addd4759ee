import MetricHistory.Calendar.Date
import Mathlib.Data.List.GetD
import Mathlib.Logic.Function.Basic
import Mathlib.Tactic.SplitIfs

/-!
# Days and dates

The date of a day tells the day, and dates come in the order of their days.

* `Date.toDay_ofDay`, `Date.ofDay_toDay`: the day is computed back from its date, and the date from
  its day.
* `Date.ofDay_succ`: the date of the next day, as the lengths of months and years say.
* `yearOf_mono`, `monthIndex_mono`: later days lie in no earlier year and in no earlier month.
* `Week.ofDay_eq_iff`: two days share a week exactly if the same Monday comes last before them.
-/

namespace MetricHistory

/-! ### Years -/

theorem yearStart_mono {y z : Int} (h : y ≤ z) : yearStart y ≤ yearStart z := by
  unfold yearStart
  omega

theorem yearOf_mono {d e : Int} (h : d ≤ e) : yearOf d ≤ yearOf e := by
  by_contra hlt
  have hstart : yearStart (yearOf e + 1) ≤ yearStart (yearOf d) := yearStart_mono (by omega)
  have hd := (yearOf_spec d).1
  have he := (yearOf_spec e).2
  omega

theorem yearOf_eq {year day : Int} (hstart : yearStart year ≤ day)
    (hend : day < yearStart (year + 1)) : yearOf day = year := by
  obtain ⟨hstart', hend'⟩ := yearOf_spec day
  have hle : ¬ yearOf day + 1 ≤ year := by
    intro h
    have hmono := yearStart_mono h
    omega
  have hge : ¬ year + 1 ≤ yearOf day := by
    intro h
    have hmono := yearStart_mono h
    omega
  omega

/-! ### Months -/

theorem locateDay_cons_of_lt {len n : Nat} (h : n < len) (rest : List Nat) :
    locateDay (len :: rest) n = (0, n) := by
  rw [locateDay, if_pos h]

theorem locateDay_cons_of_le {len n : Nat} (h : len ≤ n) (rest : List Nat) :
    locateDay (len :: rest) n =
      ((locateDay rest (n - len)).1 + 1, (locateDay rest (n - len)).2) := by
  rw [locateDay, if_neg (by omega)]

/-- The days of the whole months before and those of the month itself make up the position. -/
theorem locateDay_spec (lengths : List Nat) (n : Nat) :
    ((lengths.take (locateDay lengths n).1).foldr (· + ·) 0) + (locateDay lengths n).2 = n := by
  induction lengths generalizing n with
  | nil => simp [locateDay]
  | cons len rest ih =>
    rcases Nat.lt_or_ge n len with h | h
    · simp [locateDay_cons_of_lt h]
    · have hrest := ih (n - len)
      rw [locateDay_cons_of_le h, List.take_succ_cons, List.foldr_cons]
      omega

theorem locateDay_fst_lt {lengths : List Nat} {n : Nat} (h : n < lengths.foldr (· + ·) 0) :
    (locateDay lengths n).1 < lengths.length := by
  induction lengths generalizing n with
  | nil => cases h
  | cons len rest ih =>
    rw [List.foldr_cons] at h
    rcases Nat.lt_or_ge n len with hlt | hge
    · simp [locateDay_cons_of_lt hlt]
    · have hrest := ih (n := n - len) (by omega)
      rw [locateDay_cons_of_le hge, List.length_cons]
      omega

theorem locateDay_fst_mono (lengths : List Nat) {m n : Nat} (h : m ≤ n) :
    (locateDay lengths m).1 ≤ (locateDay lengths n).1 := by
  induction lengths generalizing m n with
  | nil => exact Nat.le_refl 0
  | cons len rest ih =>
    rcases Nat.lt_or_ge m len with hm | hm
    · rw [locateDay_cons_of_lt hm]
      exact Nat.zero_le _
    · have hrest := ih (m := m - len) (n := n - len) (by omega)
      rw [locateDay_cons_of_le hm, locateDay_cons_of_le (by omega)]
      omega

/-- Only one position has that many days before it. -/
theorem locateDay_eq {lengths : List Nat} {months days n : Nat}
    (hdays : days < lengths.getD months 0)
    (hn : (lengths.take months).foldr (· + ·) 0 + days = n) :
    locateDay lengths n = (months, days) := by
  induction lengths generalizing months n with
  | nil => simp at hdays
  | cons len rest ih =>
    cases months with
    | zero =>
      simp only [List.getD_cons_zero] at hdays
      simp only [List.take_zero, List.foldr_nil, Nat.zero_add] at hn
      rw [locateDay_cons_of_lt (by omega), hn]
    | succ months =>
      simp only [List.getD_cons_succ] at hdays
      simp only [List.take_succ_cons, List.foldr_cons] at hn
      have hrest := ih hdays (n := n - len) (by omega)
      rw [locateDay_cons_of_le (by omega), hrest]

theorem locateDay_snd_lt {lengths : List Nat} {n : Nat} (h : n < lengths.foldr (· + ·) 0) :
    (locateDay lengths n).2 < lengths.getD (locateDay lengths n).1 0 := by
  induction lengths generalizing n with
  | nil => cases h
  | cons len rest ih =>
    rw [List.foldr_cons] at h
    rcases Nat.lt_or_ge n len with hlt | hge
    · simpa [locateDay_cons_of_lt hlt] using hlt
    · have hrest := ih (n := n - len) (by omega)
      simpa [locateDay_cons_of_le hge] using hrest

/-- A month is as long as what it adds to the months before. -/
theorem foldr_take_succ (lengths : List Nat) (months : Nat) :
    (lengths.take (months + 1)).foldr (· + ·) 0 =
      (lengths.take months).foldr (· + ·) 0 + lengths.getD months 0 := by
  induction lengths generalizing months with
  | nil => simp
  | cons len rest ih =>
    cases months with
    | zero => simp
    | succ months =>
      have hrest := ih months
      simp only [List.take_succ_cons, List.foldr_cons, List.getD_cons_succ] at hrest ⊢
      omega

theorem foldr_take_le (lengths : List Nat) (months : Nat) :
    (lengths.take months).foldr (· + ·) 0 ≤ lengths.foldr (· + ·) 0 := by
  induction lengths generalizing months with
  | nil => simp
  | cons len rest ih =>
    cases months with
    | zero => simp
    | succ months =>
      have hrest := ih months
      simp only [List.take_succ_cons, List.foldr_cons]
      omega

theorem foldr_take_add_getD_le (lengths : List Nat) (months : Nat) :
    (lengths.take months).foldr (· + ·) 0 + lengths.getD months 0 ≤
      lengths.foldr (· + ·) 0 := by
  rw [← foldr_take_succ]
  exact foldr_take_le lengths (months + 1)

theorem monthLengths_pos (year : Int) : ∀ len ∈ monthLengths year, 0 < len := by
  unfold monthLengths
  intro len hlen
  simp only [List.mem_cons, List.not_mem_nil, or_false] at hlen
  split at hlen <;> omega

theorem getD_monthLengths_pos (year : Int) {months : Nat} (h : months < 12) :
    0 < (monthLengths year).getD months 0 := by
  have hlength : months < (monthLengths year).length := h
  rw [List.getD_eq_getElem _ _ hlength]
  exact monthLengths_pos year _ (List.getElem_mem hlength)

theorem getD_monthLengths_le (year : Int) (months : Nat) :
    (monthLengths year).getD months 0 ≤ 31 := by
  have hle : ∀ len ∈ monthLengths year, len ≤ 31 := by
    unfold monthLengths
    intro len hlen
    simp only [List.mem_cons, List.not_mem_nil, or_false] at hlen
    split at hlen <;> omega
  rcases Nat.lt_or_ge months (monthLengths year).length with hlt | hge
  · rw [List.getD_eq_getElem _ _ hlt]
    exact hle _ (List.getElem_mem hlt)
  · rw [List.getD_eq_default _ _ hge]
    exact Nat.zero_le 31

/-! ### Dates -/

namespace Date

/-- The position of a day within its year. -/
def dayOfYear (day : Int) : Nat :=
  (day - yearStart (yearOf day)).toNat

theorem ofDay_eq (day : Int) :
    ofDay day =
      { year := yearOf day
        month := (locateDay (monthLengths (yearOf day)) (dayOfYear day)).1 + 1
        day := (locateDay (monthLengths (yearOf day)) (dayOfYear day)).2 + 1 } := by
  unfold ofDay dayOfYear
  dsimp only

theorem dayOfYear_lt (day : Int) :
    dayOfYear day < (monthLengths (yearOf day)).foldr (· + ·) 0 := by
  have hspec := yearOf_spec day
  have hlength := yearStart_succ (yearOf day)
  unfold dayOfYear
  omega

/-- The day is computed back from its date. -/
theorem toDay_ofDay (day : Int) : (ofDay day).toDay = day := by
  have hposition := locateDay_spec (monthLengths (yearOf day)) (dayOfYear day)
  have hstart := (yearOf_spec day).1
  have hday : (dayOfYear day : Int) = day - yearStart (yearOf day) := by
    unfold dayOfYear
    omega
  rw [ofDay_eq, toDay]
  simp only [Nat.add_sub_cancel]
  omega

theorem ofDay_injective : Function.Injective ofDay :=
  Function.LeftInverse.injective toDay_ofDay

theorem month_ofDay_bounds (day : Int) : 1 ≤ (ofDay day).month ∧ (ofDay day).month ≤ 12 := by
  have hlt := locateDay_fst_lt (dayOfYear_lt day)
  rw [ofDay_eq]
  exact ⟨Nat.le_add_left 1 _, hlt⟩

theorem isValid_iff {d : Date} :
    d.isValid = true ↔
      1 ≤ d.month ∧ 1 ≤ d.day ∧ d.day ≤ (monthLengths d.year).getD (d.month - 1) 0 := by
  unfold isValid
  simp [and_assoc]

theorem isValid_ofDay (day : Int) : (ofDay day).isValid = true := by
  have hlt := locateDay_snd_lt (dayOfYear_lt day)
  rw [isValid_iff, ofDay_eq]
  exact ⟨Nat.le_add_left 1 _, Nat.le_add_left 1 _, hlt⟩

theorem month_le_of_isValid {d : Date} (h : d.isValid = true) : d.month ≤ 12 := by
  obtain ⟨hmonth, hday, hlength⟩ := isValid_iff.mp h
  by_contra hlt
  have hbeyond : (monthLengths d.year).length ≤ d.month - 1 := by
    show 12 ≤ d.month - 1
    omega
  rw [List.getD_eq_default _ _ hbeyond] at hlength
  omega

theorem day_le_of_isValid {d : Date} (h : d.isValid = true) : d.day ≤ 31 := by
  obtain ⟨-, -, hlength⟩ := isValid_iff.mp h
  exact Nat.le_trans hlength (getD_monthLengths_le d.year (d.month - 1))

/-- A date of the calendar is the date of its day. -/
theorem ofDay_toDay {d : Date} (h : d.isValid = true) : ofDay d.toDay = d := by
  obtain ⟨year, month, day⟩ := d
  obtain ⟨hmonth, hday, hlength⟩ := isValid_iff.mp h
  simp only at hmonth hday hlength
  have hwithin := foldr_take_add_getD_le (monthLengths year) (month - 1)
  have hsucc := yearStart_succ year
  have hyear : yearOf (toDay ⟨year, month, day⟩) = year := by
    apply yearOf_eq
    · simp only [toDay]
      omega
    · simp only [toDay]
      omega
  have hposition : locateDay (monthLengths year) (dayOfYear (toDay ⟨year, month, day⟩)) =
      (month - 1, day - 1) := by
    apply locateDay_eq
    · omega
    · unfold dayOfYear
      rw [hyear]
      simp only [toDay]
      omega
  rw [ofDay_eq, hyear, hposition]
  show (⟨year, month - 1 + 1, day - 1 + 1⟩ : Date) = ⟨year, month, day⟩
  rw [Nat.sub_add_cancel hmonth, Nat.sub_add_cancel hday]

/-- The date of the day after: the next day of the month, or else the first day of the next month,
or else the first day of the next year. -/
def next (d : Date) : Date :=
  if d.day < (monthLengths d.year).getD (d.month - 1) 0 then { d with day := d.day + 1 }
  else if d.month < 12 then { d with month := d.month + 1, day := 1 }
  else { year := d.year + 1, month := 1, day := 1 }

theorem isValid_next {d : Date} (h : d.isValid = true) : d.next.isValid = true := by
  obtain ⟨hmonth, hday, hlength⟩ := isValid_iff.mp h
  rw [isValid_iff, next]
  split_ifs with hinner hmonths
  · simp only
    omega
  · have hpos := getD_monthLengths_pos d.year hmonths
    simp only [Nat.add_sub_cancel]
    omega
  · have hpos : 0 < (monthLengths (d.year + 1)).getD 0 0 :=
      getD_monthLengths_pos (d.year + 1) (by decide)
    exact ⟨Nat.le_refl 1, Nat.le_refl 1, hpos⟩

theorem toDay_next {d : Date} (h : d.isValid = true) : d.next.toDay = d.toDay + 1 := by
  obtain ⟨hmonth, hday, hlength⟩ := isValid_iff.mp h
  rw [next]
  split_ifs with hinner hmonths
  · simp only [toDay]
    omega
  · -- the days of the month that ends here are added to those before it
    have htake := foldr_take_succ (monthLengths d.year) (d.month - 1)
    rw [Nat.sub_add_cancel hmonth] at htake
    simp only [toDay, Nat.add_sub_cancel]
    omega
  · have hlast : d.month = 12 := by
      have hle := month_le_of_isValid h
      omega
    have hall : (monthLengths d.year).take d.month = monthLengths d.year := by
      rw [hlast]
      rfl
    have htake := foldr_take_succ (monthLengths d.year) (d.month - 1)
    rw [Nat.sub_add_cancel hmonth, hall] at htake
    have hsucc := yearStart_succ d.year
    simp only [toDay, Nat.sub_self, List.take_zero, List.foldr_nil]
    omega

/-- **The calendar**: dates follow each other as the lengths of the months and the years say. -/
theorem ofDay_succ (day : Int) : ofDay (day + 1) = (ofDay day).next := by
  have hvalid := isValid_ofDay day
  have hnext := toDay_next hvalid
  rw [toDay_ofDay] at hnext
  rw [← hnext, ofDay_toDay (isValid_next hvalid)]

/-- Months counted through all years, twelve for each. -/
def monthIndex (date : Date) : Int :=
  12 * date.year + date.month

theorem monthIndex_eq_iff (d e : Int) :
    (ofDay d).monthIndex = (ofDay e).monthIndex ↔
      (ofDay d).year = (ofDay e).year ∧ (ofDay d).month = (ofDay e).month := by
  have hd := month_ofDay_bounds d
  have he := month_ofDay_bounds e
  unfold monthIndex
  omega

theorem year_month_le_of_monthIndex_le {d e : Int}
    (h : (ofDay d).monthIndex ≤ (ofDay e).monthIndex) :
    (ofDay d).year < (ofDay e).year ∨
      (ofDay d).year = (ofDay e).year ∧ (ofDay d).month ≤ (ofDay e).month := by
  have hd := month_ofDay_bounds d
  have he := month_ofDay_bounds e
  unfold monthIndex at h
  omega

theorem monthIndex_mono {d e : Int} (h : d ≤ e) :
    (ofDay d).monthIndex ≤ (ofDay e).monthIndex := by
  have hyear : (ofDay d).year ≤ (ofDay e).year := yearOf_mono h
  rcases Int.lt_or_eq_of_le hyear with hlt | heq
  -- in a later year, whichever month it is
  · have hd := month_ofDay_bounds d
    have he := month_ofDay_bounds e
    unfold monthIndex
    omega
  -- within a year the position of the day decides
  · have hyearOf : yearOf d = yearOf e := heq
    have hposition : dayOfYear d ≤ dayOfYear e := by
      unfold dayOfYear
      rw [hyearOf]
      omega
    have hmonth := locateDay_fst_mono (monthLengths (yearOf e)) hposition
    rw [ofDay_eq, ofDay_eq, hyearOf]
    unfold monthIndex
    simp only
    omega

end Date

/-! ### Weeks -/

namespace Week

theorem thursday_eq (day : Int) : thursday day = 7 * ((day + 3) / 7) := by
  unfold thursday
  omega

/-- Weeks begin on Mondays, and day -3 was one. -/
theorem ofDay_eq_iff (d e : Int) : ofDay d = ofDay e ↔ (d + 3) / 7 = (e + 3) / 7 := by
  constructor
  · intro h
    obtain ⟨hyear, hnumber⟩ := Week.mk.inj h
    rw [← hyear, thursday_eq, thursday_eq] at hnumber
    omega
  · intro h
    have hthursday : thursday d = thursday e := by rw [thursday_eq, thursday_eq, h]
    unfold ofDay
    rw [hthursday]

end Week

end MetricHistory
