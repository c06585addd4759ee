import MetricHistory.Calendar.Bucket
import MetricHistory.Proofs.Calendar.Date
import MetricHistory.Proofs.Text.Digits

/-!
# Buckets are periods of time

The days, weeks and months are numbered in the order of time, and the key of a bucket tells its
number.  So the instants of one bucket lie together, and of two instants in different buckets the
earlier one lies in the earlier bucket.

* `BucketSize.period`: the number of the bucket that holds an instant; `BucketSize.period_mono`.
* `BucketSize.key_eq_iff`: keys agree exactly if these numbers do.
* `BucketSize.key_eq_of_between`, `BucketSize.lt_of_key_ne`: what this means for instants.
* `BucketSize.key_tells_period`: all of this for days, weeks and months of the calendar.
-/

namespace MetricHistory

open Text

/-! ### What a key tells -/

theorem dayKey_injective : Function.Injective dayKey := by
  intro d e h
  have hmonthDay : ∀ n, '-' ∉ Digits.padded 2 n := Digits.not_mem_padded (by decide) 2
  obtain ⟨hyearMonth, hday⟩ := append_cons_inj (hmonthDay _) (hmonthDay _) h
  obtain ⟨hyear, hmonth⟩ := append_cons_inj (hmonthDay _) (hmonthDay _) hyearMonth
  obtain ⟨year, month, day⟩ := d
  obtain ⟨year', month', day'⟩ := e
  rw [Date.mk.injEq]
  exact ⟨Digits.signed_injective 4 hyear, Digits.padded_injective 2 hmonth,
    Digits.padded_injective 2 hday⟩

theorem weekKey_injective : Function.Injective weekKey := by
  intro v w h
  have hnumber : ∀ n, 'W' ∉ Digits.signed 2 n :=
    Digits.not_mem_signed (by decide) (by decide) 2
  unfold weekKey at h
  rw [List.append_cons, List.append_cons (Digits.signed 4 w.year)] at h
  obtain ⟨hyear, hnumbers⟩ := append_cons_inj (hnumber _) (hnumber _) h
  obtain ⟨year, number⟩ := v
  obtain ⟨year', number'⟩ := w
  rw [Week.mk.injEq]
  exact ⟨Digits.signed_injective 4 (List.append_cancel_right hyear),
    Digits.signed_injective 2 hnumbers⟩

theorem monthKey_eq_iff {d e : Date} :
    monthKey d = monthKey e ↔ d.year = e.year ∧ d.month = e.month := by
  constructor
  · intro h
    have hmonth : ∀ n, '-' ∉ Digits.padded 2 n := Digits.not_mem_padded (by decide) 2
    obtain ⟨hyear, hmonths⟩ := append_cons_inj (hmonth _) (hmonth _) h
    exact ⟨Digits.signed_injective 4 hyear, Digits.padded_injective 2 hmonths⟩
  · rintro ⟨hyear, hmonth⟩
    rw [monthKey, monthKey, hyear, hmonth]

namespace BucketSize

/-! ### Periods -/

/-- The number of the day, week or month that holds an instant. -/
def period (size : BucketSize) (t : Instant) : Int :=
  match size with
  | day => t.day
  | week => (t.day + 3) / 7
  | month => (Date.ofDay t.day).monthIndex

theorem day_mono {s t : Instant} (h : s ≤ t) : s.day ≤ t.day := by
  have hsecond : s.second ≤ t.second := by
    rw [Instant.le_iff] at h
    omega
  exact Int.ediv_le_ediv (by decide) hsecond

/-- Later instants lie in no earlier bucket. -/
theorem period_mono (size : BucketSize) {s t : Instant} (h : s ≤ t) :
    size.period s ≤ size.period t := by
  have hday := day_mono h
  cases size with
  | day => exact hday
  | week => exact Int.ediv_le_ediv (by decide) (by omega)
  | month => exact Date.monthIndex_mono hday

/-- The key of a bucket tells which one it is. -/
theorem key_eq_iff (size : BucketSize) {s t : Instant} :
    size.key s = size.key t ↔ size.period s = size.period t := by
  unfold key
  rw [String.ofList_inj]
  cases size with
  | day => exact (dayKey_injective.comp Date.ofDay_injective).eq_iff
  | week => exact weekKey_injective.eq_iff.trans (Week.ofDay_eq_iff _ _)
  | month => exact monthKey_eq_iff.trans (Date.monthIndex_eq_iff _ _).symm

/-- The instants of a bucket lie together. -/
theorem key_eq_of_between (size : BucketSize) {s t u : Instant} (hst : s ≤ t) (htu : t ≤ u)
    (h : size.key s = size.key u) : size.key t = size.key s := by
  rw [key_eq_iff] at h ⊢
  have hfirst := size.period_mono hst
  have hlast := size.period_mono htu
  omega

/-- Buckets follow each other in time: whatever lies in the bucket of the earlier of two instants is
before whatever lies in that of the later one. -/
theorem lt_of_key_ne (size : BucketSize) {s t s' t' : Instant} (hst : s ≤ t)
    (hne : size.key s ≠ size.key t) (hs : size.key s' = size.key s)
    (ht : size.key t' = size.key t) : s' < t' := by
  rw [ne_eq, key_eq_iff] at hne
  rw [key_eq_iff] at hs ht
  have hperiod := size.period_mono hst
  intro hle
  have hback := size.period_mono hle
  omega

/-- **Periods**: two instants have the same key exactly if they lie on the same day, in the same
week from Monday to Sunday, or in the same month of the calendar, whose dates follow each other from
1970-01-01 on and back.  Later instants lie in no earlier day, week or month, so that the instants
of one key make up one interval. -/
theorem key_tells_period :
    (∀ s t : Instant, day.key s = day.key t ↔ s.day = t.day) ∧
    (∀ s t : Instant, week.key s = week.key t ↔ (s.day + 3) / 7 = (t.day + 3) / 7) ∧
    (∀ s t : Instant, month.key s = month.key t ↔
      (Date.ofDay s.day).year = (Date.ofDay t.day).year ∧
        (Date.ofDay s.day).month = (Date.ofDay t.day).month) ∧
    (∀ t : Instant, t.day = t.second / 86400) ∧
    (Date.ofDay 0 = { year := 1970, month := 1, day := 1 } ∧
      ∀ d : Int, Date.ofDay (d + 1) = (Date.ofDay d).next) ∧
    (∀ s t : Instant, s ≤ t →
      s.day ≤ t.day ∧ (s.day + 3) / 7 ≤ (t.day + 3) / 7 ∧
        ((Date.ofDay s.day).year < (Date.ofDay t.day).year ∨
          (Date.ofDay s.day).year = (Date.ofDay t.day).year ∧
            (Date.ofDay s.day).month ≤ (Date.ofDay t.day).month)) ∧
    ∀ (size : BucketSize) (s t u : Instant), s ≤ t → t ≤ u → size.key s = size.key u →
      size.key t = size.key s := by
  refine ⟨?_, ?_, ?_, ?_, ⟨by decide, Date.ofDay_succ⟩, ?_, ?_⟩
  · intro s t
    exact day.key_eq_iff
  · intro s t
    exact week.key_eq_iff
  · intro s t
    exact month.key_eq_iff.trans (Date.monthIndex_eq_iff _ _)
  · intro t
    rfl
  · intro s t hst
    exact ⟨day.period_mono hst, week.period_mono hst,
      Date.year_month_le_of_monthIndex_le (month.period_mono hst)⟩
  · intro size s t u hst htu h
    exact size.key_eq_of_between hst htu h

/-- 2020-12-31, and the leap second at the end of 2021-01-03, lie in one week but not in one month,
and so the new year between them lies in that week as well. -/
theorem key_tells_period_newYear :
    let eve : Instant := ⟨1609372800, 0, by decide, by decide, by decide⟩
    let newYear : Instant := ⟨1609459200, 0, by decide, by decide, by decide⟩
    let sunday : Instant := ⟨1609718399, 1500000000, by decide, by decide, by decide⟩
    eve ≤ newYear ∧ newYear ≤ sunday ∧ week.key eve = week.key sunday ∧
      month.key eve ≠ month.key sunday ∧ week.key newYear = week.key eve := by
  intro eve newYear sunday
  obtain ⟨-, hweek, hmonth, -, -, -, hbetween⟩ := key_tells_period
  have hfirst : eve ≤ newYear := by decide
  have hlast : newYear ≤ sunday := by decide
  have hkey : week.key eve = week.key sunday := (hweek eve sunday).mpr (by decide)
  have hne : month.key eve ≠ month.key sunday := by
    rw [ne_eq, hmonth eve sunday]
    decide
  exact ⟨hfirst, hlast, hkey, hne, hbetween week eve newYear sunday hfirst hlast hkey⟩

end BucketSize

end MetricHistory
