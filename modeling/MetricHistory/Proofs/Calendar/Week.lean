import MetricHistory.Proofs.Calendar.Period

/-!
# The weeks of a year

A week runs from Monday to Sunday.  Week 1 of a year is the one that holds January 4, the next ones
follow it, and they belong to that year until week 1 of the next year begins.  Every day lies in one
week of one year, which is the week that its Thursday tells, and which its key prints.

* `Week.Holds`: a day lies in a week, as counted from January 4.
* `Week.holds_ofDay`, `Week.Holds.eq`, `Week.Holds.number_le`: each day lies in one week, and no
  year has more than 53 of them.
* `Week.ofInstant`: the week of an instant from the instant of its Thursday, where there is one.
* `BucketSize.key_week_spec`: the key of a week.
-/

namespace MetricHistory

theorem yearStart_succ_bounds (year : Int) :
    yearStart year + 365 ≤ yearStart (year + 1) ∧ yearStart (year + 1) ≤ yearStart year + 366 := by
  unfold yearStart
  omega

namespace Week

/-! ### Counting from January 4 -/

/-- The Monday that comes last before a day or is the day itself.  Day -3 was a Monday. -/
def monday (day : Int) : Int :=
  day - (day + 3) % 7

/-- The Monday of the week that holds January 4 of a year. -/
def firstMonday (year : Int) : Int :=
  monday (Date.toDay { year, month := 1, day := 4 })

/-- A day lies in the week of that number, counted from the week that holds January 4 of the year,
and before the week that holds January 4 of the next year. -/
structure Holds (w : Week) (day : Int) : Prop where
  one_le : 1 ≤ w.number
  monday_le : firstMonday w.year + 7 * (w.number - 1) ≤ day
  le_sunday : day < firstMonday w.year + 7 * w.number
  lt_next : day < firstMonday (w.year + 1)

theorem firstMonday_eq (year : Int) : firstMonday year = monday (yearStart year + 3) := by
  have hday : Date.toDay { year, month := 1, day := 4 } = yearStart year + 3 := by
    simp only [Date.toDay, Nat.sub_self, List.take_zero, List.foldr_nil]
    omega
  rw [firstMonday, hday]

/-- The first Thursday of a year is one of its first seven days. -/
theorem firstMonday_bounds (year : Int) :
    (firstMonday year + 3) % 7 = 0 ∧
      yearStart year ≤ firstMonday year + 3 ∧ firstMonday year + 3 < yearStart year + 7 := by
  rw [firstMonday_eq, monday]
  omega

theorem firstMonday_mono {y z : Int} (h : y ≤ z) : firstMonday y ≤ firstMonday z := by
  have hstart := yearStart_mono h
  rw [firstMonday_eq, firstMonday_eq, monday, monday]
  omega

/-- The week of a day is the one that its Thursday tells. -/
theorem holds_ofDay (day : Int) : (ofDay day).Holds day := by
  have hthursday := thursday_eq day
  obtain ⟨hstart, hend⟩ := yearOf_spec (thursday day)
  obtain ⟨hfirst, hfirst_le, hfirst_lt⟩ := firstMonday_bounds (yearOf (thursday day))
  obtain ⟨hnext, hnext_le, hnext_lt⟩ := firstMonday_bounds (yearOf (thursday day) + 1)
  constructor
  case one_le =>
    simp only [ofDay]
    omega
  case monday_le =>
    simp only [ofDay]
    omega
  case le_sunday =>
    simp only [ofDay]
    omega
  case lt_next =>
    simp only [ofDay]
    omega

variable {v w : Week} {day : Int}

theorem Holds.year_le (hv : v.Holds day) (hw : w.Holds day) : v.year ≤ w.year := by
  by_contra hlt
  have hmono : firstMonday (w.year + 1) ≤ firstMonday v.year := firstMonday_mono (by omega)
  have hpos := hv.one_le
  have hle := hv.monday_le
  have hend := hw.lt_next
  omega

/-- A day lies in one week only. -/
theorem Holds.eq (hv : v.Holds day) (hw : w.Holds day) : v = w := by
  have hyear : v.year = w.year := Int.le_antisymm (hv.year_le hw) (hw.year_le hv)
  have hv_le := hv.monday_le
  have hv_lt := hv.le_sunday
  have hw_le := hw.monday_le
  have hw_lt := hw.le_sunday
  rw [hyear] at hv_le hv_lt
  obtain ⟨year, number⟩ := v
  obtain ⟨year', number'⟩ := w
  rw [Week.mk.injEq]
  simp only at hyear hv_le hv_lt hw_le hw_lt
  omega

theorem holds_iff : w.Holds day ↔ w = ofDay day := by
  constructor
  · intro hw
    exact hw.eq (holds_ofDay day)
  · rintro rfl
    exact holds_ofDay day

/-- No year has more than 53 weeks. -/
theorem Holds.number_le (hw : w.Holds day) : w.number ≤ 53 := by
  obtain ⟨-, hlength⟩ := yearStart_succ_bounds w.year
  obtain ⟨hfirst, hfirst_le, hfirst_lt⟩ := firstMonday_bounds w.year
  obtain ⟨hnext, hnext_le, hnext_lt⟩ := firstMonday_bounds (w.year + 1)
  have hle := hw.monday_le
  have hend := hw.lt_next
  omega

/-! ### The Thursday as an instant -/

/-- The week of an instant: the year of its Thursday, and the weeks of that year up to the Thursday.
The Thursday may lie beyond the first or the last instant; the week is taken from elsewhere then. -/
def ofInstant (elsewhere : Instant → Week) (t : Instant) : Week :=
  match Instant.ofParts? (thursday t.day * secondsPerDay) 0 with
  | some thursday =>
    { year := (Date.ofDay thursday.day).year, number := Date.dayOfYear thursday.day / 7 + 1 }
  | none => elsewhere t

/-- The instant of the Thursday tells the same week as the Thursday itself. -/
theorem ofInstant_eq {elsewhere : Instant → Week} {t : Instant}
    (h : Instant.ofParts? (thursday t.day * secondsPerDay) 0 = none →
      (elsewhere t).Holds t.day) : ofInstant elsewhere t = ofDay t.day := by
  unfold ofInstant
  split
  · next thu hthu =>
    have hday : thu.day = thursday t.day := by
      have hsecond : thu.second = thursday t.day * secondsPerDay := by
        unfold Instant.ofParts? at hthu
        split at hthu
        · cases hthu
          rfl
        · cases hthu
      rw [Instant.day, hsecond]
      exact Int.mul_ediv_cancel _ (by decide)
    have hstart := (yearOf_spec (thursday t.day)).1
    rw [hday, Date.ofDay_eq, ofDay, Week.mk.injEq]
    refine ⟨rfl, ?_⟩
    unfold Date.dayOfYear
    omega
  · next hnone => exact holds_iff.mp (h hnone)

end Week

/-- **Weeks**: a week's key prints the one week in which its day lies, when weeks are counted from
the one that holds January 4, and its number is at most 53.  It is the same whether the week is
found from the instant of its Thursday or, where this lies beyond the first or the last instant,
taken from a calendar that counts so. -/
theorem BucketSize.key_week_spec (t : Instant) :
    (∃! w : Week, w.Holds t.day) ∧
    (∀ w : Week, week.key t = String.ofList (weekKey w) ↔ w.Holds t.day) ∧
    (∀ w : Week, w.Holds t.day → w.number ≤ 53) ∧
    ∀ elsewhere : Instant → Week,
      (Instant.ofParts? (Week.thursday t.day * secondsPerDay) 0 = none →
        (elsewhere t).Holds t.day) →
      week.key t = String.ofList (weekKey (Week.ofInstant elsewhere t)) := by
  refine ⟨⟨Week.ofDay t.day, Week.holds_ofDay t.day, ?_⟩, ?_, ?_, ?_⟩
  · intro w hw
    exact Week.holds_iff.mp hw
  · intro w
    show String.ofList (weekKey (Week.ofDay t.day)) = String.ofList (weekKey w) ↔ w.Holds t.day
    rw [String.ofList_inj, weekKey_injective.eq_iff, Week.holds_iff]
    exact eq_comm
  · intro w hw
    exact hw.number_le
  · intro elsewhere helsewhere
    rw [Week.ofInstant_eq helsewhere]
    rfl

/-- Midnight of the last day that has instants, a Monday. -/
def Instant.lastDay : Instant :=
  ⟨8210266790400, 0, by decide, by decide, Instant.epoch.nano_lt⟩

/-- The Thursday after the last day has no instant, and its week is the first one of a year that has
none either. -/
theorem BucketSize.key_week_spec_lastDay :
    Instant.ofParts? (Week.thursday Instant.lastDay.day * secondsPerDay) 0 = none ∧
    (Week.mk 262143 1).Holds Instant.lastDay.day ∧
    week.key Instant.lastDay = "262143-W01" ∧
    week.key Instant.lastDay =
      String.ofList (weekKey (Week.ofInstant (fun _ => ⟨262143, 1⟩) Instant.lastDay)) := by
  have hnone : Instant.ofParts? (Week.thursday Instant.lastDay.day * secondsPerDay) 0 = none := by
    decide
  have hholds : (Week.mk 262143 1).Holds Instant.lastDay.day := by
    constructor <;> decide
  obtain ⟨-, hkey, -, helsewhere⟩ := key_week_spec Instant.lastDay
  have hprinted : weekKey ⟨262143, 1⟩ = "262143-W01".toList := by decide
  refine ⟨hnone, hholds, ?_, helsewhere _ fun _ => hholds⟩
  rw [(hkey _).mpr hholds, hprinted, String.ofList_toList]

end MetricHistory
