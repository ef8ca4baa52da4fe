import Scc.Libc.Time.Mktime

set_option linter.all false

/-! The weeks of `strftime` (time/strftime.c): `first`, `isoyear` and `isoweek`, and the week dates of ISO 8601. -/
namespace Scc.Libc.Time

/-- The days before the first one of its kind in a year that is counted from 1900. -/
def first (day year : Int) : Int :=
  let ny := newyear year
  if ny = day then 0
  else if day - ny < 0 then 7 - (ny - day)
  else day - ny

namespace Tm
variable (tm : Tm)

def isoyear : Int :=
  if tm.tm_yday < 7 then
    if tm.tm_yday < first 4 tm.tm_year - 3 then tm.tm_year - 1 else tm.tm_year
  else if tm.tm_yday > 357 then
    if tm.tm_mday ≥ 31 + (first 4 (tm.tm_year + 1) - 3) then tm.tm_year + 1 else tm.tm_year
  else tm.tm_year

def isoweek : Int :=
  let year := tm.isoyear
  let monday := first 4 year - 3
  let yday :=
    if year > tm.tm_year then tm.tm_mday - 31 + monday
    else if year < tm.tm_year then daysyear year + tm.tm_yday
    else tm.tm_yday
  (yday - monday).tdiv 7 + 1

/-- What `strftime` shows for `%g`: two digits, or a question mark for a year before 1900. -/
def shortYear : Option Int := if tm.isoyear < 0 then none else some (tm.isoyear % 100)

/-- A date of the calendar from the year 1 on, whose weekdays `_newyear` computes without an overflow. -/
structure Date : Prop where
  year : 1 ≤ MINYEAR + tm.tm_year
  fits : 1 + (MINYEAR + tm.tm_year) + (MINYEAR + tm.tm_year) / 4 ≤ INT_MAX
  mon : 0 ≤ tm.tm_mon ∧ tm.tm_mon < 12
  mday : 1 ≤ tm.tm_mday ∧ tm.tm_mday ≤ daysmon (MINYEAR + tm.tm_year) tm.tm_mon.toNat
  yday : tm.tm_yday = daysBefore (MINYEAR + tm.tm_year) tm.tm_mon.toNat + tm.tm_mday - 1
  wday : tm.tm_wday = (tm.date - dayNumber EPOCH 0 1 + 4) % 7

/-- A Sunday from the 28th of December on. -/
def LastSunday : Prop := tm.tm_mon = 11 ∧ 28 ≤ tm.tm_mday ∧ tm.tm_wday = 0

end Tm

/-! ## ISO 8601 -/

/-- The number of the first Thursday of a year. -/
def FirstThursday (year day : Int) : Prop :=
  (day - dayNumber EPOCH 0 1 + 4) % 7 = 4 ∧ dayNumber year 0 1 ≤ day ∧ day < dayNumber year 0 1 + 7

/-- The day is in a week of the year. The first week is that of the first Thursday and starts on the Monday before it; the last
one is before the first week of the next year. -/
def IsoWeek (day year week : Int) : Prop :=
  ∃ thursday next, FirstThursday year thursday ∧ FirstThursday (year + 1) next ∧
    thursday - 3 ≤ day ∧ day < next - 3 ∧ week = (day - (thursday - 3)) / 7 + 1

/-- What `%G`, `%V` and `%g` show is the week date. -/
def IsoDate (tm : Tm) : Prop :=
  IsoWeek tm.date (tm.isoyear + 1900) tm.isoweek ∧ tm.shortYear = some ((tm.isoyear + 1900) % 100)

variable {year day week : Int} {tm : Tm}

/-- Each year has one first Thursday. -/
theorem FirstThursday.unique {other : Int} (one : FirstThursday year day) (two : FirstThursday year other) : day = other := by
  unfold FirstThursday at one two
  omega

/-- `first` gives the place of the first Thursday. -/
theorem first_thursday (year : Int) : FirstThursday (MINYEAR + year) (dayNumber (MINYEAR + year) 0 1 + first 4 year) ∧
    0 ≤ first 4 year ∧ first 4 year < 7 := by
  have weekday := newyear_weekday year
  unfold FirstThursday first
  dsimp only
  split
  · omega
  · split <;> omega

/-- `isoweek` asks for the length of a year that is counted from 1900. Where that is not the length of the year, the next year
starts with a Monday or a Tuesday, and no day of it is in the last week before. -/
theorem centuries (year : Int) : daysyear (year - 1) = daysyear (MINYEAR + (year - 1)) ∨ first 4 year ≤ 3 := by
  by_cases century : (year - 1) % 400 = 0 ∨ (year - 1) % 400 = 100
  · right
    have weekday : newyear year = 1 ∨ newyear year = 2 := by
      unfold newyear
      dsimp only
      omega
    unfold first
    dsimp only
    split
    · omega
    · split <;> omega
  · left
    have four : (MINYEAR + (year - 1)) % 4 = (year - 1) % 4 := by
      unfold MINYEAR
      omega
    have same : ((MINYEAR + (year - 1)) % 100 = 0 ∧ (MINYEAR + (year - 1)) % 400 ≠ 0) =
        ((year - 1) % 100 = 0 ∧ (year - 1) % 400 ≠ 0) := by
      unfold MINYEAR
      apply propext
      omega
    simp only [daysyear, four, same]

theorem daysBefore_le {m n : Nat} (less : m ≤ n) (year : Int) : daysBefore year m ≤ daysBefore year n := by
  induction less with
  | refl => exact Int.le_refl _
  | @step n _ ih =>
    have length := (daysmon_bounds year n).1
    rw [Nat.succ_eq_add_one, daysBefore_succ]
    omega

namespace Tm.Date
variable (valid : tm.Date)
include valid

theorem date_eq : tm.date = dayNumber (MINYEAR + tm.tm_year) 0 1 + tm.tm_yday := by
  have month := valid.mon
  have none : tm.tm_mon / 12 = 0 := by omega
  have rest : tm.tm_mon % 12 = tm.tm_mon := by omega
  have start : daysBefore (MINYEAR + tm.tm_year) 0 = 0 := rfl
  have yday := valid.yday
  simp only [Tm.date, none, rest, Int.add_zero, dayNumber, start]
  omega

/-- The last month, by the day of the month or by that of the year. -/
theorem december : 0 ≤ tm.tm_yday ∧ tm.tm_yday < daysyear (MINYEAR + tm.tm_year) ∧ (357 < tm.tm_yday → tm.tm_mon = 11) ∧
    (tm.tm_mon = 11 → tm.tm_mday = tm.tm_yday - daysyear (MINYEAR + tm.tm_year) + 32) := by
  obtain ⟨least, most⟩ := valid.mon
  obtain ⟨one, last⟩ := valid.mday
  have yday := valid.yday
  generalize MINYEAR + tm.tm_year = year at *
  have before := daysBefore_le (Nat.zero_le tm.tm_mon.toNat) year
  have start : daysBefore year 0 = 0 := rfl
  have next := daysBefore_succ year tm.tm_mon.toNat
  have year' := daysBefore_year year
  have whole : daysBefore year 12 = daysBefore year 11 + 31 := rfl
  have length := daysyear_cases year
  have after := daysBefore_le (show tm.tm_mon.toNat + 1 ≤ 12 by omega) year
  refine ⟨by omega, by omega, fun late => ?_, fun last => ?_⟩
  · apply Int.le_antisymm (by omega)
    apply Int.not_lt.mp
    intro early
    have after := daysBefore_le (show tm.tm_mon.toNat + 1 ≤ 11 by omega) year
    omega
  · have month : tm.tm_mon.toNat = 11 := by omega
    rw [month] at yday
    omega

end Tm.Date

theorem newYear_next (year : Int) :
    dayNumber (MINYEAR + (year + 1)) 0 1 = dayNumber (MINYEAR + year) 0 1 + daysyear (MINYEAR + year) := by
  have start : ∀ year, daysBefore year 0 = 0 := fun _ => rfl
  have years := daysTo_succ (MINYEAR + year)
  rw [← Int.add_assoc]
  simp only [dayNumber, start]
  omega

/-- The week of a day, by the days from the first of January of a year on. -/
theorem isoWeek_iff {since : Int} (number : day = dayNumber (MINYEAR + year) 0 1 + since) :
    IsoWeek day (MINYEAR + year) week ↔ first 4 year - 3 ≤ since ∧
      since < daysyear (MINYEAR + year) + (first 4 (year + 1) - 3) ∧ week = (since - (first 4 year - 3)) / 7 + 1 := by
  have thursday := (first_thursday year).1
  have next := (first_thursday (year + 1)).1
  rw [newYear_next, ← Int.add_assoc] at next
  constructor
  · rintro ⟨one, two, firsts, seconds, low, high, rfl⟩
    have same := firsts.unique thursday
    have same' := seconds.unique next
    refine ⟨by omega, by omega, ?_⟩
    congr 2
    omega
  · rintro ⟨low, high, rfl⟩
    refine ⟨_, _, thursday, next, by omega, by omega, ?_⟩
    congr 2
    omega

theorem shortYear_eq (shown : 0 ≤ tm.isoyear) : tm.shortYear = some ((tm.isoyear + 1900) % 100) := by
  unfold Tm.shortYear
  rw [if_neg (by omega)]
  exact congrArg some (by omega)

theorem shortYear_none (hidden : tm.isoyear < 0) : tm.shortYear = none := if_pos hidden

/-- With the week right, the short year is shown for the years from 1900 on. -/
theorem isoDate_iff (week : IsoWeek tm.date (MINYEAR + tm.isoyear) tm.isoweek) : IsoDate tm ↔ 0 ≤ tm.isoyear := by
  rw [Int.add_comm] at week
  refine ⟨fun iso => ?_, fun shown => ⟨week, shortYear_eq shown⟩⟩
  apply Int.not_lt.mp
  intro hidden
  have shown := iso.2
  rw [shortYear_none hidden] at shown
  cases shown

/-- The first of January of 1900 is a Monday. -/
theorem first_1900 : first 4 0 = 3 := rfl

namespace Tm.Date
variable (valid : tm.Date)
include valid

/-- The days before the first week are in the last week of the year before. -/
theorem early (small : tm.tm_yday < first 4 tm.tm_year - 3) : IsoDate tm ↔ 0 ≤ tm.tm_year ∧ ¬tm.LastSunday := by
  obtain ⟨least, -, -, last⟩ := valid.december
  have length := daysyear_cases (MINYEAR + tm.tm_year)
  have length' := daysyear_cases (MINYEAR + (tm.tm_year - 1))
  obtain ⟨-, low, high⟩ := first_thursday tm.tm_year
  obtain ⟨-, low', high'⟩ := first_thursday (tm.tm_year - 1)
  have same := (centuries tm.tm_year).resolve_right (by omega)
  have isoyear : tm.isoyear = tm.tm_year - 1 := by
    unfold Tm.isoyear
    rw [if_pos (by omega), if_pos small]
  have earlier : tm.tm_year - 1 < tm.tm_year := by omega
  have since : tm.date = dayNumber (MINYEAR + (tm.tm_year - 1)) 0 1 + (daysyear (tm.tm_year - 1) + tm.tm_yday) := by
    have next := newYear_next (tm.tm_year - 1)
    rw [Int.sub_add_cancel] at next
    rw [valid.date_eq]
    omega
  have week : IsoWeek tm.date (MINYEAR + tm.isoyear) tm.isoweek := by
    rw [isoyear, isoWeek_iff since, Int.sub_add_cancel]
    refine ⟨by omega, by omega, ?_⟩
    unfold Tm.isoweek
    dsimp only
    rw [isoyear, if_neg (by omega), if_pos earlier, Int.tdiv_eq_ediv_of_nonneg (by omega)]
  rw [isoDate_iff week, isoyear]
  constructor
  · intro shown
    exact ⟨by omega, fun sunday => by have := last sunday.1; have := sunday.2.1; omega⟩
  · rintro ⟨shown, -⟩
    have later : tm.tm_year ≠ 0 := by
      intro zero
      rw [zero, first_1900] at small
      omega
    omega

/-- The last days of December. The test is met a day early, on a Sunday. -/
theorem late (big : tm.tm_yday > 357) (test : tm.tm_mday ≥ 31 + (first 4 (tm.tm_year + 1) - 3)) :
    IsoDate tm ↔ 0 ≤ tm.tm_year ∧ ¬tm.LastSunday := by
  obtain ⟨-, most, month, last⟩ := valid.december
  have mday := last (month big)
  have length := daysyear_cases (MINYEAR + (tm.tm_year + 1))
  obtain ⟨thursday, low, high⟩ := first_thursday (tm.tm_year + 1)
  obtain ⟨-, low', high'⟩ := first_thursday (tm.tm_year + 1 + 1)
  have isoyear : tm.isoyear = tm.tm_year + 1 := by
    unfold Tm.isoyear
    rw [if_neg (by omega), if_pos big, if_pos test]
  have next := newYear_next tm.tm_year
  have since : tm.date = dayNumber (MINYEAR + (tm.tm_year + 1)) 0 1 + (tm.tm_mday - 32) := by
    rw [valid.date_eq]
    omega
  have isoweek : tm.isoweek = 1 := by
    have later : tm.tm_year + 1 > tm.tm_year := by omega
    have small : tm.tm_mday - 31 = 0 ∨ tm.tm_mday - 31 = -1 ∨ tm.tm_mday - 31 = -2 ∨ tm.tm_mday - 31 = -3 := by omega
    unfold Tm.isoweek
    dsimp only
    rw [isoyear, if_pos later, Int.add_sub_cancel]
    rcases small with same | same | same | same <;> rw [same] <;> rfl
  have weekday := valid.wday
  unfold FirstThursday at thursday
  by_cases sunday : tm.tm_mday = 31 + (first 4 (tm.tm_year + 1) - 3)
  · refine ⟨fun iso => ?_, fun shown => absurd ⟨month big, by omega, by omega⟩ shown.2⟩
    have week := iso.1
    rw [isoyear, Int.add_comm _ 1900] at week
    have inside := ((isoWeek_iff since).mp week).1
    omega
  · have week : IsoWeek tm.date (MINYEAR + tm.isoyear) tm.isoweek := by
      rw [isoyear, isoWeek_iff since, isoweek]
      exact ⟨by omega, by omega, by omega⟩
    rw [isoDate_iff week, isoyear]
    constructor
    · intro shown
      have later : tm.tm_year ≠ -1 := by
        intro zero
        have monday : first 4 (tm.tm_year + 1) = 3 := by
          rw [zero]
          exact first_1900
        omega
      exact ⟨by omega, fun sunday => by have := sunday.2.2; omega⟩
    · intro shown
      omega

/-- All other days are in a week of their own year. -/
theorem middle (low : first 4 tm.tm_year - 3 ≤ tm.tm_yday)
    (test : tm.tm_yday > 357 → tm.tm_mday < 31 + (first 4 (tm.tm_year + 1) - 3)) :
    IsoDate tm ↔ 0 ≤ tm.tm_year ∧ ¬tm.LastSunday := by
  obtain ⟨-, most, month, last⟩ := valid.december
  have length := daysyear_cases (MINYEAR + tm.tm_year)
  obtain ⟨-, least, high⟩ := first_thursday tm.tm_year
  obtain ⟨thursday, least', high'⟩ := first_thursday (tm.tm_year + 1)
  have isoyear : tm.isoyear = tm.tm_year := by
    unfold Tm.isoyear
    rw [if_neg (by omega : ¬tm.tm_yday < first 4 tm.tm_year - 3)]
    split
    · rfl
    split
    · rename_i big
      exact if_neg (by have := test big; omega)
    · rfl
  have next := newYear_next tm.tm_year
  have week : IsoWeek tm.date (MINYEAR + tm.isoyear) tm.isoweek := by
    rw [isoyear, isoWeek_iff valid.date_eq]
    refine ⟨low, ?_, ?_⟩
    · by_cases big : tm.tm_yday > 357
      · have := test big
        have := last (month big)
        omega
      · omega
    · unfold Tm.isoweek
      dsimp only
      rw [isoyear, if_neg (Int.lt_irrefl _), if_neg (Int.lt_irrefl _), Int.tdiv_eq_ediv_of_nonneg (by omega)]
  have other : ¬tm.LastSunday := by
    rintro ⟨december, late, sunday⟩
    have mday := last december
    have small := test (by omega)
    have weekday := valid.wday
    rw [valid.date_eq] at weekday
    unfold FirstThursday at thursday
    omega
  rw [isoDate_iff week, isoyear]
  exact (and_iff_left other).symm

end Tm.Date

/-- The week date is that of ISO 8601, with a short year, exactly for the dates from 1900 on but for the last Sundays of a
December. -/
theorem isoDate_exact (tm : Tm) (valid : tm.Date) : IsoDate tm ↔ 0 ≤ tm.tm_year ∧ ¬tm.LastSunday := by
  by_cases small : tm.tm_yday < first 4 tm.tm_year - 3
  · exact valid.early small
  by_cases late : tm.tm_yday > 357 ∧ tm.tm_mday ≥ 31 + (first 4 (tm.tm_year + 1) - 3)
  · exact valid.late late.1 late.2
  · exact valid.middle (by omega) (by omega)

/-- The first of January of 2027 is in the week 53 of 2026. -/
theorem isoDate_2027 : IsoDate ⟨0, 0, 0, 1, 0, 127, 5, 0, 0⟩ :=
  (isoDate_exact ⟨0, 0, 0, 1, 0, 127, 5, 0, 0⟩ ⟨by decide, by decide, by decide, by decide, by decide, by decide⟩).mpr
    ⟨by decide, fun sunday => absurd sunday.1 (by decide)⟩

/-- The 29th of December of 2024 is a Sunday. -/
theorem sunday_moved : ¬IsoDate ⟨0, 0, 0, 29, 11, 124, 0, 363, 0⟩ := by
  intro iso
  have week : IsoWeek (Tm.date ⟨0, 0, 0, 29, 11, 124, 0, 363, 0⟩) (MINYEAR + 125) 1 := iso.1
  have since : Tm.date ⟨0, 0, 0, 29, 11, 124, 0, 363, 0⟩ = dayNumber (MINYEAR + 125) 0 1 + -3 := by decide
  exact absurd ((isoWeek_iff since).mp week).1 (by decide)

end Scc.Libc.Time
