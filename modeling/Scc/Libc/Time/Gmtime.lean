import Scc.Libc.Time.Mktime

set_option linter.all false

/-! `gmtime` (time/gmtime.c) and the way back. The entry of February in `_daysmon` is a variable that `gmtime` sets and
`_systime` reads. -/
namespace Scc.Libc.Time

def THU : Int := 4

def FEBDAYS (year : Int) : Int := if daysyear year = 366 then 29 else 28

/-- A time with the fields that are used internally. -/
structure Zoned extends Tm where
  tm_zone : String
  tm_gmtoff : Int

/-- The loop that takes off the years, with the overflow of its counter. -/
def years (i day : Int) : Except Stop (Int × Int) :=
  if day ≥ daysyear i then
    match int (i + 1) with
    | .ok next => years next (day - daysyear i)
    | .error stop => .error stop
  else .ok (i, day)
termination_by day.toNat
decreasing_by
  have := daysyear_cases i
  omega

/-- The loop that takes off the months of a year. -/
def months (year : Int) (i : Nat) (day : Int) : Nat × Int :=
  if day ≥ daysmon year i then months year (i + 1) (day - daysmon year i) else (i, day)
termination_by day.toNat
decreasing_by
  have := daysmon_bounds year i
  omega

/-- The broken-down time, and the entry of February after the call. -/
def gmtime (tim : Int) : Except Stop (Zoned × Int) :=
  let sec := tim.tmod SECDAY
  let min := sec.tdiv 60
  let day := tim.tdiv SECDAY
  match years EPOCH day with
  | .error stop => .error stop
  | .ok (i, yday) =>
    let (mon, mday) := months i 0 yday
    .ok ({ tm_sec := sec.tmod 60, tm_min := min.tmod 60, tm_hour := min.tdiv 60, tm_mday := mday + 1, tm_mon := mon,
           tm_year := i - 1900, tm_wday := (day + THU).tmod 7, tm_yday := yday, tm_isdst := 0, tm_zone := "GMT", tm_gmtoff := 0 },
      FEBDAYS i)

/-- `_daysmon` with its entry of February. -/
def daysmonAt (february : Int) (mon : Nat) : Int := [31, february, 31, 30, 31, 30, 31, 31, 30, 31, 30, 31].getD mon 31

/-- `_systime`, which takes the entry of February as it is. -/
def systimeAt (february : Int) (tm : Tm) : Int :=
  let year := tm.tm_year + MINYEAR
  let years := addUp (fun i => daysyear (EPOCH + i) * SECDAY) (year - EPOCH).toNat
  let months := addUp (fun i => daysmonAt february i * SECDAY) tm.tm_mon.toNat
  years + months + tm.tm_sec + tm.tm_min * 60 + tm.tm_hour * 3600 + (tm.tm_mday - 1) * SECDAY

theorem systimeAt_systime (tm : Tm) : systimeAt (FEBDAYS (tm.tm_year + MINYEAR)) tm = systime tm := rfl

/-- The date and time of the instant: fields in their ranges that denote it, with the days of the week and of the year. -/
structure Denotes (tm : Zoned) (t : Int) : Prop where
  sec : 0 ≤ tm.tm_sec ∧ tm.tm_sec < 60
  min : 0 ≤ tm.tm_min ∧ tm.tm_min < 60
  hour : 0 ≤ tm.tm_hour ∧ tm.tm_hour < 24
  mon : 0 ≤ tm.tm_mon ∧ tm.tm_mon < 12
  mday : 1 ≤ tm.tm_mday ∧ tm.tm_mday ≤ daysmon (MINYEAR + tm.tm_year) tm.tm_mon.toNat
  instant : tm.instant = t
  yday : tm.tm_yday = tm.date - dayNumber (MINYEAR + tm.tm_year) 0 1
  wday : tm.tm_wday = (tm.date - dayNumber EPOCH 0 1 + THU) % 7
  utc : tm.tm_isdst = 0 ∧ tm.tm_gmtoff = 0

/-- The year of the instant is an `int`. -/
def YearFits (t : Int) : Prop := t < (dayNumber (INT_MAX + 1) 0 1 - dayNumber EPOCH 0 1) * SECDAY

instance (t : Int) : Decidable (YearFits t) := Int.decLt _ _

variable {i day year : Int} {mon : Nat}

theorem years_spec (positive : 0 ≤ day) (early : EPOCH ≤ i) (last : i ≤ INT_MAX) (fits : daysTo i + day < daysTo (INT_MAX + 1)) :
    ∃ y d, years i day = .ok (y, d) ∧ EPOCH ≤ y ∧ 0 ≤ d ∧ d < daysyear y ∧ daysTo y + d = daysTo i + day := by
  have range : INT_MAX = 2147483647 ∧ INT_MIN = -2147483648 ∧ EPOCH = 1970 := ⟨rfl, rfl, rfl⟩
  induction size : day.toNat using Nat.strongRecOn generalizing i day with
  | ind n ih =>
    have length := daysyear_cases i
    have next := daysTo_succ i
    unfold years
    by_cases more : day ≥ daysyear i
    · have before : i ≠ INT_MAX := by
        rintro rfl
        omega
      have inside : int (i + 1) = .ok (i + 1) := int_ok ⟨by omega, by omega⟩
      rw [if_pos more, inside]
      obtain ⟨y, d, found, first, least, most, same⟩ :=
        ih (day - daysyear i).toNat (by omega) (i := i + 1) (by omega) (by omega) (by omega) (by omega) rfl
      exact ⟨y, d, found, first, least, most, by omega⟩
    · rw [if_neg more]
      exact ⟨i, day, rfl, early, positive, by omega, rfl⟩

theorem months_spec (positive : 0 ≤ day) (month : mon ≤ 11) (fits : daysBefore year mon + day < daysyear year) :
    ∃ m d, months year mon day = (m, d) ∧ m ≤ 11 ∧ 0 ≤ d ∧ d < daysmon year m ∧
      daysBefore year m + d = daysBefore year mon + day := by
  induction size : day.toNat using Nat.strongRecOn generalizing mon day with
  | ind n ih =>
    have length := daysmon_bounds year mon
    have next := daysBefore_succ year mon
    unfold months
    by_cases more : day ≥ daysmon year mon
    · have before : mon ≠ 11 := by
        rintro rfl
        have whole : daysBefore year (11 + 1) = daysyear year := daysBefore_year year
        omega
      rw [if_pos more]
      have later : mon + 1 ≤ 11 := by omega
      obtain ⟨m, d, found, last, least, most, same⟩ :=
        ih (day - daysmon year mon).toNat (by omega) (by omega) later (by omega) rfl
      exact ⟨m, d, found, last, least, most, by omega⟩
    · rw [if_neg more]
      exact ⟨mon, day, rfl, month, positive, by omega, rfl⟩

/-! ## The way back -/

theorem addUp_years (n : Nat) :
    addUp (fun i => daysyear (EPOCH + i) * SECDAY) n = (daysTo (EPOCH + n) - daysTo EPOCH) * SECDAY := by
  induction n with
  | zero => simp [addUp]
  | succ n ih =>
    have next := daysTo_succ (EPOCH + n)
    have sum : EPOCH + ((n + 1 : Nat) : Int) = EPOCH + n + 1 := by omega
    unfold addUp
    rw [ih, sum, next]
    simp only [SECDAY]
    omega

theorem addUp_months (year : Int) (n : Nat) :
    addUp (fun i => daysmonAt (FEBDAYS year) i * SECDAY) n = daysBefore year n * SECDAY := by
  induction n with
  | zero => rfl
  | succ n ih =>
    unfold addUp
    rw [ih, daysBefore_succ, Int.add_mul]
    rfl

/-- The way back from fields in their ranges, with the entry of February of their year. -/
theorem systimeAt_instant {tm : Tm} (late : EPOCH ≤ MINYEAR + tm.tm_year) (month : 0 ≤ tm.tm_mon ∧ tm.tm_mon < 12) :
    systimeAt (FEBDAYS (MINYEAR + tm.tm_year)) tm = tm.instant := by
  have swap : tm.tm_year + MINYEAR = MINYEAR + tm.tm_year := Int.add_comm _ _
  have count : EPOCH + ((MINYEAR + tm.tm_year - EPOCH).toNat : Int) = MINYEAR + tm.tm_year := by omega
  have none : tm.tm_mon / 12 = 0 := by omega
  have rest : tm.tm_mon % 12 = tm.tm_mon := by omega
  have start : daysBefore EPOCH 0 = 0 := rfl
  simp only [systimeAt, swap, addUp_years, addUp_months, count, Tm.instant, Tm.date, none, rest, Int.add_zero, dayNumber, start]
  unfold SECDAY
  omega

/-- What `gmtime` stores for a day of the calendar. -/
theorem stored_denotes {t yday mday y : Int} {m : Nat} (month : m ≤ 11)
    (inside : 0 ≤ mday ∧ mday < daysmon y m) (inYear : daysBefore y m + mday = yday)
    (number : daysTo y + yday = daysTo EPOCH + t / SECDAY) :
    Denotes ⟨⟨(t % SECDAY) % 60, (t % SECDAY) / 60 % 60, (t % SECDAY) / 60 / 60, mday + 1, m, y - 1900, (t / SECDAY + THU) % 7,
      yday, 0⟩, "GMT", 0⟩ t := by
  have year : MINYEAR + (y - 1900) = y := by
    unfold MINYEAR
    omega
  have none : (m : Int) / 12 = 0 := by omega
  have rest : ((m : Int) % 12).toNat = m := by omega
  have start : ∀ year, daysBefore year 0 = 0 := fun _ => rfl
  unfold SECDAY at number ⊢
  constructor
  · dsimp only
    omega
  · dsimp only
    omega
  · dsimp only
    omega
  · dsimp only
    omega
  · dsimp only
    rw [year]
    exact ⟨by omega, by have := inside.2; rw [Int.toNat_natCast]; omega⟩
  · simp only [Tm.instant, Tm.date, year, none, rest, Int.add_zero, dayNumber, start]
    omega
  · simp only [Tm.date, year, none, rest, Int.add_zero, dayNumber, start]
    omega
  · simp only [Tm.date, year, none, rest, Int.add_zero, dayNumber, start]
    congr 1
    omega
  · exact ⟨rfl, rfl⟩

theorem Denotes.back {tm : Zoned} {t : Int} (denotes : Denotes tm t) (late : EPOCH ≤ MINYEAR + tm.tm_year) :
    systimeAt (FEBDAYS (MINYEAR + tm.tm_year)) tm.toTm = t :=
  (systimeAt_instant late denotes.mon).trans denotes.instant

/-- The broken-down time of an instant, and the way back with the entry of February that is left. -/
theorem gmtime_denotes {t : Int} (positive : 0 ≤ t) (fits : YearFits t) :
    ∃ tm february, gmtime t = .ok (tm, february) ∧ Denotes tm t ∧ systimeAt february tm.toTm = t := by
  have range : INT_MAX = 2147483647 ∧ EPOCH = 1970 ∧ MINYEAR = 1900 ∧ SECDAY = 86400 := ⟨rfl, rfl, rfl, rfl⟩
  have day : SECDAY = 86400 := rfl
  have start : ∀ year, daysBefore year 0 = 0 := fun _ => rfl
  have days : daysTo EPOCH + t / SECDAY < daysTo (INT_MAX + 1) := by
    simp only [YearFits, dayNumber, start] at fits
    unfold SECDAY at fits ⊢
    omega
  obtain ⟨y, yday, found, late, least, most, number⟩ := years_spec (by rw [day]; omega) (Int.le_refl EPOCH) (by omega) days
  have inside : daysBefore y 0 + yday < daysyear y := by
    rw [start]
    omega
  obtain ⟨m, mday, found', last, least', most', inYear⟩ := months_spec least (Nat.zero_le 11) inside
  have denotes := stored_denotes last ⟨least', most'⟩ (by rw [inYear, start]; omega) number
  have year : MINYEAR + (y - 1900) = y := by omega
  refine ⟨_, FEBDAYS y, ?_, denotes, ?_⟩
  · have second : 0 ≤ t % SECDAY := Int.emod_nonneg t (by decide)
    have minute : 0 ≤ t % SECDAY / 60 := Int.ediv_nonneg second (by decide)
    have thursday : 0 ≤ t / SECDAY + THU := Int.add_nonneg (Int.ediv_nonneg positive (by decide)) (by decide)
    unfold gmtime
    rw [Int.tdiv_eq_ediv_of_nonneg positive, Int.tmod_eq_emod_of_nonneg positive]
    dsimp only
    rw [found]
    dsimp only
    rw [found', Int.tmod_eq_emod_of_nonneg second, Int.tdiv_eq_ediv_of_nonneg second, Int.tmod_eq_emod_of_nonneg minute,
      Int.tdiv_eq_ediv_of_nonneg minute, Int.tmod_eq_emod_of_nonneg thursday]
  · have same : FEBDAYS (MINYEAR + (y - 1900)) = FEBDAYS y := by rw [year]
    rw [← same]
    exact denotes.back (by dsimp only; omega)

/-- The last second of a leap year of a century. -/
theorem gmtime_century : ∃ tm february, gmtime 978307199 = .ok (tm, february) ∧ Denotes tm 978307199 ∧
    systimeAt february tm.toTm = 978307199 :=
  gmtime_denotes (by decide) (by decide)

end Scc.Libc.Time
