import Mathlib.Data.Int.Notation

set_option linter.all false

/-! The years and months of the time functions, and the number that a day has. -/
namespace Scc.Libc.Time

def MINYEAR : Int := 1900
def MAXYEAR : Int := 9999
def EPOCH : Int := 1970

/-- `_daysyear`, for a year that is not negative. -/
def daysyear (year : Int) : Int :=
  if year % 4 ≠ 0 then 365
  else if year % 100 = 0 ∧ year % 400 ≠ 0 then 365
  else 366

/-- `_daysmon`, with the entry of February that is set for the year. -/
def daysmon (year : Int) (mon : Nat) : Int :=
  [31, if daysyear year = 366 then 29 else 28, 31, 30, 31, 30, 31, 31, 30, 31, 30, 31].getD mon 31

/-- The loops that add up what there is for each number below a bound. -/
def addUp (f : Nat → Int) : Nat → Int
  | 0 => 0
  | n + 1 => addUp f n + f n

/-- The days of the year before a month. -/
def daysBefore (year : Int) (mon : Nat) : Int := addUp (daysmon year) mon

/-- `_newyear`: the day of the week of the first of January. -/
def newyear (year : Int) : Int :=
  let year := year + 1900 - 1
  (1 + year + year / 4 - year / 100 + year / 400) % 7

/-- The days before the year, counted from the first of January of the year 0. -/
def daysTo (year : Int) : Int := 365 * year + (year - 1) / 4 - (year - 1) / 100 + (year - 1) / 400

/-- The number of a day that is given by its year, its month and any number in it. -/
def dayNumber (year : Int) (mon : Nat) (day : Int) : Int := daysTo year + daysBefore year mon + day

variable {year day : Int} {mon : Nat}

theorem daysyear_cases (year : Int) : daysyear year = 365 ∨ daysyear year = 366 := by
  unfold daysyear
  split
  · exact .inl rfl
  split
  · exact .inl rfl
  · exact .inr rfl

theorem daysmon_bounds (year : Int) (mon : Nat) : 28 ≤ daysmon year mon ∧ daysmon year mon ≤ 31 := by
  have months : ∀ february : Int, 28 ≤ february → february ≤ 31 →
      ∀ days ∈ [31, february, 31, 30, 31, 30, 31, 31, 30, 31, 30, 31], 28 ≤ days ∧ days ≤ 31 := by
    intro february least most days member
    simp only [List.mem_cons, List.not_mem_nil, or_false] at member
    omega
  have february : 28 ≤ (if daysyear year = 366 then 29 else 28 : Int) ∧ (if daysyear year = 366 then 29 else 28 : Int) ≤ 31 := by
    split <;> decide
  unfold daysmon
  generalize (if daysyear year = 366 then 29 else 28 : Int) = days at february ⊢
  rw [List.getD_eq_getElem?_getD]
  cases found : ([31, days, 31, 30, 31, 30, 31, 31, 30, 31, 30, 31] : List Int)[mon]? with
  | none => decide
  | some days => exact months _ february.1 february.2 days (List.mem_of_getElem? found)

theorem daysTo_succ (year : Int) : daysTo (year + 1) = daysTo year + daysyear year := by
  unfold daysTo daysyear
  split
  · omega
  split <;> omega

theorem daysBefore_succ (year : Int) (mon : Nat) : daysBefore year (mon + 1) = daysBefore year mon + daysmon year mon := rfl

/-- The months make up the year. -/
theorem daysBefore_year (year : Int) : daysBefore year 12 = daysyear year := by
  unfold daysBefore daysmon
  rcases daysyear_cases year with days | days
  · rw [days]
    rfl
  · rw [days]
    rfl

theorem dayNumber_month (year day : Int) (mon : Nat) : dayNumber year (mon + 1) day = dayNumber year mon (day + daysmon year mon) := by
  unfold dayNumber
  rw [daysBefore_succ]
  omega

theorem dayNumber_year (year day : Int) : dayNumber (year + 1) 0 day = dayNumber year 11 (day + daysmon year 11) := by
  have months : daysBefore year 12 = daysBefore year 11 + daysmon year 11 := daysBefore_succ year 11
  have whole := daysBefore_year year
  have next := daysTo_succ year
  have none : daysBefore (year + 1) 0 = 0 := rfl
  unfold dayNumber
  omega

theorem dayNumber_add (year day more : Int) (mon : Nat) : dayNumber year mon (day + more) = dayNumber year mon day + more :=
  (Int.add_assoc _ _ _).symm

/-- The first of January of 1970 is a Thursday. -/
theorem newyear_weekday (year : Int) : newyear year = (dayNumber (MINYEAR + year) 0 1 - dayNumber EPOCH 0 1 + 4) % 7 := by
  have none : ∀ year, daysBefore year 0 = 0 := fun _ => rfl
  have same : year + 1900 - 1 = 1900 + year - 1 := by omega
  unfold newyear dayNumber MINYEAR EPOCH
  rw [none, none]
  unfold daysTo
  dsimp only
  rw [same]
  omega

end Scc.Libc.Time
