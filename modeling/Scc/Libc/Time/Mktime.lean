import Scc.Libc.Time.Calendar

set_option linter.all false

/-! `mktime` (time/mktime.c), in which an `int` that overflows has no value. -/
namespace Scc.Libc.Time

def INT_MAX : Int := 2147483647
def INT_MIN : Int := -2147483648
def SECDAY : Int := 86400

inductive Stop where
  /-- A result of an `int` operation is not an `int`. -/
  | overflow
  /-- `mktime` returns -1. -/
  | failure
  deriving DecidableEq

/-- The result of an `int` operation. -/
def int (v : Int) : Except Stop Int := if INT_MIN ≤ v ∧ v ≤ INT_MAX then .ok v else .error .overflow

structure Tm where
  tm_sec : Int
  tm_min : Int
  tm_hour : Int
  tm_mday : Int
  tm_mon : Int
  tm_year : Int
  tm_wday : Int
  tm_yday : Int
  tm_isdst : Int

/-- The part of `norm` for a value below the range. -/
def borrow (v n max : Int) : Except Stop (Int × Int) :=
  if v < 0 then do
    let d ← int ((← int (-v)) / max + 1)
    let v ← int (v + (← int (d * max)))
    if n > (← int (INT_MAX - d)) then .error .failure
    else return (v, ← int (n - d))
  else return (v, n)

/-- The part of `norm` for a value above the range. -/
def carry (v n max : Int) : Except Stop (Int × Int) :=
  if v ≥ max then do
    let d := v / max
    let v ← int (v - (← int (d * max)))
    if n < (← int (INT_MIN + d)) then .error .failure
    else return (v, ← int (n + d))
  else return (v, n)

def norm (val next max : Int) : Except Stop (Int × Int) := do
  let (v, n) ← borrow val next max
  carry v n max

/-- The loop that goes back to a month in which the day is not before the first. It adds no more than 31 to a number
below 1. -/
def back (mon : Nat) (day year : Int) : Except Stop (Nat × Int × Int) :=
  if day < 1 then
    match mon with
    | 0 => if year = MINYEAR then .error .failure else back 11 (day + daysmon (year - 1) 11) (year - 1)
    | mon + 1 => back mon (day + daysmon year mon) year
  else .ok (mon, day, year)
termination_by (1 - day).toNat
decreasing_by
  · have := (daysmon_bounds (year - 1) 11).1
    omega
  · have := (daysmon_bounds year mon).1
    omega

/-- The loop that goes on to a month that has the day. It subtracts no more than the number. -/
def forward (mon : Nat) (day year : Int) : Except Stop (Nat × Int × Int) :=
  if day > daysmon year mon then
    if mon = 11 then
      if year = MAXYEAR then .error .failure else forward 0 (day - daysmon year mon) (year + 1)
    else forward (mon + 1) (day - daysmon year mon) year
  else .ok (mon, day, year)
termination_by day.toNat
decreasing_by
  · have := (daysmon_bounds year mon).1
    omega
  · have := (daysmon_bounds year mon).1
    omega

/-- The part of `normalize` after the fields have been carried. -/
def calendar (sec min hour mday mon year : Int) : Except Stop Tm :=
  if year < 0 then .error .failure
  else do
    let year ← int (MINYEAR + year)
    if year > MAXYEAR then .error .failure
    else do
      let (mon, day, year) ← back mon.toNat mday year
      let (mon, day, year) ← forward mon day year
      let yday := daysBefore year mon + day - 1
      return ⟨sec, min, hour, day, mon, year - MINYEAR, (newyear (year - MINYEAR) + yday) % 7, yday, 0⟩

def normalize (tm : Tm) : Except Stop Tm := do
  let (sec, min) ← norm tm.tm_sec tm.tm_min 60
  let (min, hour) ← norm min tm.tm_hour 60
  let (hour, mday) ← norm hour tm.tm_mday 24
  let (mon, year) ← norm tm.tm_mon tm.tm_year 12
  calendar sec min hour mday mon year

/-- `_systime`; its products are of at most 366 days. -/
def systime (tm : Tm) : Int :=
  let year := tm.tm_year + MINYEAR
  let years := addUp (fun i => daysyear (EPOCH + i) * SECDAY) (year - EPOCH).toNat
  let months := addUp (fun i => daysmon year i * SECDAY) tm.tm_mon.toNat
  years + months + tm.tm_sec + tm.tm_min * 60 + tm.tm_hour * 3600 + (tm.tm_mday - 1) * SECDAY

/-- What is returned, and the structure after it. -/
def mktime (tm : Tm) : Except Stop (Int × Tm) := do
  let tm ← normalize tm
  return (systime tm, tm)

/-! ## A field and the next one -/

def IsInt (v : Int) : Prop := INT_MIN ≤ v ∧ v ≤ INT_MAX

variable {v n max : Int}

theorem int_ok (inside : IsInt v) : int v = .ok v := if_pos inside

theorem int_overflow (outside : ¬IsInt v) : int v = .error .overflow := if_neg outside

theorem int_cases (v : Int) : int v = .ok v ∨ int v = .error .overflow := by
  by_cases inside : IsInt v
  · exact .inl (int_ok inside)
  · exact .inr (int_overflow inside)

/-- What is added to a value below the range, in units of the next field. -/
def lent (v max : Int) : Int := -v / max + 1

theorem lent_bounds (below : v < 0) (positive : 0 < max) :
    1 ≤ lent v max ∧ lent v max ≤ lent v max * max ∧ -v < lent v max * max := by
  have quotient : 0 ≤ -v / max := Int.ediv_nonneg (by omega) (by omega)
  have least : 1 ≤ lent v max := by
    unfold lent
    omega
  have longer : lent v max * 1 ≤ lent v max * max := Int.mul_le_mul_of_nonneg_left positive (by omega)
  rw [Int.mul_one] at longer
  exact ⟨least, longer, Int.lt_ediv_add_one_mul_self _ positive⟩

theorem borrow_wild (below : v < 0) (wild : INT_MAX < lent v max * max) : borrow v n max = .error .overflow := by
  have product : int (lent v max * max) = .error .overflow := int_overflow fun inside => absurd inside.2 (by omega)
  unfold borrow
  rw [if_pos below]
  rcases int_cases (-v) with opposite | opposite
  · rw [opposite]
    change (int (lent v max) >>= _) = _
    rcases int_cases (lent v max) with sum | sum
    · rw [sum]
      change (int (lent v max * max) >>= _) = _
      rw [product]
      rfl
    · rw [sum]
      rfl
  · rw [opposite]
    rfl

theorem borrow_tame (below : v < 0) (positive : 0 < max) (tame : lent v max * max ≤ INT_MAX) :
    borrow v n max = if n > INT_MAX - lent v max then .error .failure
      else (int (n - lent v max)).map fun n => (v + lent v max * max, n) := by
  obtain ⟨least, longer, more⟩ := lent_bounds below positive
  have range : INT_MAX = 2147483647 ∧ INT_MIN = -2147483648 := ⟨rfl, rfl⟩
  have opposite : int (-v) = .ok (-v) := int_ok ⟨by omega, by omega⟩
  have sum : int (lent v max) = .ok (lent v max) := int_ok ⟨by omega, by omega⟩
  have product : int (lent v max * max) = .ok (lent v max * max) := int_ok ⟨by omega, tame⟩
  have value : int (v + lent v max * max) = .ok (v + lent v max * max) := int_ok ⟨by omega, by omega⟩
  have limit : int (INT_MAX - lent v max) = .ok (INT_MAX - lent v max) := int_ok ⟨by omega, by omega⟩
  unfold borrow
  rw [if_pos below, opposite]
  change (int (lent v max) >>= _) = _
  rw [sum]
  change (int (lent v max * max) >>= _) = _
  rw [product]
  change (int (v + lent v max * max) >>= _) = _
  rw [value]
  change (int (INT_MAX - lent v max) >>= _) = _
  rw [limit]
  change (if n > INT_MAX - lent v max then _ else _) = _
  split
  · rfl
  · rcases int_cases (n - lent v max) with next | next
    · rw [next]
      rfl
    · rw [next]
      rfl

theorem carry_above (inside : IsInt v) (positive : 0 < max) (above : max ≤ v) :
    carry v n max = if n < INT_MIN + v / max then .error .failure else (int (n + v / max)).map fun n => (v % max, n) := by
  have range : INT_MAX = 2147483647 ∧ INT_MIN = -2147483648 := ⟨rfl, rfl⟩
  have most := inside.2
  have quotient : 0 ≤ v / max := Int.ediv_nonneg (by omega) (by omega)
  have small : v / max ≤ v := Int.ediv_le_self _ (by omega)
  have parts : v / max * max ≤ v := Int.ediv_mul_le v (by omega)
  have some : 0 ≤ v / max * max := Int.mul_nonneg quotient (by omega)
  have product : int (v / max * max) = .ok (v / max * max) := int_ok ⟨by omega, by omega⟩
  have value : int (v - v / max * max) = .ok (v % max) := by
    have rest : v - v / max * max = v % max := by
      rw [Int.emod_def, Int.mul_comm]
    rw [← rest]
    exact int_ok ⟨by omega, by omega⟩
  have limit : int (INT_MIN + v / max) = .ok (INT_MIN + v / max) := int_ok ⟨by omega, by omega⟩
  unfold carry
  rw [if_pos above]
  change (int (v / max * max) >>= _) = _
  rw [product]
  change (int (v - v / max * max) >>= _) = _
  rw [value]
  change (int (INT_MIN + v / max) >>= _) = _
  rw [limit]
  change (if n < INT_MIN + v / max then _ else _) = _
  split
  · rfl
  · rcases int_cases (n + v / max) with next | next
    · rw [next]
      rfl
    · rw [next]
      rfl

/-- No step of `norm` leaves the range of an `int`, or it gives up before that step. Its two tests are the wrong way round. -/
def Tame (v n max : Int) : Prop :=
  if v < 0 then lent v max * max ≤ INT_MAX ∧ (INT_MAX - lent v max < n ∨ INT_MIN ≤ n - lent v max)
  else n < INT_MIN + v / max ∨ n + v / max ≤ INT_MAX

/-- `norm` gives up. -/
def Refused (v n max : Int) : Prop :=
  if v < 0 then INT_MAX - lent v max < n ∨ v % max = 0 ∧ n - lent v max = INT_MIN
  else n < INT_MIN + v / max

theorem norm_wild (unit : max = 60 ∨ max = 24 ∨ max = 12) (inside : IsInt v) (next : IsInt n) (wild : ¬Tame v n max) :
    norm v n max = .error .overflow := by
  have positive : 0 < max := by omega
  unfold Tame at wild
  unfold norm
  split at wild
  · rename_i below
    by_cases fits : lent v max * max ≤ INT_MAX
    · have under : ¬INT_MAX - lent v max < n ∧ ¬INT_MIN ≤ n - lent v max := not_or.mp fun either => wild ⟨fits, either⟩
      have refuses : ¬n > INT_MAX - lent v max := under.1
      rw [borrow_tame below positive fits, if_neg refuses, int_overflow fun inside => under.2 inside.1]
      rfl
    · rw [borrow_wild below (Int.lt_of_not_ge fits)]
      rfl
  · rename_i above
    obtain ⟨enough, large⟩ := not_or.mp wild
    have long : max ≤ v := by
      apply Int.le_of_not_gt
      intro short
      rw [Int.ediv_eq_zero_of_lt (by omega) short] at large
      exact large (by rw [Int.add_zero]; exact next.2)
    unfold borrow
    rw [if_neg above]
    change carry v n max = _
    rw [carry_above inside positive long, if_neg enough, int_overflow fun inside => large inside.2]
    rfl

/-- A value below the range, brought into it: a multiple of the unit is one unit too far. -/
theorem lent_parts (unit : max = 60 ∨ max = 24 ∨ max = 12) (v : Int) :
    v % max = 0 ∧ v + lent v max * max = max ∧ v / max = 1 - lent v max ∨
      v % max ≠ 0 ∧ v + lent v max * max < max ∧ v % max = v + lent v max * max ∧ v / max = -lent v max := by
  unfold lent
  rcases unit with rfl | rfl | rfl <;> omega

/-- A value in the range is not carried. -/
theorem carry_below (short : v < max) : carry v n max = .ok (v, n) := if_neg (by omega)

theorem norm_tame (unit : max = 60 ∨ max = 24 ∨ max = 12) (inside : IsInt v) (next : IsInt n) (tame : Tame v n max) :
    Refused v n max ∧ norm v n max = .error .failure ∨
      ¬Refused v n max ∧ norm v n max = .ok (v % max, n + v / max) ∧ IsInt (n + v / max) := by
  have positive : 0 < max := by omega
  have range : INT_MAX = 2147483647 ∧ INT_MIN = -2147483648 := ⟨rfl, rfl⟩
  have largest := next.2
  have smallest := next.1
  unfold Tame at tame
  unfold Refused norm
  split at tame
  · rename_i below
    obtain ⟨fits, room⟩ := tame
    obtain ⟨least, longer, more⟩ := lent_bounds below positive
    rw [if_pos below, borrow_tame below positive fits]
    by_cases refuses : n > INT_MAX - lent v max
    · rw [if_pos refuses]
      exact .inl ⟨.inl refuses, rfl⟩
    have left : IsInt (n - lent v max) := ⟨by omega, by omega⟩
    rw [if_neg refuses, int_ok left]
    change _ ∧ carry (v + lent v max * max) (n - lent v max) max = _ ∨ _ ∧ carry (v + lent v max * max) (n - lent v max) max = _ ∧ _
    rcases lent_parts unit v with ⟨multiple, whole, quotient⟩ | ⟨other, part, rest, quotient⟩
    · have one : max / max = 1 := Int.ediv_self (by omega)
      rw [whole, carry_above ⟨by omega, by omega⟩ positive (Int.le_refl _), one, Int.emod_self]
      by_cases lowest : n - lent v max < INT_MIN + 1
      · rw [if_pos lowest]
        exact .inl ⟨.inr ⟨multiple, by omega⟩, rfl⟩
      · have sum : n + v / max = n - lent v max + 1 := by omega
        have inside : IsInt (n - lent v max + 1) := ⟨by omega, by omega⟩
        rw [if_neg lowest, int_ok inside, multiple, sum]
        exact .inr ⟨by omega, rfl, inside⟩
    · have sum : n + v / max = n - lent v max := by omega
      rw [carry_below part, rest, sum]
      exact .inr ⟨by omega, rfl, left⟩
  · rename_i above
    have whole : borrow v n max = .ok (v, n) := if_neg above
    rw [if_neg above, whole]
    change _ ∧ carry v n max = _ ∨ _ ∧ carry v n max = _ ∧ _
    have quotient : 0 ≤ v / max := Int.ediv_nonneg (by omega) (by omega)
    by_cases short : v < max
    · have none : v / max = 0 := Int.ediv_eq_zero_of_lt (by omega) short
      rw [carry_below short, none, Int.emod_eq_of_lt (by omega) short, Int.add_zero, Int.add_zero]
      exact .inr ⟨by omega, rfl, next⟩
    rw [carry_above inside positive (by omega)]
    by_cases refuses : n < INT_MIN + v / max
    · rw [if_pos refuses]
      exact .inl ⟨refuses, rfl⟩
    · have inside : IsInt (n + v / max) := ⟨by omega, tame.resolve_left refuses⟩
      rw [if_neg refuses, int_ok inside]
      exact .inr ⟨refuses, rfl, inside⟩

/-! ## The day -/

/-- The loop comes to a day after the first in a month of the calendar, which has the same number. -/
structure Brought (year day : Int) (mon : Nat) (later : Nat × Int × Int) : Prop where
  month : later.1 ≤ 11
  first : MINYEAR ≤ later.2.2
  last : later.2.2 ≤ MAXYEAR
  positive : 1 ≤ later.2.1
  same : dayNumber later.2.2 later.1 later.2.1 = dayNumber year mon day

variable {year day : Int} {mon : Nat}

theorem back_brings (month : mon ≤ 11) (first : MINYEAR ≤ year) (last : year ≤ MAXYEAR) :
    back mon day year = .error .failure ∨ ∃ later, back mon day year = .ok later ∧ Brought year day mon later := by
  fun_induction back mon day year with
  | case1 => exact .inl rfl
  | case2 day year below other ih =>
    rcases ih (Nat.le_refl _) (by omega) (by omega) with failure | ⟨later, found, brought⟩
    · exact .inl failure
    · have number : dayNumber year 0 day = dayNumber (year - 1) 11 (day + daysmon (year - 1) 11) := by
        have next := dayNumber_year (year - 1) day
        rwa [Int.sub_add_cancel] at next
      exact .inr ⟨later, found, brought.month, brought.first, brought.last, brought.positive, brought.same.trans number.symm⟩
  | case3 day year below mon ih =>
    rcases ih (by omega) first last with failure | ⟨later, found, brought⟩
    · exact .inl failure
    · have number := dayNumber_month year day mon
      exact .inr ⟨later, found, brought.month, brought.first, brought.last, brought.positive, brought.same.trans number.symm⟩
  | case4 mon day year above => exact .inr ⟨_, rfl, month, first, last, Int.not_lt.mp above, rfl⟩

theorem forward_brings (month : mon ≤ 11) (first : MINYEAR ≤ year) (last : year ≤ MAXYEAR) (positive : 1 ≤ day) :
    forward mon day year = .error .failure ∨
      ∃ later, forward mon day year = .ok later ∧ Brought year day mon later ∧ later.2.1 ≤ daysmon later.2.2 later.1 := by
  fun_induction forward mon day year with
  | case1 => exact .inl rfl
  | case2 day year above other ih =>
    rcases ih (Nat.zero_le _) (by omega) (by omega) (by omega) with failure | ⟨later, found, brought, inside⟩
    · exact .inl failure
    · have number : dayNumber (year + 1) 0 (day - daysmon year 11) = dayNumber year 11 day := by
        rw [dayNumber_year, Int.sub_add_cancel]
      exact .inr ⟨later, found, ⟨brought.month, brought.first, brought.last, brought.positive, brought.same.trans number⟩, inside⟩
  | case3 mon day year above other ih =>
    rcases ih (by omega) first last (by omega) with failure | ⟨later, found, brought, inside⟩
    · exact .inl failure
    · have number : dayNumber year (mon + 1) (day - daysmon year mon) = dayNumber year mon day := by
        rw [dayNumber_month, Int.sub_add_cancel]
      exact .inr ⟨later, found, ⟨brought.month, brought.first, brought.last, brought.positive, brought.same.trans number⟩, inside⟩
  | case4 mon day year inside => exact .inr ⟨_, rfl, ⟨month, first, last, positive, rfl⟩, Int.not_lt.mp inside⟩

/-! ## The whole -/

namespace Tm
variable (tm : Tm)

/-- The number of the day that the fields denote. -/
def date : Int := dayNumber (MINYEAR + tm.tm_year + tm.tm_mon / 12) (tm.tm_mon % 12).toNat tm.tm_mday

/-- The seconds from the epoch to it. -/
def instant : Int := (((tm.date - dayNumber EPOCH 0 1) * 24 + tm.tm_hour) * 60 + tm.tm_min) * 60 + tm.tm_sec

/-- Every field is an `int`. -/
structure Ints : Prop where
  sec : IsInt tm.tm_sec
  min : IsInt tm.tm_min
  hour : IsInt tm.tm_hour
  mday : IsInt tm.tm_mday
  mon : IsInt tm.tm_mon
  year : IsInt tm.tm_year

end Tm

/-- The fields are in their ranges and denote the same instant, with the day of the year and of the week. -/
structure Normal (tm later : Tm) : Prop where
  sec : 0 ≤ later.tm_sec ∧ later.tm_sec < 60
  min : 0 ≤ later.tm_min ∧ later.tm_min < 60
  hour : 0 ≤ later.tm_hour ∧ later.tm_hour < 24
  mon : 0 ≤ later.tm_mon ∧ later.tm_mon < 12
  year : 0 ≤ later.tm_year ∧ MINYEAR + later.tm_year ≤ MAXYEAR
  mday : 1 ≤ later.tm_mday ∧ later.tm_mday ≤ daysmon (MINYEAR + later.tm_year) later.tm_mon.toNat
  instant : later.instant = tm.instant
  yday : later.tm_yday = later.date - dayNumber (MINYEAR + later.tm_year) 0 1
  wday : later.tm_wday = (later.date - dayNumber EPOCH 0 1 + 4) % 7

/-- What is asked of `normalize`: a failure or a normal time, and no overflow. -/
def Good (tm : Tm) : Except Stop Tm → Prop
  | .error .overflow => False
  | .error .failure => True
  | .ok later => Normal tm later

/-- What is asked of `mktime`. -/
def Normalised (tm : Tm) : Prop := Good tm ((mktime tm).map Prod.snd)

/-- The fields from which no `int` operation overflows, as one is carried to the next. -/
def Steady (tm : Tm) : Prop :=
  let min := tm.tm_min + tm.tm_sec / 60
  let hour := tm.tm_hour + min / 60
  Tame tm.tm_sec tm.tm_min 60 ∧ (Refused tm.tm_sec tm.tm_min 60 ∨
    Tame min tm.tm_hour 60 ∧ (Refused min tm.tm_hour 60 ∨
      Tame hour tm.tm_mday 24 ∧ (Refused hour tm.tm_mday 24 ∨
        Tame tm.tm_mon tm.tm_year 12 ∧ (Refused tm.tm_mon tm.tm_year 12 ∨
          tm.tm_year + tm.tm_mon / 12 ≤ INT_MAX - MINYEAR))))

/-- `norm`, and what is done with the two fields if it does not give up. -/
theorem norm_then {tm : Tm} {rest : Int × Int → Except Stop Tm} {steady : Prop} (unit : max = 60 ∨ max = 24 ∨ max = 12)
    (inside : IsInt v) (next : IsInt n) (goes : IsInt (n + v / max) → (Good tm (rest (v % max, n + v / max)) ↔ steady)) :
    Good tm (norm v n max >>= rest) ↔ Tame v n max ∧ (Refused v n max ∨ steady) := by
  by_cases tame : Tame v n max
  · rcases norm_tame unit inside next tame with ⟨refused, failure⟩ | ⟨passed, normal, carried⟩
    · rw [failure]
      exact ⟨fun _ => ⟨tame, .inl refused⟩, fun _ => trivial⟩
    · rw [normal]
      exact (goes carried).trans ⟨fun more => ⟨tame, .inr more⟩, fun all => all.2.resolve_left passed⟩
  · rw [norm_wild unit inside next tame]
    exact ⟨False.elim, fun all => tame all.1⟩

/-- What `calendar` stores for a day of the calendar. -/
theorem stored_normal {tm : Tm} {sec min hour : Int} (secs : 0 ≤ sec ∧ sec < 60) (mins : 0 ≤ min ∧ min < 60)
    (hours : 0 ≤ hour ∧ hour < 24) (month : mon ≤ 11) (first : MINYEAR ≤ year) (last : year ≤ MAXYEAR)
    (inside : 1 ≤ day ∧ day ≤ daysmon year mon)
    (instant : tm.instant = (((dayNumber year mon day - dayNumber EPOCH 0 1) * 24 + hour) * 60 + min) * 60 + sec) :
    Normal tm ⟨sec, min, hour, day, mon, year - MINYEAR,
      (newyear (year - MINYEAR) + (daysBefore year mon + day - 1)) % 7, daysBefore year mon + day - 1, 0⟩ := by
  have back : MINYEAR + (year - MINYEAR) = year := by omega
  have zero : (mon : Int) / 12 = 0 := by omega
  have rest : ((mon : Int) % 12).toNat = mon := by omega
  have date : Tm.date ⟨sec, min, hour, day, mon, year - MINYEAR,
      (newyear (year - MINYEAR) + (daysBefore year mon + day - 1)) % 7, daysBefore year mon + day - 1, 0⟩ = dayNumber year mon day := by
    unfold Tm.date
    dsimp only
    rw [zero, rest, Int.add_zero, back]
  have start : dayNumber year 0 1 = dayNumber year mon day - (daysBefore year mon + day - 1) := by
    have none : daysBefore year 0 = 0 := rfl
    unfold dayNumber
    omega
  constructor
  · exact secs
  · exact mins
  · exact hours
  · dsimp only
    omega
  · dsimp only
    omega
  · dsimp only
    rw [back]
    exact inside
  · unfold Tm.instant at instant ⊢
    rw [date]
    exact instant.symm
  · rw [date]
    dsimp only
    rw [back]
    omega
  · rw [date]
    dsimp only
    rw [newyear_weekday, back]
    omega

theorem calendar_good {tm : Tm} {sec min hour mday month year : Int} (secs : 0 ≤ sec ∧ sec < 60) (mins : 0 ≤ min ∧ min < 60)
    (hours : 0 ≤ hour ∧ hour < 24) (months : 0 ≤ month ∧ month < 12)
    (denote : tm.instant = (((dayNumber (MINYEAR + year) month.toNat mday - dayNumber EPOCH 0 1) * 24 + hour) * 60 + min) * 60 + sec) :
    Good tm (calendar sec min hour mday month year) ↔ year ≤ INT_MAX - MINYEAR := by
  have range : INT_MAX = 2147483647 ∧ INT_MIN = -2147483648 ∧ MINYEAR = 1900 ∧ MAXYEAR = 9999 := ⟨rfl, rfl, rfl, rfl⟩
  unfold calendar
  by_cases early : year < 0
  · rw [if_pos early]
    exact ⟨fun _ => by omega, fun _ => trivial⟩
  rw [if_neg early]
  by_cases large : year ≤ INT_MAX - MINYEAR
  · have sum : int (MINYEAR + year) = .ok (MINYEAR + year) := int_ok ⟨by omega, by omega⟩
    refine ⟨fun _ => large, fun _ => ?_⟩
    rw [sum]
    change Good tm (if MINYEAR + year > MAXYEAR then _ else _)
    split
    · trivial
    have first : MINYEAR ≤ MINYEAR + year := by omega
    have last : MINYEAR + year ≤ MAXYEAR := by omega
    have start : month.toNat ≤ 11 := by omega
    have went : back month.toNat mday (MINYEAR + year) = .error .failure ∨ _ := back_brings start first last
    rcases went with failure | ⟨⟨m, d, y⟩, found, brought⟩
    · rw [failure]
      trivial
    rw [found]
    change Good tm (forward m d y >>= _)
    rcases forward_brings brought.month brought.first brought.last brought.positive with failure | ⟨⟨m', d', y'⟩, found', later, inside'⟩
    · rw [failure]
      trivial
    · rw [found']
      apply stored_normal secs mins hours later.month later.first later.last ⟨later.positive, inside'⟩
      rw [denote, ← brought.same, ← later.same]
  · have sum : int (MINYEAR + year) = .error .overflow := int_overflow fun inside => large (by have := inside.2; omega)
    rw [sum]
    exact ⟨False.elim, fun small => large small⟩

theorem mktime_normalize (tm : Tm) : (mktime tm).map Prod.snd = normalize tm := by
  unfold mktime
  cases normalize tm <;> rfl

/-- `mktime` fails or leaves a normal time of the same instant, exactly where no `int` operation overflows. -/
theorem mktime_iff (tm : Tm) (ints : tm.Ints) : Normalised tm ↔ Steady tm := by
  have sixty : (60 : Int) = 60 ∨ (60 : Int) = 24 ∨ (60 : Int) = 12 := .inl rfl
  have day : (24 : Int) = 60 ∨ (24 : Int) = 24 ∨ (24 : Int) = 12 := .inr (.inl rfl)
  have year : (12 : Int) = 60 ∨ (12 : Int) = 24 ∨ (12 : Int) = 12 := .inr (.inr rfl)
  unfold Normalised
  rw [mktime_normalize]
  unfold normalize Steady
  apply norm_then sixty ints.sec ints.min
  intro min
  apply norm_then sixty min ints.hour
  intro hour
  apply norm_then day hour ints.mday
  intro mday
  apply norm_then year ints.mon ints.year
  intro _
  apply calendar_good
  · omega
  · omega
  · omega
  · omega
  · -- what is carried is worth as much in the next field
    unfold Tm.instant Tm.date
    rw [dayNumber_add, ← Int.add_assoc]
    omega

instance (v : Int) : Decidable (IsInt v) := inferInstanceAs (Decidable (_ ∧ _))

instance (v n max : Int) : Decidable (Tame v n max) := by
  unfold Tame
  infer_instance

instance (v n max : Int) : Decidable (Refused v n max) := by
  unfold Refused
  infer_instance

instance (tm : Tm) : Decidable (Steady tm) := inferInstanceAs (Decidable (_ ∧ _))

/-- The 31st of February of 2026, 25 hours, a minute less and 61 seconds. -/
theorem mktime_february : Normalised ⟨61, -1, 25, 31, 1, 126, 0, 0, 0⟩ :=
  (mktime_iff ⟨61, -1, 25, 31, 1, 126, 0, 0, 0⟩ ⟨by decide, by decide, by decide, by decide, by decide, by decide⟩).mpr (by decide)

/-- A second less than the least number of minutes: the test before the subtraction is the one for an addition. -/
theorem minutes_overflow : ¬Normalised ⟨-1, INT_MIN, 0, 1, 0, 70, 0, 0, 0⟩ := id

end Scc.Libc.Time
