import Scc.Libc.Ctype
import Scc.Text.Numeral

set_option linter.all false

/-! `strtol` and `strtoull` (stdlib/strtol.c, strtoull.c and _dtoi.c). A string is its characters before the NUL, and
a pointer in it is what is left of them. -/
namespace Scc.Libc.Stdlib
open Text

def INT_MAX : Int := 2 ^ 31 - 1

def LONG_MAX : Int := 2 ^ 63 - 1

def LONG_MIN : Int := -2 ^ 63

def ULLONG_MAX : Int := 2 ^ 64 - 1

/-- `*s` -/
def char (s : List Int) : Int := s.headD 0

/-- The index of the character in `digits`, whose NUL has one as well. -/
def dtoi (o : Outside) (c : Int) : Int :=
  let u := toupper o c
  if 48 ≤ u ∧ u ≤ 57 then u - 48
  else if 65 ≤ u ∧ u ≤ 90 then u - 55
  else if u = 0 then 36
  else INT_MAX

/-- What is returned, whether `errno` is set to `ERANGE`, and what is stored in `end`. -/
structure Conversion where
  value : Int
  erange : Bool
  end_ : List Int
  deriving DecidableEq

/-- What the functions do before their loop: whether there is a minus, the base, and where the digits start. -/
structure Start where
  minus : Bool
  base : Int
  s : List Int

/-- Behind a sign. -/
def signed (s : List Int) : List Int := if char s = 45 ∨ char s = 43 then s.tail else s

/-- The base, when it is to be found out. -/
def radix (o : Outside) (base : Int) (s : List Int) : Int :=
  if base = 0 then
    if char s = 48 then if toupper o (char s.tail) = 88 then 16 else 8 else 10
  else base

/-- Behind the prefix of the base 16. -/
def unmarked (o : Outside) (base : Int) (s : List Int) : List Int :=
  if base = 16 ∧ char s = 48 ∧ toupper o (char s.tail) = 88 then s.drop 2 else s

def start (o : Outside) (base : Int) (ptr : List Int) : Start :=
  let s := ptr.dropWhile (isspace o)
  let minus := char s = 45
  let s := signed s
  let base := radix o base s
  ⟨minus, base, unmarked o base s⟩

/-- Where the loop stops: there is no digit, or the value overflows. -/
inductive Stopped where
  | done (n : Int) (t : List Int)
  | overflow (t : List Int)

/-- The loop of `strtol`. -/
def strtolLoop (o : Outside) (minus : Bool) (base : Int) : List Int → Int → Stopped
  | [], n => .done n []
  | c :: t, n =>
    let d := dtoi o c
    if d < base then
      if n < LONG_MIN.tdiv base then .overflow (c :: t)
      else if -d < LONG_MIN - n * base then .overflow (c :: t)
      else if n * base - d = LONG_MIN ∧ !minus then .overflow (c :: t)
      else strtolLoop o minus base t (n * base - d)
    else .done n (c :: t)

def strtol (o : Outside) (ptr : List Int) (base : Int) : Conversion :=
  let from_ := start o base ptr
  match strtolLoop o from_.minus from_.base from_.s 0 with
  | .done n t => ⟨if from_.minus then n else -n, false, if t = from_.s then ptr else t⟩
  | .overflow t => ⟨if from_.minus then LONG_MIN else LONG_MAX, true, t⟩

/-- The loop of `strtoull`. -/
def strtoullLoop (o : Outside) (base : Int) : List Int → Int → Stopped
  | [], n => .done n []
  | c :: t, n =>
    let d := dtoi o c
    if d < base then
      if n > ULLONG_MAX / base then .overflow (c :: t)
      else if d > ULLONG_MAX - n * base then .overflow (c :: t)
      else strtoullLoop o base t (n * base + d)
    else .done n (c :: t)

def strtoull (o : Outside) (ptr : List Int) (base : Int) : Conversion :=
  let from_ := start o base ptr
  match strtoullLoop o from_.base from_.s 0 with
  | .done n t => ⟨(if from_.minus then -n else n) % (ULLONG_MAX + 1), false, if t = from_.s then ptr else t⟩
  | .overflow t => ⟨ULLONG_MAX, true, t⟩

/-! What the functions should do. -/

/-- The digits and letters of the numbers, and their values. -/
def digitValue (c : Int) : Option Nat :=
  if 48 ≤ c ∧ c ≤ 57 then some (c - 48).toNat
  else if 65 ≤ c ∧ c ≤ 90 then some (c - 55).toNat
  else if 97 ≤ c ∧ c ≤ 122 then some (c - 87).toNat
  else none

/-- A digit of the base. -/
def IsDigit (base : Nat) (c : Int) : Prop := ∃ d, digitValue c = some d ∧ d < base

def valueOf (c : Int) : Nat := (digitValue c).getD 0

/-- Digits of the base, at least one. -/
def Digits (base : Nat) (ds : List Int) : Prop := ds ≠ [] ∧ ∀ c ∈ ds, IsDigit base c

/-- The expected form, and its value: with the base 0 an integer constant. -/
inductive Form : Nat → List Int → Nat → Prop where
  | digits {base : Nat} {ds : List Int} (given : base ≠ 0) (all : Digits base ds) : Form base ds (readDigits base valueOf ds)
  | hexadecimal {base : Nat} {x : Int} {ds : List Int} (given : base = 0 ∨ base = 16) (mark : x = 88 ∨ x = 120)
      (all : Digits 16 ds) : Form base (48 :: x :: ds) (readDigits 16 valueOf ds)
  | octal {ds : List Int} (first : char ds = 48) (all : Digits 8 ds) : Form 0 ds (readDigits 8 valueOf ds)
  | decimal {ds : List Int} (first : char ds ≠ 48) (all : Digits 10 ds) : Form 0 ds (readDigits 10 valueOf ds)

/-- The longest form at the beginning of the text. -/
structure Longest (base : Nat) (text form rest : List Int) (v : Nat) : Prop where
  split : text = form ++ rest
  derived : Form base form v
  longest : ∀ form' rest' v', text = form' ++ rest' → Form base form' v' → form'.length ≤ form.length

/-- The type of the result: the values that it represents with a sign, what they are, and what is returned instead of
the others. -/
structure Target where
  fits : Bool → Nat → Prop
  value : Bool → Nat → Int
  clamp : Bool → Int

def long : Target where
  fits minus v := v ≤ if minus then 2 ^ 63 else 2 ^ 63 - 1
  value minus v := if minus then -v else v
  clamp minus := if minus then LONG_MIN else LONG_MAX

/-- A value with a minus is negated in the type. -/
def unsignedLongLong : Target where
  fits _ v := v ≤ 2 ^ 64 - 1
  value minus v := if minus then (2 ^ 64 - v : Int) % 2 ^ 64 else v
  clamp _ := ULLONG_MAX

/-- What is behind the blanks. -/
def behind (ptr : List Int) : List Int := ptr.dropWhile fun c => White c

/-- The conversion is the one that is prescribed. -/
inductive Prescribed (target : Target) (base : Nat) (ptr : List Int) : Conversion → Prop where
  | exact {form rest : List Int} {v : Nat} (longest : Longest base (signed (behind ptr)) form rest v)
      (fits : target.fits (char (behind ptr) = 45) v) :
      Prescribed target base ptr ⟨target.value (char (behind ptr) = 45) v, false, rest⟩
  | clamped {form rest : List Int} {v : Nat} (longest : Longest base (signed (behind ptr)) form rest v)
      (above : ¬target.fits (char (behind ptr) = 45) v) :
      Prescribed target base ptr ⟨target.clamp (char (behind ptr) = 45), true, rest⟩
  | none (empty : ∀ form rest v, signed (behind ptr) = form ++ rest → ¬Form base form v) : Prescribed target base ptr ⟨0, false, ptr⟩

/-! The condition. -/

/-- No character outside of the table is taken for white space. -/
def Plain (o : Outside) (ptr : List Int) : Prop := isspace o (char (behind ptr)) = false

/-- There is a prefix of the base 16. -/
def Marked (base : Nat) (ptr : List Int) : Prop :=
  (base = 0 ∨ base = 16) ∧ ∃ x rest, (x = 88 ∨ x = 120) ∧ signed (behind ptr) = 48 :: x :: rest

/-- The digits that the loops run over. -/
def run (o : Outside) (base : Nat) (ptr : List Int) : List Int :=
  (start o base ptr).s.takeWhile fun c => dtoi o c < (start o base ptr).base

/-- There are digits behind white space, and their value is represented; or there are none, and no prefix either. -/
def Convertible (o : Outside) (target : Target) (base : Nat) (ptr : List Int) : Prop :=
  if run o base ptr = [] then ¬(Plain o ptr ∧ Marked base ptr)
  else Plain o ptr ∧ target.fits (start o base ptr).minus (readDigits (start o base ptr).base.toNat valueOf (run o base ptr))

end Scc.Libc.Stdlib
