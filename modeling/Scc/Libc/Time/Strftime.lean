import Scc.Libc.Time.Gmtime
import Scc.Libc.Time.Isoweek

set_option linter.all false

/-! `strftime` (time/strftime.c) with the places that it writes to. A place of the buffer is given by its index. -/
namespace Scc.Libc.Time.Strftime

abbrev Write := Nat × Char

/-- Characters that are stored one after the other. -/
def put : Nat → List Char → List Write
  | _, [] => []
  | s, c :: cs => (s, c) :: put (s + 1) cs

def days : List String := ["Sunday", "Monday", "Tuesday", "Wednesday", "Thursday", "Friday", "Saturday"]

def months : List String := ["January", "February", "March", "April", "May", "June", "July", "August", "September", "October",
  "November", "December"]

def am_pm : List String := ["AM", "PM"]

def weeknum (tm : Tm) (day : Int) : Int :=
  let fday := first day tm.tm_year
  if tm.tm_yday < fday then 0 else (tm.tm_yday - fday).tdiv 7 + 1

def isoday (tm : Tm) : Int := if tm.tm_wday = 0 then 7 else tm.tm_wday

/-- The string of an index, which is outside of the array where there is none. Its test for a wrong index is never met. -/
def sval (siz : Nat) (strs : List String) (abrev : Bool) (idx max : Int) : Option (List Char) :=
  if siz = 0 then some []
  else if idx < 0 ∧ idx ≥ max then some ['?']
  else if idx < 0 then none
  else strs[idx.toNat]?.map fun str => (if abrev then str.toList.take 3 else str.toList).take siz

def digit (n : Nat) : Char := Char.ofNat (48 + n)

/-- What is stored before some digits, from the last place to the first: digits as long as there are any, then the filling. -/
def before (fill : Char) : Nat → Nat → List Char → List Char
  | 0, _, cs => cs
  | n + 1, val, cs => if val = 0 then before fill n 0 (fill :: cs) else before fill n (val / 10) (digit (val % 10) :: cs)

def dval (siz prec : Nat) (fill : Char) (val : Int) : List Char :=
  if siz = 0 then []
  else
    let prec := min prec siz
    if val < 0 then ['?']
    else match prec with
      | 0 => []
      | n + 1 => before fill n (val.toNat / 10) [digit (val.toNat % 10)]

/-- `timezone`: the pointer is behind the sign when `n` is added to it, so that a place is left out before the minutes. -/
def timezone (s siz : Nat) (off : Int) : List Write × Nat :=
  let sign := if off ≥ 0 then '+' else '-'
  let off := off.natAbs
  let hours := dval (siz - 1) 2 '0' (off / 3600)
  let n := 1 + hours.length
  let minutes := dval (siz - n) 2 '0' (off % 3600 / 60)
  ((s, sign) :: put (s + 1) hours ++ put (s + 1 + n) minutes, n + minutes.length)

/-- What the cases of the switch do. -/
inductive Conversion where
  | name (strs : List String) (abrev : Bool) (idx max : Int)
  | number (width : Nat) (fill : Char) (val : Int)
  | character (val : Char)
  | recursive (tfmt : List Char)
  | timezone
  | zone

/-- The hour that `%I` shows. -/
def twelve (hour : Int) : Int :=
  let val := if hour = 0 then 12 else hour
  if val > 12 then val - 12 else val

/-- The cases of the switch. -/
def conversions (tm : Zoned) : List (Char × Conversion) := [
  ('a', .name days true tm.tm_wday 7),
  ('A', .name days false tm.tm_wday 7),
  ('h', .name months true tm.tm_mon 12),
  ('b', .name months true tm.tm_mon 12),
  ('B', .name months false tm.tm_mon 12),
  ('c', .recursive ['%', 'a', ' ', '%', 'b', ' ', '%', 'e', ' ', '%', 'T', ' ', '%', 'Y']),
  ('C', .number 2 '0' ((tm.tm_year + 1900).tdiv 100)),
  ('d', .number 2 '0' tm.tm_mday),
  ('D', .recursive ['%', 'm', '/', '%', 'd', '/', '%', 'y']),
  ('e', .number 2 ' ' tm.tm_mday),
  ('F', .recursive ['%', 'Y', '-', '%', 'm', '-', '%', 'd']),
  ('g', .number 2 '0' tm.isoyear),
  ('G', .number 4 '0' (tm.isoyear + 1900)),
  ('H', .number 2 '0' tm.tm_hour),
  ('I', .number 2 '0' (twelve tm.tm_hour)),
  ('j', .number 3 '0' (tm.tm_yday + 1)),
  ('m', .number 2 '0' (tm.tm_mon + 1)),
  ('M', .number 2 '0' tm.tm_min),
  ('n', .character '\n'),
  ('p', .name am_pm false (if tm.tm_hour > 12 then 1 else 0) 2),
  ('r', .recursive ['%', 'I', ':', '%', 'M', ':', '%', 'S', ' ', '%', 'p']),
  ('R', .recursive ['%', 'H', ':', '%', 'M']),
  ('S', .number 2 '0' tm.tm_sec),
  ('t', .character '\t'),
  ('u', .number 1 '0' (isoday tm.toTm)),
  ('U', .number 2 '0' (weeknum tm.toTm 0)),
  ('V', .number 2 '0' tm.isoweek),
  ('w', .number 1 '0' tm.tm_wday),
  ('W', .number 2 '0' (weeknum tm.toTm 1)),
  ('X', .recursive ['%', 'H', ':', '%', 'M', ':', '%', 'S']),
  ('T', .recursive ['%', 'H', ':', '%', 'M', ':', '%', 'S']),
  ('x', .recursive ['%', 'm', '/', '%', 'd', '/', '%', 'y']),
  ('y', .number 2 '0' (tm.tm_year.tmod 100)),
  ('Y', .number 4 '0' (1900 + tm.tm_year)),
  ('z', .timezone),
  ('Z', .zone),
  ('%', .character '%')]

/-- The switch. It has no default: another character leaves `inc` as it is. -/
def conversion (tm : Zoned) (ch : Char) : Option Conversion := (conversions tm).lookup ch

inductive Item where
  | ordinary (ch : Char)
  | directive (ch : Char)

/-- The characters that the loop takes from the format up to its NUL, with a modifier passed over. -/
def items : List Char → List Item
  | [] => []
  | [ch] => if ch = '%' then [] else [.ordinary ch]
  | ch :: next :: format =>
    if ch ≠ '%' then .ordinary ch :: items (next :: format)
    else if next = 'E' ∨ next = 'O' then
      match format with
      | [] => []
      | next :: format => .directive next :: items format
    else .directive next :: items format

section
variable (again : Nat → Nat → List Char → Option (List Write × Nat)) (tm : Zoned)

/-- What a conversion stores at a place with `n` bytes left, and the number `inc` that it moves on by. -/
def convert (s n : Nat) : Conversion → Option (List Write × Nat)
  | .name strs abrev idx max => (sval n strs abrev idx max).map fun cs => (put s cs, cs.length)
  | .number width fill val => let cs := dval n width fill val; some (put s cs, cs.length)
  | .character val => some ([(s, val)], 1)
  | .recursive tfmt => again s (n + 1) tfmt
  | .timezone => some (timezone s n tm.tm_gmtoff)
  | .zone => let cs := tm.tm_zone.toList.take n; some (put s cs, cs.length)

/-- One turn of the loop, with what is stored and the number that it moves on by. A character that is no conversion has no
value. -/
def turn (s n : Nat) : Item → Option (List Write × Nat)
  | .ordinary ch => some ([(s, ch)], 1)
  | .directive ch => (conversion tm ch).bind (convert again tm s n)

/-- The loop, with the place where it ends. -/
def loop : List Item → Nat → Nat → Option (List Write × Nat)
  | [], s, _ => some ([], s)
  | item :: items, s, n =>
    if n = 0 then some ([], s)
    else do
      let (ws, inc) ← turn again tm s n item
      let (ws', s) ← loop items (s + inc) (n - inc)
      return (ws ++ ws', s)

end

/-- The formats of conversions have conversions like it, down to `levels` of them. -/
def strftime (tm : Zoned) : Nat → Nat → Nat → List Char → Option (List Write × Nat)
  | 0, _, _, _ => none
  | levels + 1, begin, maxsize, format => do
    let (ws, s) ← loop (strftime tm levels) tm (items format) begin maxsize
    if s - begin = maxsize then return (ws, 0)
    else return (ws ++ [(s, '\x00')], s - begin)

/-! ## What is to be stored -/

section
variable (inner : List Char → List Char) (tm : Zoned)

/-- The characters of a conversion where there is room for them. -/
def Conversion.text : Conversion → List Char
  | .name strs abrev idx _ => (strs[idx.toNat]?.map fun str => if abrev then str.toList.take 3 else str.toList).getD []
  | .number width fill val => dval width width fill val
  | .character val => [val]
  | .recursive tfmt => inner tfmt
  | .timezone => (if tm.tm_gmtoff ≥ 0 then '+' else '-') ::
      dval 2 2 '0' (tm.tm_gmtoff.natAbs / 3600) ++ dval 2 2 '0' (tm.tm_gmtoff.natAbs % 3600 / 60)
  | .zone => tm.tm_zone.toList

def Item.text : Item → List Char
  | .ordinary ch => [ch]
  | .directive ch => ((conversion tm ch).map (·.text inner tm)).getD []

end

/-- The whole result. -/
def result (tm : Zoned) : Nat → List Char → List Char
  | 0, _ => []
  | levels + 1, format => (items format).flatMap (Item.text (result tm levels) tm)

/-- `%c` has conversions that have conversions. -/
def levels : Nat := 3

/-- Only places of the buffer are stored to. If the result fits with its NUL, all its places are, and its length is returned;
otherwise 0 is returned. -/
def Right (tm : Zoned) (maxsize : Nat) (format : List Char) : Prop :=
  ∃ ws r, strftime tm levels 0 maxsize format = some (ws, r) ∧ (∀ w ∈ ws, w.1 < maxsize) ∧
    ((result tm levels format).length < maxsize →
      r = (result tm levels format).length ∧ ∀ i ≤ (result tm levels format).length, ∃ w ∈ ws, w.1 = i) ∧
    (maxsize ≤ (result tm levels format).length → r = 0)

/-- A time whose names are in the tables. -/
structure Valid (tm : Zoned) : Prop where
  year : 1 ≤ MINYEAR + tm.tm_year
  mon : 0 ≤ tm.tm_mon ∧ tm.tm_mon < 12
  wday : 0 ≤ tm.tm_wday ∧ tm.tm_wday < 7

/-- Every conversion is one of the switch. -/
def Known (tm : Zoned) (format : List Char) : Prop := ∀ ch, .directive ch ∈ items format → ∃ c, conversion tm ch = some c

/-- The result of a format within a format is shorter than the bytes left, and no time zone comes where 4 or 5 bytes are. -/
def Conversion.Fits (inner : List Char → List Char) (n : Nat) : Conversion → Prop
  | .recursive tfmt => (inner tfmt).length < n
  | .timezone => n ≠ 4 ∧ n ≠ 5
  | _ => True

def Item.Fits (inner : List Char → List Char) (tm : Zoned) (n : Nat) : Item → Prop
  | .ordinary _ => True
  | .directive ch => ∀ c, conversion tm ch = some c → c.Fits inner n

/-- This holds as long as there are bytes left. -/
def Room (inner : List Char → List Char) (tm : Zoned) : List Item → Nat → Prop
  | [], _ => True
  | item :: items, n => n = 0 ∨ item.Fits inner tm n ∧ Room inner tm items (n - (item.text inner tm).length)

/-- There is a time zone. -/
def Zone (tm : Zoned) (items : List Item) : Prop := ∃ ch, .directive ch ∈ items ∧ conversion tm ch = some .timezone

end Scc.Libc.Time.Strftime
