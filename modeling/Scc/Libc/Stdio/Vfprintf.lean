import Scc.Libc.Ctype
import Scc.Libc.Wchar.Utf8
import Scc.Transition.Runs
import Mathlib.Data.Int.Init

set_option linter.all false

/-! `vfprintf` (stdio/vfprintf.c), which writes characters that are not refused. It is a machine: the loop over the
format, and the switch that `goto flags` goes back to. Signed arithmetic of 32 bits wraps. -/
namespace Scc.Libc.Stdio.Printf
open Transition Wchar

def MAXPREC : Nat := 50

/-! The bits of `flags`. -/

def LONG : Nat := 1
def LLONG : Nat := 2
def SHORT : Nat := 4
def CHAR : Nat := 8
def SIZET : Nat := 16
def PTRDIFF : Nat := 32
def INTMAX : Nat := 64
def VOIDPTR : Nat := 128
def UNSIGNED : Nat := 256
def ALTFORM : Nat := 512

def has (flags bit : Nat) : Bool := flags &&& bit ≠ 0

/-- What is passed for the directives: a word, the characters of a string before its NUL, or a pointer to a count. -/
inductive Arg where
  | word (w : BitVec 64)
  | string (s : List Int)
  | wide (ws : List Int)
  | count

/-- A value as an `int`. -/
def int (v : Int) : Int := v.bmod (2 ^ 32)

/-- An integer type that the count is converted to: the number of its values, and the first one that is too large. -/
structure Counter where
  modulus : Nat
  limit : Nat

def Counter.signed (bits : Nat) : Counter := ⟨2 ^ bits, 2 ^ (bits - 1)⟩

def Counter.value (c : Counter) (cnt : Nat) : Int :=
  if cnt % c.modulus < c.limit then (cnt % c.modulus : Nat) else (cnt % c.modulus : Nat) - c.modulus

/-- What is put, and what `%n` stores. -/
inductive Output where
  | put (ch : Int)
  | store (value : Int)
  deriving DecidableEq

inductive Result where
  /-- The count is returned, as an `int`. -/
  | returned (value : Int)
  /-- There is no such wide character. -/
  | failed
  /-- A store outside of the buffer, or an argument of another type. -/
  | undefined

structure Conv where
  sign : Int
  prec : Nat
  digs : List Int
  base : Nat

/-- "0123456789ABCDEFX" -/
def upperDigs : List Int := [48, 49, 50, 51, 52, 53, 54, 55, 56, 57, 65, 66, 67, 68, 69, 70, 88]

/-- "0123456789abcdefx" -/
def lowerDigs : List Int := [48, 49, 50, 51, 52, 53, 54, 55, 56, 57, 97, 98, 99, 100, 101, 102, 120]

/-- The value of `getnum` and whether it sets the sign. `va_arg` of an `int` takes the low half of the word. -/
def getnum (w : BitVec 64) (flags : Nat) : Nat × Bool :=
  let low := (w.setWidth 32).toInt
  let (val, uval) :=
    if has flags CHAR then (low, (low % 2 ^ 8).toNat)
    else if has flags SHORT then (low, (low % 2 ^ 16).toNat)
    else if has flags LONG then (w.toInt, w.toNat)
    else if has flags LLONG then (w.toInt, w.toNat)
    else if has flags SIZET then (0, w.toNat)
    else if has flags INTMAX then (w.toInt, w.toNat)
    else if has flags VOIDPTR then (0, w.toNat)
    else (low, (low % 2 ^ 32).toNat)
  if !has flags UNSIGNED ∧ val < 0 then ((-val).toNat, true) else (uval, false)

/-- `*--buf = c`, where there is room in the buffer: the text so far ends at `&buf[MAXPREC]`. -/
def push (c : Int) (buf : List Int) : Option (List Int) := if buf.length < MAXPREC then some (c :: buf) else none

/-- The digits of the value, at least one. -/
def digits (digs : List Int) (base val : Nat) (buf : List Int) : Option (List Int) :=
  if _more : 2 ≤ base ∧ base ≤ val then do
    let buf ← push (digs.getD (val % base) 0) buf
    digits digs base (val / base) buf
  else push (digs.getD (val % base) 0) buf
termination_by val
decreasing_by exact Nat.div_lt_self (by omega) (by omega)

/-- The loop that fills up with zeros. -/
def zeros : Nat → List Int → Option (List Int)
  | 0, buf => some buf
  | n + 1, buf => do zeros n (← push 48 buf)

/-- What `ALTFORM` puts in front of the number. -/
def altform (val flags : Nat) (conv : Conv) (buf : List Int) : Option (List Int) :=
  if has flags ALTFORM then
    if conv.base = 8 ∧ buf.head? ≠ some 48 then push 48 buf
    else if conv.base = 16 ∧ val ≠ 0 then do push 48 (← push (conv.digs.getD 16 0) buf)
    else some buf
  else some buf

def numtostr (val flags : Nat) (conv : Conv) : Option (List Int) := do
  let buf ← digits conv.digs conv.base val []
  let buf ← zeros (conv.prec - buf.length) buf
  let buf ← altform val flags conv buf
  if conv.sign ≠ 0 then push conv.sign buf else some buf

/-- The precision that the buffer is made for. -/
def Conv.limit (conv : Conv) : Conv := { conv with prec := if conv.prec > MAXPREC then MAXPREC else conv.prec }

/-- The characters that `strout` puts at each side, where there are so many of them: `adjust`, and whether they are on the
left. -/
def padding (len : Nat) (width : Int) : Nat × Nat :=
  let left := width < 0
  let width := if left then int (-width) else width
  let adjust := if (len : Int) < width % 2 ^ 64 then int (width % 2 ^ 64 - len) else 0
  let adjust := if left then int (-adjust) else adjust
  (adjust.toNat, (-adjust).toNat)

/-- How much of the string `strout` puts before it fills up with zeros. -/
def prefixLength (o : Outside) (s : List Int) (fill : Int) : Nat :=
  if fill = 48 then
    if s.headD 0 = 45 ∨ s.headD 0 = 43 then 1
    else if s.headD 0 = 48 ∧ toupper o (s.tail.headD 0) = 88 then 2
    else 0
  else 0

/-- The characters that `strout` puts; `len` is unsigned, and the prefix is taken off it. -/
def strout (o : Outside) (s : List Int) (len : Nat) (width fill : Int) : List Int :=
  let (before, behind) := padding len width
  let n := prefixLength o s fill
  let len := (len + (2 ^ 64 - n)) % 2 ^ 64
  s.take n ++ List.replicate before fill ++ ((s.drop n).take len).takeWhile (· ≠ 0) ++ List.replicate behind 32

/-- The bytes that `wstrout` puts. -/
def wstrout (ws : List Int) (len : Nat) (width fill : Int) : Option (List Int) := do
  let (before, behind) := padding len width
  let wide := List.replicate before fill ++ (ws.take len).takeWhile (· ≠ 0) ++ List.replicate behind 32
  let bytes ← wide.mapM wcrtomb
  return bytes.flatten.map fun b => (b.toNat : Int)

/-- The type of what `savecnt` stores; none of them has more values than the count, a `size_t`. -/
def savecnt (flags : Nat) : Counter :=
  if has flags CHAR then .signed 8
  else if has flags SHORT then .signed 16
  else if has flags LONG then .signed 64
  else if has flags LLONG then .signed 64
  else if has flags SIZET then ⟨2 ^ 64, 2 ^ 64⟩
  else if has flags INTMAX then .signed 64
  else .signed 32

/-- The variables of a directive. -/
structure Directive where
  fill : Int
  prec : Bool
  left : Bool
  flags : Nat
  width : Int
  conv : Conv

/-- `getnum` may set the sign; the precision is the one that the buffer is made for. -/
def Directive.convert (d : Directive) (w : BitVec 64) : Option (List Int) :=
  let (val, negative) := getnum w d.flags
  numtostr val d.flags (if negative then { d.conv with sign := 45 } else d.conv).limit

/-- What they are set to before the flags are read. -/
def Directive.plain : Directive := ⟨32, false, false, 0, 0, ⟨0, 0, upperDigs, 10⟩⟩

inductive Control where
  | text
  | flags (d : Directive)

/-- `fmt` and `args` are what is left of the format and the arguments. -/
structure Machine where
  fmt : List Int
  args : List Arg
  cnt : Nat
  inc : Nat
  control : Control

/-- A loop `for (n = 0; isdigit(ch = *fmt); fmt++)`. -/
def decimal (o : Outside) : List Int → Int → Int × List Int
  | [], n => (n, [])
  | c :: fmt, n => if isdigit o c then decimal o fmt (int (n * 10 + c - 48)) else (n, c :: fmt)

namespace Machine

abbrev Step := Next Machine Output Result

/-- The loop goes on after the conversion, with the characters that it has put. -/
def put (m : Machine) (out : List Int) : Step :=
  .more (out.map .put) { m with cnt := m.cnt + out.length, inc := out.length, control := .text }

/-- The loop goes on without a new `inc`. -/
def skip (m : Machine) (out : List Output) : Step := .more out { m with cnt := m.cnt + m.inc, control := .text }

def goto (m : Machine) (d : Directive) : Step := .more [] { m with control := .flags d }

/-- The label `strout`. -/
def string (o : Outside) (m : Machine) (d : Directive) (s : List Int) (len : Nat) : Step :=
  m.put (strout o s len d.width d.fill)

def wide (m : Machine) (d : Directive) (ws : List Int) (len : Nat) : Step :=
  match wstrout ws len d.width d.fill with
  | none => .done .failed
  | some bytes => m.put bytes

/-- The label `numeric`. -/
def numeric (o : Outside) (m : Machine) (d : Directive) : Step :=
  match m.args with
  | .word w :: args =>
    match d.convert w with
    | none => .done .undefined
    | some s => { m with args := args }.string o d s s.length
  | _ => .done .undefined

/-- What is left of a string by a precision. -/
def Directive.cut (d : Directive) (len : Nat) : Nat := if d.prec ∧ len > d.conv.prec then d.conv.prec else len

/-- The case `.`. -/
def precision (o : Outside) (m : Machine) (d : Directive) : Step :=
  let given (n : Int) : Directive := if n ≥ 0 then { d with prec := true, conv := { d.conv with prec := n.toNat } } else d
  match m.fmt with
  | 42 :: fmt =>
    match m.args with
    | .word w :: args => { m with fmt := fmt, args := args }.goto (given (w.setWidth 32).toInt)
    | _ => .done .undefined
  | _ =>
    let (n, fmt) := decimal o m.fmt 0
    { m with fmt := fmt }.goto (given n)

/-- The digits of a width, behind a `-` too. -/
def width (o : Outside) (m : Machine) (d : Directive) : Step :=
  let (n, fmt) := decimal o m.fmt 0
  { m with fmt := fmt }.goto { d with width := if d.left then int (-n) else n }

/-- The conversions that take an argument of no number. -/
def character (o : Outside) (m : Machine) (d : Directive) : Step :=
  match m.args with
  | .word w :: args =>
    if has d.flags LONG then { m with args := args }.wide d [(w.setWidth 32).toInt] 1
    else { m with args := args }.string o d [((w.setWidth 8).toInt)] 1
  | _ => .done .undefined

def text (o : Outside) (m : Machine) (d : Directive) : Step :=
  match m.args with
  | .string s :: args =>
    if has d.flags LONG then .done .undefined
    else { m with args := args }.string o d s (Directive.cut d (s.takeWhile (· ≠ 0)).length)
  | .wide ws :: args =>
    if has d.flags LONG then { m with args := args }.wide d ws (Directive.cut d (ws.takeWhile (· ≠ 0)).length)
    else .done .undefined
  | _ => .done .undefined

/-- The switch on the character behind the label `flags`. -/
def switch (o : Outside) (m : Machine) (d : Directive) : Int → Step
  | 32 => m.goto { d with conv := { d.conv with sign := if d.conv.sign = 0 then 32 else d.conv.sign } }
  | 43 => m.goto { d with conv := { d.conv with sign := 43 } }
  | 35 => m.goto { d with flags := d.flags ||| ALTFORM }
  | 46 => m.precision o d
  | 42 =>
    match m.args with
    | .word w :: args => { m with args := args }.goto { d with width := (w.setWidth 32).toInt }
    | _ => .done .undefined
  | 45 => m.width o { d with left := true }
  | 48 => m.goto { d with fill := 48 }
  | 108 => m.goto { d with flags := d.flags + LONG }
  | 104 => m.goto { d with flags := d.flags + SHORT }
  | 37 => m.string o d [37] 1
  | 99 => m.character o d
  | 106 => m.goto { d with flags := d.flags ||| INTMAX }
  | 116 => m.goto { d with flags := d.flags ||| PTRDIFF }
  | 122 => m.goto { d with flags := d.flags ||| SIZET }
  | 117 => m.numeric o { d with flags := d.flags ||| UNSIGNED, conv := { d.conv with base := 10 } }
  | 105 => m.numeric o { d with conv := { d.conv with base := 10 } }
  | 100 => m.numeric o { d with conv := { d.conv with base := 10 } }
  | 112 => m.numeric o { d with flags := (d.flags ||| (VOIDPTR ||| ALTFORM)) ||| UNSIGNED, conv := { d.conv with digs := lowerDigs, base := 16 } }
  | 120 => m.numeric o { d with flags := d.flags ||| UNSIGNED, conv := { d.conv with digs := lowerDigs, base := 16 } }
  | 88 => m.numeric o { d with flags := d.flags ||| UNSIGNED, conv := { d.conv with base := 16 } }
  | 111 => m.numeric o { d with flags := d.flags ||| UNSIGNED, conv := { d.conv with base := 8 } }
  | 115 => m.text o d
  | 110 =>
    match m.args with
    | .count :: args => { m with args := args }.skip [.store ((savecnt d.flags).value m.cnt)]
    | _ => .done .undefined
  | c => if 49 ≤ c ∧ c ≤ 57 then { m with fmt := c :: m.fmt }.width o d else m.skip []

def step (o : Outside) (m : Machine) : Step :=
  match m.control, m.fmt with
  | .text, [] => .done (.returned (Counter.value (.signed 32) m.cnt))
  | .text, ch :: fmt => if ch ≠ 37 then { m with fmt := fmt }.put [ch] else { m with fmt := fmt }.goto .plain
  | .flags _, [] => .done (.returned (Counter.value (.signed 32) m.cnt))
  | .flags d, c :: fmt => { m with fmt := fmt }.switch o d c

end Machine

/-- `vfprintf` is called; `inc` has the value that it happens to have. -/
def vfprintf (fmt : List Int) (args : List Arg) (inc : Nat) : Machine := ⟨fmt, args, 0, inc, .text⟩

end Scc.Libc.Stdio.Printf
