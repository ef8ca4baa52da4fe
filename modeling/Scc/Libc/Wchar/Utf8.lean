import Mathlib.Data.List.Basic
import Mathlib.Algebra.Group.Int.Defs
import Mathlib.Algebra.Group.Nat.Defs

set_option linter.all false

/-! `wcrtomb` and `mbrtowc` (wchar/wcrtomb.c, mbrtowc.c and _validutf8.c), with a `wchar_t` of 32 bits
and an `unsigned long` of 64. -/
namespace Scc.Libc.Wchar

structure Range where
  start : Nat
  fin : Nat
  valid : Bool
  nbytes : Nat

def ranges : List Range :=
  [ ⟨0, 0x80, true, 1⟩
  , ⟨0x80, 0x800, true, 2⟩
  , ⟨0x800, 0xD800, true, 3⟩
  , ⟨0xD800, 0xDD00, false, 3⟩
  , ⟨0xDD00, 0x10000, true, 3⟩
  , ⟨0x10000, 0x110000, true, 4⟩
  , ⟨0x11000, 2 ^ 64 - 1, false, 0⟩ ]

def Range.holds (c : Nat) (bp : Range) : Bool := bp.start ≤ c && bp.fin > c

/-- A character as `unsigned long`. -/
def unsignedLong (wc : Int) : Nat := (wc % 2 ^ 64).toNat

/-- The loop goes on as long as the character is in the range. -/
def validutf8 (wc : Int) : Bool × Nat :=
  match ranges.dropWhile (Range.holds (unsignedLong wc)) with
  | [] => (false, 0)
  | bp :: _ => (bp.valid, bp.nbytes)

/-- The loop that fills the bytes behind the first one, the last of them first. -/
def fill : Nat → UInt8 → Nat → List UInt8 → UInt8 × Nat × List UInt8
  | 0, lead, c, s => (lead, c, s)
  | n + 1, lead, c, s =>
    fill n (lead >>> 1 ||| 0x80) (c >>> 6) ((0x80 ||| UInt8.ofNat (c &&& 0x3f)) :: s)

/-- The bytes that are written, or none where -1 is returned with `EILSEQ`. -/
def wcrtomb (wc : Int) : Option (List UInt8) :=
  let (valid, n) := validutf8 wc
  if !valid then none
  else
    let (lead, c, s) := fill (n - 1) 0 (unsignedLong wc) []
    some ((lead ||| UInt8.ofNat c) :: s)

/-- What `mbrtowc` returns, stores and sets, and how many bytes it has looked at. -/
structure Converted where
  ret : Int
  pwc : Option Int
  eilseq : Bool
  looked : Nat

def failed (looked : Nat) : Converted := ⟨-1, none, false, looked⟩

/-- The loop that counts the leading ones of the first byte down from the limit. -/
def leading : Nat → Nat → Nat → Nat × Nat × Nat
  | 0, c, len => (0, c, len)
  | n + 1, c, len => if c &&& 0x80 ≠ 0 then leading n (c <<< 1 % 2 ^ 32) (len + 1) else (n + 1, c, len)

/-- The loop over the bytes behind the first one; none where one of them does not continue. -/
def continued (s : Nat → UInt8) : Nat → Nat → Nat → Option Nat × Nat
  | 0, t, wc => (some wc, t)
  | i + 1, t, wc =>
    if s t &&& 0xC0 ≠ 0x80 then (none, t + 1)
    else continued s i (t + 1) ((wc <<< 6 ||| (s t &&& 0x3F).toNat) % 2 ^ 64)

/-- A value as `wchar_t`. -/
def wchar (wc : Nat) : Int :=
  if wc % 2 ^ 32 < 2 ^ 31 then (wc % 2 ^ 32 : Nat) else (wc % 2 ^ 32 : Nat) - 2 ^ 32

def converted (s : Nat → UInt8) (wc looked : Nat) : Converted :=
  ⟨if s 0 = 0 then 0 else looked, some (wchar wc), false, looked⟩

/-- The test of a value against the range it is in. -/
def checked (s : Nat → UInt8) (len wc looked : Nat) : Converted :=
  let found := validutf8 (wchar wc)
  if !found.1 || len ≠ found.2 then failed looked else converted s wc looked

/-- A character of more than one byte, of which the first one is in `c` behind its leading ones. -/
def multibyte (s : Nat → UInt8) (c len : Nat) : Converted :=
  match continued s (len - 1) 1 ((c &&& 0xFF) >>> len) with
  | (none, looked) => failed looked
  | (some wc, looked) => checked s len wc looked

/-- The bytes are those of the memory from `s` on. -/
def mbrtowc (s : Nat → UInt8) (n : Nat) : Converted :=
  match leading n (s 0).toNat 0 with
  | (n, c, len) =>
    if n = 0 || len = 1 || len = 8 then failed 1
    else if len = 0 then converted s (s 0).toNat 1
    else multibyte s c len

end Scc.Libc.Wchar
