import Scc.Libc.Stdlib.Malloc
import Scc.Listing.Partition

set_option linter.all false

/-! `qsort` on the bytes of an array. Pointers are offsets in the array, and an access outside of it gives
`none`. -/
namespace Scc.Libc.Stdlib

/-- `struct qsort` -/
structure Qsort where
  es : Nat
  cmp : List UInt8 → List UInt8 → Int

/-- So many turns of the loop of `swap`. -/
def swapBytes (i j : Nat) : Nat → List UInt8 → Option (List UInt8)
  | 0, mem => some mem
  | n + 1, mem => do
    let c ← mem[i]?
    let d ← mem[j]?
    swapBytes (i + 1) (j + 1) n ((mem.set i d).set j c)

/-- The loop of `swap` runs once before it looks at `n`, which is unsigned. -/
def swap (i j n : Nat) (mem : List UInt8) : Option (List UInt8) :=
  swapBytes i j (if n = 0 then SIZE_MAX + 1 else n) mem

namespace Qsort
variable (qs : Qsort)

/-- What the comparison function reads through a pointer. -/
def element (mem : List UInt8) (p : Nat) : Option (List UInt8) :=
  if p + qs.es ≤ mem.length then some ((mem.drop p).take qs.es) else none

def compare (mem : List UInt8) (p q : Nat) : Option Int := do
  return qs.cmp (← qs.element mem p) (← qs.element mem q)

/-- The loop that moves `pi`. -/
def up (mem : List UInt8) (a pn : Nat) : Nat → Nat → Option Nat
  | 0, _ => none
  | n + 1, pi =>
    if pi + qs.es < pn then do
      let c ← qs.compare mem (pi + qs.es) a
      if c < 0 then up mem a pn n (pi + qs.es) else some (pi + qs.es)
    else some (pi + qs.es)

/-- The loop that moves `pj`. -/
def down (mem : List UInt8) (a : Nat) : Nat → Nat → Option Nat
  | 0, _ => none
  | n + 1, pj =>
    if a < pj - qs.es then do
      let c ← qs.compare mem (pj - qs.es) a
      if 0 < c then down mem a n (pj - qs.es) else some (pj - qs.es)
    else some (pj - qs.es)

/-- The loop over both; it gives `pj`. -/
def part (a pn : Nat) : Nat → Nat → Nat → List UInt8 → Option (Nat × List UInt8)
  | 0, _, _, _ => none
  | n + 1, pi, pj, mem => do
    let pi ← qs.up mem a pn (n + 1) pi
    let pj ← qs.down mem a (n + 1) pj
    if pj < pi then some (pj, mem)
    else do
      let mem ← swap pi pj qs.es mem
      part a pn n pi pj mem

/-- `nj` is not initialized when it is read: `junk` gives what is found there, from the calls that were made
(`true` is the call for the upper part) and `ni`. -/
def xqsort : Nat → (List Bool → Nat → Nat) → Nat → Nat → List UInt8 → Option (List UInt8)
  | 0, _, _, _, _ => none
  | depth + 1, junk, a, n, mem =>
    if n ≤ 1 then some mem
    else do
      let pn := a + n * qs.es
      let mem ← swap a (a + n / 2 * qs.es) qs.es mem
      let (pj, mem) ← qs.part a pn (n + 1) a pn mem
      let mem ← swap a pj qs.es mem
      let ni := (pj - a) / qs.es
      let nj := ((n - junk [] ni - 1 : Int) % (SIZE_MAX + 1)).toNat
      let lower := xqsort depth (fun calls => junk (false :: calls)) a ni
      let upper := xqsort depth (fun calls => junk (true :: calls)) (pj + qs.es) nj
      if ni < nj then do upper (← lower mem) else do lower (← upper mem)

end Qsort

def qsort (depth : Nat) (junk : List Bool → Nat → Nat) (base : List UInt8) (nmemb size : Nat)
    (f : List UInt8 → List UInt8 → Int) : Option (List UInt8) :=
  Qsort.xqsort ⟨size, f⟩ depth junk 0 nmemb base

end Scc.Libc.Stdlib
