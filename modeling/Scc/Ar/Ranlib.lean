import Scc.Ar.Header
import Scc.Libmach.Coff32Read
import Scc.Libmach.Coff32Symbols

set_option linter.all false

/-! `ranlib` of one archive: its members are scanned for objects, and the index is put in front of it. -/
namespace Scc.Ar
open Libmach

/-- What `objprobe` finds where a file goes on, and the symbols of the object there, none where
`readobj` fails. -/
structure Reader where
  objprobe : List UInt8 → Option Nat
  symbols : Nat → List UInt8 → Option (List Sym)

def NFORMATS : Nat := 2
def FORMAT (type : Nat) : Nat := type % 32
def COFF32 : Nat := 0

/-- The name of the index, which all formats share. -/
def namidx : Name := [47]

/-- The index has one of two names. -/
def isIndex (memb : Name) : Bool := memb = namidx || memb = [95, 95, 46, 83, 89, 77, 68, 69, 70]

def isspace (c : UInt8) : Bool := c = 32 || (9 ≤ c && c ≤ 13)

/-- The value of a digit, 36 for other characters. -/
def digitOf (c : UInt8) : Nat :=
  if 48 ≤ c ∧ c ≤ 57 then c.toNat - 48
  else if 65 ≤ c ∧ c ≤ 90 then c.toNat - 55
  else if 97 ≤ c ∧ c ≤ 122 then c.toNat - 87
  else 36

def digitsValue (base : Nat) (s : List UInt8) : Nat :=
  (s.takeWhile fun c => digitOf c < base).foldl (fun v c => v * base + digitOf c) 0

/-- Blanks and a sign before what `number` reads. -/
def signed (number : List UInt8 → Nat) (s : List UInt8) : Int :=
  match s.dropWhile isspace with
  | 45 :: s => -number s
  | 43 :: s => number s
  | s => number s

/-- `strtol` with base 0 of a string that is too short for an overflow. -/
def strtol : List UInt8 → Int :=
  signed fun s =>
    match s with
    | 48 :: x :: c :: s =>
      if (x = 120 ∨ x = 88) ∧ digitOf c < 16 then digitsValue 16 (c :: s)
      else digitsValue 8 (48 :: x :: c :: s)
    | 48 :: s => digitsValue 8 (48 :: s)
    | s => digitsValue 10 s

def atol : List UInt8 → Int := signed (digitsValue 10)

/-- The name without the blanks and slashes at its end, but for the first character. -/
def armemberName (hdr : List UInt8) : Name :=
  ((arName hdr).take 1 ++
    (((arName hdr).drop 1).reverse.dropWhile fun c => c = 32 || c = 47).reverse).takeWhile (· ≠ 0)

/-- How far the next member is, with the name: 0 at the end of the file and -1 where a member is
corrupted, which an empty one is too. At the end the name is never set. -/
def armember (fp : List UInt8) : Int × Name :=
  if fp.length < hdrSize then (0, [])
  else if arFmag fp ≠ ARFMAG then (-1, [])
  else
    let siz := strtol (arSize fp)
    let siz := siz + siz % 2
    if siz = 0 then (-1, []) else (hdrSize + siz, armemberName fp)

section
variable (reader : Reader) (file : List UInt8)

/-- `newmember` at a position of the file. -/
def readmember (pos : Nat) (ranlib : Ranlib) : Ranlib :=
  match reader.objprobe (file.drop pos) with
  | none => ranlib
  | some t =>
    match reader.symbols t (file.drop pos) with
    | some syms => newmember ranlib ⟨pos, t, syms⟩
    | none =>
      if ∃ other ∈ ranlib.artype, other ≠ t then { ranlib with nolib := true }
      else { ranlib with artype := some t, status := true }

/-- The loop of `readsyms`, and whether it does not return -1. A seek to before the file does not
move. -/
def scan : Nat → Nat → Ranlib → Option (Ranlib × Bool)
  | 0, _, _ => none
  | fuel + 1, cur, ranlib =>
    match (armember (file.drop cur)).1 with
    | -1 => some ({ ranlib with status := true }, true)
    | 0 => some (ranlib, !(ranlib.nolib || ranlib.table.syms.isEmpty))
    | off => scan fuel (if cur + off < 0 then cur else (cur + off).toNat)
      (readmember reader file (cur + hdrSize) ranlib)

/-- The first member is skipped where it is an index, from behind its header. -/
def readsyms (fuel : Nat) : Option (Ranlib × Bool) :=
  if file.take SARMAG ≠ ARMAG then some ({ Ranlib.start with status := true }, true)
  else
    let (off, memb) := armember (file.drop SARMAG)
    if off < 0 then some ({ Ranlib.start with status := true }, true)
    else
      let cur := if isIndex memb then SARMAG + hdrSize + off.toNat else SARMAG
      scan reader file fuel cur .start

end

/-- What `getstat` says of the archive, with the time at which the index is made. -/
structure Fprop where
  uid : Nat
  gid : Nat
  mode : Nat
  time : Int

/-- The symbols in the order of `head`. -/
def Symdefs.indexed (table : Symdefs) : Index :=
  (table.syms.map fun dp => (dp.name, dp.offset)).reverse

/-- The header and the contents of the new index. -/
def indexMember (prop : Fprop) (idx : List UInt8) : List UInt8 :=
  printHdr namidx prop.time prop.uid prop.gid prop.mode idx.length ++ idx ++
    if idx.length % 2 = 1 then [10] else []

/-- `strncmp(first.ar_name, namidx, SARNAM)` is 0. -/
def sameName (hdr : List UInt8) : Bool := (arName hdr).take 2 = namidx ++ [0]

/-- Nothing is written where the archive has no member. -/
def mergeIndex (prop : Fprop) (lib idx : List UInt8) : List UInt8 :=
  if (lib.drop SARMAG).length < hdrSize then []
  else
    let start : Int := SARMAG + hdrSize
    let next := start + atol (arSize (lib.drop SARMAG))
    let rest :=
      if sameName (lib.drop SARMAG) then lib.drop (if next < 0 then start else next).toNat
      else lib.drop SARMAG
    ARMAG ++ indexMember prop idx ++ rest

/-- The archive after `ranlib`, with the symbols of its new index where it has one. It does not
return where it loops for ever, and where it calls the null pointer that other formats have for
`setidx`. -/
def ranlib (reader : Reader) (prop : Fprop) (fuel : Nat) (file : List UInt8) :
    Option (List UInt8 × Option Symdefs) :=
  match readsyms reader file fuel with
  | none => none
  | some (_, false) => some (file, none)
  | some (r, true) =>
    match r.artype with
    | none => some (file, none)
    | some t =>
      if FORMAT t ≥ NFORMATS then some (file, none)
      else if FORMAT t ≠ COFF32 then none
      else some (mergeIndex prop file (coff32xsetidx .BIG_ENDIAN r.table.indexed), some r.table)

/-! ## Objects of coff32 -/

def NBYTES : Nat := 32

def coff32probe (buf : List UInt8) : Option Nat :=
  if buf.take 2 = [0x4c, 0x01] then some 0x20
  else if buf.take 2 = [0x5a, 0x80] then some 0x60
  else none

/-- The symbols from entry `n` on, as long as `getsym` finds some. -/
def coffSyms (coff : Coff32) : Nat → Nat → Option (List Sym)
  | 0, _ => some []
  | fuel + 1, n =>
    match coff32getsym coff n ⟨[], 0, 0, 0, 0, 'U', 0⟩ with
    | .error _ => none
    | .ok none => some []
    | .ok (some (idx, sym)) =>
      (coffSyms coff fuel (idx + 1).toNat).map fun syms => ⟨sym.name, sym.type⟩ :: syms

/-- The reader of little-endian objects, where no other format is known. -/
def coffReader : Reader where
  objprobe file := if file.length < NBYTES then none else coff32probe (file.take NBYTES)
  symbols _ file :=
    match coff32read .LITTLE_ENDIAN file with
    | .error _ => none
    | .ok coff => coffSyms coff coff.hdr.f_nsyms.toNat 0

end Scc.Ar
