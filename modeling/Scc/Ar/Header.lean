import Scc.Ar.Symdefs
import Scc.Text.Numeral

set_option linter.all false

/-! The members of an archive: how `ar` writes a header for a file and what it reads from one. -/
namespace Scc.Ar

/-- `"!<arch>\n"` -/
def ARMAG : List UInt8 := [33, 60, 97, 114, 99, 104, 62, 10]

/-- "`\n" -/
def ARFMAG : List UInt8 := [96, 10]

def SARMAG : Nat := 8
def SARNAM : Nat := 16

/-- The size of `struct ar_hdr`. -/
def hdrSize : Nat := 60

section
variable (hdr : List UInt8)

def arName : List UInt8 := hdr.take SARNAM
def arDate : List UInt8 := (hdr.drop 16).take 12
def arMode : List UInt8 := (hdr.drop 40).take 8
def arSize : List UInt8 := (hdr.drop 48).take 10
def arFmag : List UInt8 := (hdr.drop 58).take 2

/-- The name ends at a blank, or at a zero byte before it. -/
def getfname : Name := (arName hdr).takeWhile fun c => c ≠ 32 && c ≠ 0

/-- Digits, and after a blank only blanks; `none` is -1. -/
def getnum (base : Nat) (val : Nat) : List UInt8 → Option Nat
  | [] => some val
  | c :: s =>
    if c = 32 then if s.all (· = 32) then some val else none
    else if 48 ≤ c.toNat ∧ c.toNat < 58 ∧ c.toNat - 48 < base then
      getnum base (val * base + (c.toNat - 48)) s
    else none

/-- What `valid` finds in a header. -/
structure Member where
  hdr : List UInt8
  fname : Name
  size : Nat
  mode : Nat
  date : Nat

/-- The bytes that follow the header in the archive. -/
def Member.padded (m : Member) : Nat := m.size + m.size % 2

def valid : Option Member := do
  let size ← getnum 10 0 (arSize hdr)
  let mode ← getnum 8 0 (arMode hdr)
  let date ← getnum 10 0 (arDate hdr)
  if arFmag hdr = ARFMAG then some { hdr, fname := getfname hdr, size, mode, date } else none

end

/-- What `getstat` and the stream of a file give. -/
structure File where
  uid : Nat
  gid : Nat
  mode : Nat
  time : Int
  data : List UInt8

/-- The path after its last slash, the whole path where nothing follows it. -/
def canonical (path : Name) : Name :=
  let name := (path.reverse.takeWhile (· ≠ 47)).reverse
  if name = [] then path else name

/-- A field that is filled with blanks, and longer than its width where it does not fit. -/
def left (width : Nat) (s : List UInt8) : List UInt8 := s ++ List.replicate (width - s.length) 32

def digits (base n : Nat) : List UInt8 := Text.numeral base (fun d => UInt8.ofNat (48 + d)) n

def decimal : Int → List UInt8
  | .ofNat n => digits 10 n
  | .negSucc n => 45 :: digits 10 (n + 1)

/-- A header as `ar` and `ranlib` print it. -/
def printHdr (name : Name) (time : Int) (uid gid mode size : Nat) : List UInt8 :=
  left 16 (name.take 16) ++ left 12 (decimal time) ++ left 6 (digits 10 uid) ++ left 6 (digits 10 gid) ++
    left 8 (digits 8 mode) ++ left 10 (digits 10 size) ++ ARFMAG

/-- What `archive` writes for a file under its path. -/
def File.member (file : File) (pname : Name) : List UInt8 :=
  printHdr (canonical pname) file.time file.uid file.gid file.mode file.data.length ++ file.data ++
    if file.data.length % 2 = 1 then [10] else []

/-- A path that `checkfnames` accepts. -/
def checkfname (pname : Name) : Bool :=
  let l := ((canonical pname).takeWhile (· ≠ 32)).length
  l ≤ 16 && (canonical pname).drop l = []

end Scc.Ar
