import Scc.Libmach.Pack

set_option linter.all false

/-! The object files of coff32: `coff32write` and `coff32read`, on machines whose `long` has 64 bits
and with enough memory. The image starts at the beginning of its file. -/
namespace Scc.Libmach

/-- How a call that does not succeed ends: it reports an error, an assertion
fails, or it leaves one of its objects. -/
inductive Stop where
  | failed
  | aborted
  | undefined
  deriving DecidableEq, Repr

structure Filehdr where
  f_magic : UInt16
  f_nscns : UInt16
  f_timdat : Int
  f_symptr : Int
  f_nsyms : Int
  f_opthdr : UInt16
  f_flags : UInt16
  deriving DecidableEq, Repr

structure Aouthdr where
  magic : Int
  vstamp : Int
  tsize : Int
  dsize : Int
  bsize : Int
  entry : Int
  text_start : Int
  data_start : Int
  deriving DecidableEq, Repr

structure Scnhdr where
  s_name : Vector UInt8 8
  s_paddr : Int
  s_vaddr : Int
  s_size : Int
  s_scnptr : Int
  s_relptr : Int
  s_lnnoptr : Int
  s_nrelloc : UInt16
  s_nlnno : UInt16
  s_flags : Int
  deriving DecidableEq, Repr

/-- `n_zeroes` is the whole of `n_name` and `n_offset` lies behind it. -/
structure Syment where
  n_name : Vector UInt8 8
  n_offset : Int
  n_value : Int
  n_scnum : Int16
  n_type : UInt16
  n_sclass : UInt8
  n_numaux : UInt8
  deriving DecidableEq

structure Reloc where
  r_vaddr : Int
  r_symndx : Int
  r_type : UInt16
  deriving DecidableEq, Repr

structure Lineno where
  l_symndx : Int
  l_paddr : Int
  l_lnno : UInt16
  deriving DecidableEq, Repr

/-- Null pointers are `none`. -/
structure Coff32 where
  hdr : Filehdr
  aout : Aouthdr
  scns : List Scnhdr
  ents : Option (List Syment)
  rels : Option (List (Option (List Reloc)))
  lines : Option (List (Option (List Lineno)))
  strtbl : List UInt8
  strsiz : Nat
  deriving DecidableEq

def FILHSZ : Nat := 20
def SCNHSZ : Nat := 40
def SYMESZ : Nat := 18
def RELSZ : Nat := 10
def LINESZ : Nat := 6
/-- `sizeof(AOUTHDR)`, whose longs are aligned. -/
def AOUTSZ : Nat := 56
def LONG_MAX : Int := 2 ^ 63 - 1

/-- Memory as `calloc` returns it. -/
def Reloc.zero : Reloc := ⟨0, 0, 0⟩
def Lineno.zero : Lineno := ⟨0, 0, 0⟩

/-! ## Records as bytes -/

def Filehdr.args (h : Filehdr) : List Arg :=
  [.s h.f_magic.toNat, .s h.f_nscns.toNat, .l h.f_timdat, .l h.f_symptr, .l h.f_nsyms,
    .s h.f_opthdr.toNat, .s h.f_flags.toNat]

def Aouthdr.args (a : Aouthdr) : List Arg :=
  [.s a.magic, .s a.vstamp, .l a.tsize, .l a.dsize, .l a.bsize, .l a.entry, .l a.text_start,
    .l a.data_start]

def Scnhdr.args (s : Scnhdr) : List Arg :=
  [.quote s.s_name.toList, .l s.s_paddr, .l s.s_vaddr, .l s.s_size, .l s.s_scnptr, .l s.s_relptr,
    .l s.s_lnnoptr, .s s.s_nrelloc.toNat, .s s.s_nlnno.toNat, .l s.s_flags]

def Syment.args (e : Syment) : List Arg :=
  [.quote e.n_name.toList, .l e.n_value, .s e.n_scnum.toInt, .s e.n_type.toNat, .c e.n_sclass.toNat,
    .c e.n_numaux.toNat]

def Reloc.args (r : Reloc) : List Arg := [.l r.r_vaddr, .l r.r_symndx, .s r.r_type.toNat]

def Lineno.args (l : Lineno) : List Arg := [.l l.l_symndx, .l l.l_paddr, .s l.l_lnno.toNat]

/-- `pack` into a buffer of `size` bytes, with the assertion that it was filled. -/
def packed (order : Order) (size : Nat) (args : List Arg) : Except Stop (List UInt8) :=
  if (pack order args).length = size then .ok (pack order args) else .error .aborted

/-- The eight bytes of a name field. -/
def nameOf (bytes : List UInt8) : Vector UInt8 8 := Vector.ofFn fun i => bytes.getD i 0

def Filehdr.ofArgs : List Arg → Option Filehdr
  | [.s magic, .s nscns, .l timdat, .l symptr, .l nsyms, .s opthdr, .s flags] =>
    some ⟨.ofInt magic, .ofInt nscns, timdat, symptr, nsyms, .ofInt opthdr, .ofInt flags⟩
  | _ => none

def Aouthdr.ofArgs : List Arg → Option Aouthdr
  | [.s magic, .s vstamp, .l tsize, .l dsize, .l bsize, .l entry, .l text, .l data] =>
    some ⟨magic, vstamp, tsize, dsize, bsize, entry, text, data⟩
  | _ => none

def Scnhdr.ofArgs : List Arg → Option Scnhdr
  | [.quote name, .l paddr, .l vaddr, .l size, .l scnptr, .l relptr, .l lnnoptr, .s nrelloc,
      .s nlnno, .l flags] =>
    some ⟨nameOf name, paddr, vaddr, size, scnptr, relptr, lnnoptr, .ofInt nrelloc, .ofInt nlnno,
      flags⟩
  | _ => none

/-- A name that starts with four zero bytes is read again as `n_zeroes` and
`n_offset`. -/
def Syment.ofArgs (order : Order) : List Arg → Option Syment
  | [.quote name, .l value, .s scnum, .s type, .c sclass, .c numaux] =>
    let long := (name.take 4).all (· == 0)
    let offset := bytesValue (order.arrange ((name.drop 4).take 4))
    some
      { n_name := if long then nameOf [] else nameOf name
        n_offset := if long then offset else 0
        n_value := value, n_scnum := .ofInt scnum, n_type := .ofInt type
        n_sclass := .ofInt sclass, n_numaux := .ofInt numaux }
  | _ => none

def Reloc.ofArgs : List Arg → Option Reloc
  | [.l vaddr, .l symndx, .s type] => some ⟨vaddr, symndx, .ofInt type⟩
  | _ => none

def Lineno.ofArgs : List Arg → Option Lineno
  | [.l symndx, .l paddr, .s lnno] => some ⟨symndx, paddr, .ofInt lnno⟩
  | _ => none

/-- `unpack` of a buffer of `size` bytes, with the assertion that it was used up. -/
def unpacked {R : Type} (order : Order) (size : Nat) (format : List Conv)
    (ofArgs : List Arg → Option R) (buf : List UInt8) : Except Stop R :=
  if (format.map Conv.width).sum = size then
    match ofArgs (unpack order format buf) with
    | some record => .ok record
    | none => .error .undefined
  else .error .aborted

def unpackHdr (order : Order) : List UInt8 → Except Stop Filehdr :=
  unpacked order FILHSZ [.s, .s, .l, .l, .l, .s, .s] Filehdr.ofArgs

def unpackAout (order : Order) : List UInt8 → Except Stop Aouthdr :=
  unpacked order AOUTSZ [.s, .s, .l, .l, .l, .l, .l, .l] Aouthdr.ofArgs

def unpackScn (order : Order) : List UInt8 → Except Stop Scnhdr :=
  unpacked order SCNHSZ [.quote 8, .l, .l, .l, .l, .l, .l, .s, .s, .l] Scnhdr.ofArgs

def unpackEnt (order : Order) : List UInt8 → Except Stop Syment :=
  unpacked order SYMESZ [.quote 8, .l, .s, .s, .c, .c] (Syment.ofArgs order)

def unpackReloc (order : Order) : List UInt8 → Except Stop Reloc :=
  unpacked order RELSZ [.l, .l, .s] Reloc.ofArgs

def unpackLine (order : Order) : List UInt8 → Except Stop Lineno :=
  unpacked order LINESZ [.l, .l, .s] Lineno.ofArgs

end Scc.Libmach
