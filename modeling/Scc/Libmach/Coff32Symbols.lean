import Scc.Libmach.Coff32Proofs

set_option linter.all false

/-! The symbols and sections of an object: `coff32setsym`, `coff32getsym` and `coff32getsec`. -/
namespace Scc.Libmach

/-- What the functions of coff32 use of a `Symbol`. -/
structure Symbol where
  name : List UInt8
  size : UInt64
  value : UInt64
  index : Int
  symSection : Int
  type : Char
  stype : Nat
  deriving DecidableEq

/-- `flags` is `none` where they are never set. -/
structure Section where
  name : Vector UInt8 8
  base : UInt64
  size : UInt64
  flags : Option Nat
  index : Nat
  align : Nat
  type : Char
  deriving DecidableEq

def SYMNMLEN : Nat := 8
def ULONG_MAX : Nat := 2 ^ 64 - 1
def F_LSYMS : UInt16 := 8
def SYMOBJECT : Nat := 1

def N_DEBUG : Int16 := -2
def N_ABS : Int16 := -1
def N_UNDEF : Int16 := 0

def C_EXT : UInt8 := 2
def C_STAT : UInt8 := 3

def STYP_REG : Int := 0
def STYP_DSECT : Int := 1
def STYP_NOLOAD : Int := 2
def STYP_PAD : Int := 8
def STYP_COPY : Int := 0x10
def STYP_TEXT : Int := 0x20
def STYP_DATA : Int := 0x40
def STYP_BSS : Int := 0x80
def STYP_RDATA : Int := 0x100
def STYP_INFO : Int := 0x200
def STYP_OVER : Int := 0x400
def STYP_LIB : Int := 0x800
def TYP_REVERSE_PAD : Int := 0x4000
def STYP_LIT : Int := 0x8020

def SREAD : Nat := 1
def SWRITE : Nat := 2
def SEXEC : Nat := 4
def SLOAD : Nat := 8
def SALLOC : Nat := 16
def SRELOC : Nat := 32

/-! ## Setting a symbol -/

/-- What the memory that a call gets from `realloc` holds. -/
structure NewMemory where
  ent : Nat → Syment
  byte : Nat → UInt8

/-- A call of `coff32setsym`. -/
structure Setsym where
  n : Nat
  sym : Symbol
  mem : NewMemory

/-- The entry, and whether the type of the symbol has one. -/
def defent (ent : Syment) (sym : Symbol) : Syment × Bool :=
  let ent := { ent with n_scnum := .ofInt (sym.symSection + 1) }
  match sym.type with
  | 'N' => ({ ent with n_scnum := N_DEBUG }, true)
  | 'A' => ({ ent with n_sclass := C_EXT, n_scnum := N_ABS }, true)
  | 'a' => ({ ent with n_scnum := N_ABS }, true)
  | 'C' | 'U' => ({ ent with n_scnum := N_UNDEF }, true)
  | 'T' | 'D' | 'B' | 'R' => ({ ent with n_sclass := C_EXT }, true)
  | 't' | 'd' | 'b' | 'r' => ({ ent with n_sclass := C_STAT }, true)
  | _ => (ent, false)

namespace Coff32

/-- The size of the string table is added to itself when a name goes there. -/
def setName (mem : NewMemory) (coff : Coff32) (ent : Syment) (sym : Symbol) :
    Option (Coff32 × Syment) :=
  let siz := sym.name.length
  if siz < SYMNMLEN then some (coff, { ent with n_name := nameOf sym.name })
  else if coff.strsiz > ULONG_MAX - siz - 1 then none
  else
    let siz := siz + (coff.strsiz + 1)
    let kept := (List.range coff.strsiz).map fun i => coff.strtbl.getD i (mem.byte i)
    some
      ({ coff with strtbl := kept ++ sym.name ++ [0], strsiz := coff.strsiz + siz },
        { ent with n_name := nameOf [], n_offset := coff.strsiz })

/-- The table with room for entry `n`. -/
def room (mem : NewMemory) (coff : Coff32) (n : Nat) : Coff32 :=
  if (n : Int) ≥ coff.hdr.f_nsyms then
    { coff with
      hdr := { coff.hdr with f_nsyms := n + 1 }
      ents := some ((List.range (n + 1)).map fun i => (coff.ents.getD []).getD i (mem.ent i)) }
  else coff

def setEnt (coff : Coff32) (n : Nat) (ent : Syment) : Coff32 :=
  { coff with ents := coff.ents.map fun ents => ents.set n ent }

end Coff32

/-- The object after the call, and what the call returns. -/
def coff32setsym (coff : Coff32) (call : Setsym) : Coff32 × Option Symbol :=
  let coff := { coff with hdr := { coff.hdr with f_flags := coff.hdr.f_flags &&& ~~~F_LSYMS } }
  let coff := coff.room call.mem call.n
  match coff.setName call.mem ((coff.ents.getD []).getD call.n (call.mem.ent call.n)) call.sym with
  | none => (coff, none)
  | some (coff, ent) =>
    match defent { ent with n_value := call.sym.value.toInt64.toInt } call.sym with
    | (ent, false) => (coff.setEnt call.n ent, none)
    | (ent, true) => (coff.setEnt call.n { ent with n_numaux := 0 }, some call.sym)

/-- The object after a sequence of calls. -/
def setsyms (coff : Coff32) (calls : List Setsym) : Coff32 :=
  calls.foldl (fun coff call => (coff32setsym coff call).1) coff

/-! ## Getting symbols and sections -/

/-- The types of symbols in sections by the flags of the section. -/
def symbolTypes : List (Int × Char) :=
  [(STYP_TEXT, 't'), (STYP_DATA, 'd'), (STYP_BSS, 'b'), (STYP_INFO, 'N'), (STYP_LIT, 'r')]

/-- The types and flags of sections by the flags they have in the file. -/
def sectionTypes : List (Int × Char × Option Nat) :=
  [(STYP_REG, 'D', some (SALLOC ||| SRELOC ||| SLOAD ||| SWRITE ||| SREAD)),
    (STYP_DSECT, '?', some SRELOC),
    (STYP_NOLOAD, 'D', some (SALLOC ||| SREAD ||| SWRITE)),
    (TYP_REVERSE_PAD, '?', some SLOAD),
    (STYP_PAD, '?', some SLOAD),
    (STYP_COPY, '?', none),
    (STYP_TEXT, 'T', some (SALLOC ||| SRELOC ||| SLOAD ||| SEXEC ||| SREAD)),
    (STYP_DATA, 'D', some (SALLOC ||| SRELOC ||| SLOAD ||| SWRITE ||| SREAD)),
    (STYP_BSS, 'B', some (SALLOC ||| SREAD ||| SWRITE)),
    (STYP_TEXT + STYP_DATA, 'D', some (SEXEC ||| SALLOC ||| SRELOC ||| SLOAD ||| SREAD)),
    (STYP_LIT, 'D', some (SALLOC ||| SRELOC ||| SLOAD ||| SREAD)),
    (STYP_RDATA, 'D', some (SALLOC ||| SRELOC ||| SLOAD ||| SREAD)),
    (STYP_LIB, 'N', some 0),
    (STYP_INFO, 'N', some 0),
    (STYP_OVER, '?', some SRELOC)]

namespace Coff32

/-- The section of a positive number is the one before it, also of other numbers. -/
def typeof (coff : Coff32) (ent : Syment) : Except Stop Char := do
  let c ←
    if ent.n_scnum = N_DEBUG then .ok 'N'
    else if ent.n_scnum = N_ABS then .ok 'a'
    else if ent.n_scnum = N_UNDEF then .ok (if ent.n_value ≠ 0 then 'C' else 'U')
    else if ent.n_scnum < 0 then .error .undefined
    else
      match coff.scns[ent.n_scnum.toNatClampNeg - 1]? with
      | none => .error .undefined
      | some scn => .ok ((symbolTypes.lookup scn.s_flags).getD '?')
  return if ent.n_sclass = C_EXT then c.toUpper else c

/-- The name as a string. -/
def symname (coff : Coff32) (ent : Syment) : Except Stop (List UInt8) :=
  if ent.zeroes then stringAt coff.strtbl ent.n_offset
  else .ok (ent.n_name.toList.takeWhile (· ≠ 0))

end Coff32

/-- The index that is left and the symbol. -/
def coff32getsym (coff : Coff32) (n : Nat) (sym : Symbol) : Except Stop (Option (Int × Symbol)) :=
  if coff.hdr.f_flags &&& F_LSYMS ≠ 0 ∨ (n : Int) ≥ coff.hdr.f_nsyms then .ok none
  else
    match (coff.ents.getD [])[n]? with
    | none => .error .undefined
    | some ent => do
      let name ← coff.symname ent
      let type ← coff.typeof ent
      let value := UInt64.ofInt ent.n_value
      return some (n + ent.n_numaux.toInt8.toInt,
        { sym with
          name, type, value, stype := SYMOBJECT, size := if type = 'C' then value else 0, index := n })

def coff32getsec (coff : Coff32) (n : Nat) : Except Stop (Option Section) :=
  if n ≥ coff.nscns then .ok none
  else
    match coff.scns[n]? with
    | none => .error .undefined
    | some scn =>
      let (type, flags) := (sectionTypes.lookup scn.s_flags).getD ('?', some 0)
      .ok (some
        { name := scn.s_name, index := n, size := .ofInt scn.s_size, base := .ofInt scn.s_vaddr, type
          flags, align := 16 })

end Scc.Libmach
