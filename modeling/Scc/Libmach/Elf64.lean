import Scc.Libmach.Pack

set_option linter.all false

/-! The object files of elf64: `elf64read`, `elf64getsym` and `elf64getsec`, on machines whose `long`
has 64 bits and with enough memory for what is in the file. The object starts with its file. -/
namespace Scc.Libmach.Elf

/-- How a call ends that does not succeed: it reports an error, it divides by zero, or it uses
memory that is not there or was never set. -/
inductive Stop where
  | failed
  | divided
  | undefined
  deriving DecidableEq, Repr

structure Ehdr where
  e_ident : List UInt8
  e_type : Nat
  e_machine : Nat
  e_version : Nat
  e_entry : Nat
  e_phoff : Nat
  e_shoff : Nat
  e_flags : Nat
  e_ehsize : Nat
  e_phentsize : Nat
  e_phnum : Nat
  e_shentsize : Nat
  e_shnum : Nat
  e_shstrndx : Nat
  deriving DecidableEq

structure Phdr where
  p_type : Nat
  p_flags : Nat
  p_offset : Nat
  p_vaddr : Nat
  p_paddr : Nat
  p_filesz : Nat
  p_memsz : Nat
  p_align : Nat
  deriving DecidableEq

structure Shdr where
  sh_name : Nat
  sh_type : Nat
  sh_flags : Nat
  sh_addr : Nat
  sh_offset : Nat
  sh_size : Nat
  sh_link : Nat
  sh_info : Nat
  sh_addralign : Nat
  sh_entsize : Nat
  deriving DecidableEq

structure Ent where
  st_name : Nat
  st_info : Nat
  st_other : Nat
  st_shndx : Nat
  st_value : Nat
  st_size : Nat
  deriving DecidableEq

/-- Null pointers are `none`, and `symtab` is the index of the header it points to. The size of a
string table is its length. -/
structure Elf64 where
  hdr : Ehdr
  phdr : Option (List Phdr)
  shdr : Option (List Shdr)
  symtab : Option Nat
  syms : Option (List Ent)
  secstr : Option (List UInt8)
  symstr : Option (List UInt8)
  nsec : Nat
  nsym : Nat
  deriving DecidableEq

def ELFHSZ : Nat := 64
def ELFPSZ : Nat := 56
def ELFSSZ : Nat := 64
def ELFESZ : Nat := 24
def SIZE_MAX : Nat := 2 ^ 64 - 1

def ET_REL : Nat := 1
def ET_EXEC : Nat := 2
def ET_DYN : Nat := 3

def SHN_UNDEF : Nat := 0
def SHN_ABS : Nat := 0xfff1
def SHN_COMMON : Nat := 0xfff2
def SHN_XINDEX : Nat := 0xffff

def SHT_SYMTAB : Nat := 2
def SHT_NOBITS : Nat := 8

def STB_LOCAL : Nat := 0
def STT_OBJECT : Nat := 1
def STT_FUNC : Nat := 2
def STT_SECTION : Nat := 3
def STT_FILE : Nat := 4
def STT_COMMON : Nat := 5

def Ent.bind (ent : Ent) : Nat := ent.st_info / 16
def Ent.type (ent : Ent) : Nat := ent.st_info % 16

def Shdr.write (shdr : Shdr) : Bool := shdr.sh_flags.testBit 0
def Shdr.alloc (shdr : Shdr) : Bool := shdr.sh_flags.testBit 1
def Shdr.execinstr (shdr : Shdr) : Bool := shdr.sh_flags.testBit 2

/-! ## Records from bytes -/

def unpackHdr (order : Order) (buf : List UInt8) : Ehdr :=
  match unpack order [.quote 16, .s, .s, .l, .q, .q, .q, .l, .s, .s, .s, .s, .s, .s] buf with
  | [.quote ident, .s type, .s machine, .l version, .q entry, .q phoff, .q shoff, .l flags, .s ehsize,
      .s phentsize, .s phnum, .s shentsize, .s shnum, .s shstrndx] =>
    ⟨ident, type.toNat, machine.toNat, version.toNat, entry.toNat, phoff.toNat, shoff.toNat,
      flags.toNat, ehsize.toNat, phentsize.toNat, phnum.toNat, shentsize.toNat, shnum.toNat,
      shstrndx.toNat⟩
  | _ => ⟨[], 0, 0, 0, 0, 0, 0, 0, 0, 0, 0, 0, 0, 0⟩

def unpackPhdr (order : Order) (buf : List UInt8) : Phdr :=
  match unpack order [.l, .l, .q, .q, .q, .q, .q, .q] buf with
  | [.l type, .l flags, .q offset, .q vaddr, .q paddr, .q filesz, .q memsz, .q align] =>
    ⟨type.toNat, flags.toNat, offset.toNat, vaddr.toNat, paddr.toNat, filesz.toNat, memsz.toNat,
      align.toNat⟩
  | _ => ⟨0, 0, 0, 0, 0, 0, 0, 0⟩

def unpackShdr (order : Order) (buf : List UInt8) : Shdr :=
  match unpack order [.l, .l, .q, .q, .q, .q, .l, .l, .q, .q] buf with
  | [.l name, .l type, .q flags, .q addr, .q offset, .q size, .l link, .l info, .q addralign,
      .q entsize] =>
    ⟨name.toNat, type.toNat, flags.toNat, addr.toNat, offset.toNat, size.toNat, link.toNat,
      info.toNat, addralign.toNat, entsize.toNat⟩
  | _ => ⟨0, 0, 0, 0, 0, 0, 0, 0, 0, 0⟩

def unpackSym (order : Order) (buf : List UInt8) : Ent :=
  match unpack order [.l, .c, .c, .s, .q, .q] buf with
  | [.l name, .c info, .c other, .s shndx, .q value, .q size] =>
    ⟨name.toNat, info.toNat, other.toNat, shndx.toNat, value.toNat, size.toNat⟩
  | _ => ⟨0, 0, 0, 0, 0, 0⟩

/-! ## Reading -/

/-- A step that returns 0 where it fails. -/
def step {α : Type} : Option α → Except Stop α
  | some a => .ok a
  | none => .error .failed

/-- `fread` of one item, with the rest of the file. -/
def fread (size : Nat) (rest : List UInt8) : Option (List UInt8 × List UInt8) :=
  if size ≤ rest.length then some (rest.take size, rest.drop size) else none

/-- `objpos`, whose position is a `long`. -/
def objpos (file : List UInt8) (pos : Nat) : Option (List UInt8) :=
  if pos < 2 ^ 63 then some (file.drop pos) else none

/-- Whether `calloc` finds that many items of the size representable. -/
def calloc (n size : Nat) : Bool := n * size ≤ SIZE_MAX

section
variable (order : Order)

def readhdr (file : List UInt8) : Option Ehdr := do
  let (buf, _) ← fread ELFHSZ file
  let hdr := unpackHdr order buf
  if hdr.e_type ∈ [ET_REL, ET_EXEC, ET_DYN] then some hdr else none

def readphdrs : Nat → List UInt8 → Option (List Phdr)
  | 0, _ => some []
  | n + 1, rest => do
    let (buf, rest) ← fread ELFPSZ rest
    return unpackPhdr order buf :: (← readphdrs n rest)

def readphdr (hdr : Ehdr) (file : List UInt8) : Option (Option (List Phdr)) :=
  if hdr.e_phoff = 0 ∨ hdr.e_phnum = 0 then some none
  else do
    let rest ← objpos file hdr.e_phoff
    return some (← readphdrs order hdr.e_phnum rest)

/-- The loop of `readshdr` from section `i` on, and which section is the symbol table. -/
def readshdrs : Nat → Nat → Option Nat → List UInt8 → Option (List Shdr × Option Nat)
  | 0, _, symtab, _ => some ([], symtab)
  | n + 1, i, symtab, rest => do
    let (buf, rest) ← fread ELFSSZ rest
    let shdr := unpackShdr order buf
    if shdr.sh_type = SHT_SYMTAB then
      if symtab.isSome then none
      else
        let (shdrs, symtab) ← readshdrs n (i + 1) (some i) rest
        return (shdr :: shdrs, symtab)
    else
      let (shdrs, symtab) ← readshdrs n (i + 1) symtab rest
      return (shdr :: shdrs, symtab)

/-- A header that has no number of sections leaves it to the first one, where a short read is not
noticed. -/
def sections (hdr : Ehdr) (rest : List UInt8) : Except Stop Nat :=
  if hdr.e_shnum ≠ SHN_UNDEF then .ok hdr.e_shnum
  else if rest.length < ELFHSZ then .error .undefined
  else .ok (unpackShdr order (rest.take ELFSSZ)).sh_size

/-- The section headers, the symbol table and `nsec`. -/
def readshdr (hdr : Ehdr) (file : List UInt8) :
    Except Stop (Option (List Shdr) × Option Nat × Nat) :=
  if hdr.e_shoff = 0 then .ok (none, none, 0)
  else do
    let rest ← step (objpos file hdr.e_shoff)
    let nsec ← sections order hdr rest
    if calloc nsec ELFSSZ then
      let (shdrs, symtab) ← step (readshdrs order nsec 0 none rest)
      return (some shdrs, symtab, nsec)
    else .error .failed

/-- Sections of symbols that are not in a section of the file. -/
def reserved : List Nat := [SHN_UNDEF, SHN_ABS, SHN_COMMON]

def readsyms (nsec : Nat) : Nat → List UInt8 → Option (List Ent)
  | 0, _ => some []
  | n + 1, rest => do
    let (buf, rest) ← fread ELFESZ rest
    let ent := unpackSym order buf
    if ent.st_shndx = SHN_XINDEX then none
    else if ent.st_shndx ∉ reserved ∧ ent.st_shndx ≥ nsec then none
    else return ent :: (← readsyms nsec n rest)

/-- The symbols and their number. -/
def readsym (shdrs : List Shdr) (symtab : Option Nat) (nsec : Nat) (file : List UInt8) :
    Except Stop (Option (List Ent) × Nat) :=
  match symtab with
  | none => .ok (none, 0)
  | some t =>
    match shdrs[t]? with
    | none => .error .undefined
    | some shdr =>
      if shdr.sh_entsize = 0 then .error .divided
      else
        let nsym := shdr.sh_size / shdr.sh_entsize
        if nsym < SIZE_MAX ∧ calloc nsym ELFESZ then do
          let rest ← step (objpos file shdr.sh_offset)
          let syms ← step (readsyms order nsec nsym rest)
          return (some syms, nsym)
        else .error .failed

/-- The string table of a section, a null pointer where it is empty. -/
def readstr (shdr : Shdr) (file : List UInt8) : Option (Option (List UInt8)) :=
  if shdr.sh_size = 0 then some none
  else do
    let rest ← objpos file shdr.sh_offset
    let (str, _) ← fread shdr.sh_size rest
    return some str

/-- The section of the names of sections. -/
def secstrndx (hdr : Ehdr) (shdrs : List Shdr) : Except Stop Nat :=
  if hdr.e_shstrndx = SHN_UNDEF then .error .failed
  else if hdr.e_shstrndx = SHN_XINDEX then
    if hdr.e_shnum = 0 then .error .failed
    else
      match shdrs[0]? with
      | none => .error .undefined
      | some shdr => .ok shdr.sh_link
  else .ok hdr.e_shstrndx

def readsecstr (hdr : Ehdr) (shdrs : List Shdr) (file : List UInt8) :
    Except Stop (Option (List UInt8)) := do
  let idx ← secstrndx hdr shdrs
  if idx ≥ hdr.e_shnum then .error .failed
  else
    match shdrs[idx]? with
    | none => .error .undefined
    | some shdr => step (readstr shdr file)

def readsymstr (shdrs : List Shdr) (symtab : Option Nat) (nsec : Nat) (file : List UInt8) :
    Except Stop (Option (List UInt8)) :=
  match symtab with
  | none => .ok none
  | some t =>
    match shdrs[t]? with
    | none => .error .undefined
    | some symtab =>
      if symtab.sh_link ≥ nsec then .error .failed
      else
        match shdrs[symtab.sh_link]? with
        | none => .error .undefined
        | some shdr => step (readstr shdr file)

def elf64read (file : List UInt8) : Except Stop Elf64 := do
  let hdr ← step (readhdr order file)
  let phdr ← step (readphdr order hdr file)
  let (shdr, symtab, nsec) ← readshdr order hdr file
  let (syms, nsym) ← readsym order (shdr.getD []) symtab nsec file
  let secstr ← readsecstr hdr (shdr.getD []) file
  let symstr ← readsymstr (shdr.getD []) symtab nsec file
  return { hdr, phdr, shdr, symtab, syms, secstr, symstr, nsec, nsym }

end

/-! ## Symbols and sections -/

structure Symbol where
  name : List UInt8
  type : Char
  stype : Nat
  value : Nat
  size : Nat
  index : Nat
  deriving DecidableEq

structure Section where
  name : List UInt8
  index : Nat
  size : Nat
  base : Nat
  type : Char
  flags : Nat
  align : Nat
  deriving DecidableEq

def SREAD : Nat := 1
def SWRITE : Nat := 2
def SEXEC : Nat := 4
def SLOAD : Nat := 8
def SALLOC : Nat := 16
def SRELOC : Nat := 32

/-- The string at a position of a table, which must end in it. -/
def elf64str (tbl : Option (List UInt8)) (stroff : Nat) : Except Stop (List UInt8) :=
  match tbl with
  | none => .ok []
  | some tbl =>
    if tbl.length < stroff then .ok []
    else if 0 ∈ tbl.drop stroff then .ok ((tbl.drop stroff).takeWhile (· ≠ 0))
    else .error .undefined

/-- ".debug" -/
def debugName : List UInt8 := [46, 100, 101, 98, 117, 103]

/-- ".comment", ".line" and ".stab" -/
def debugNames : List (List UInt8) :=
  [[46, 99, 111, 109, 109, 101, 110, 116], [46, 108, 105, 110, 101], [46, 115, 116, 97, 98]]

/-- The type by the header of the section. -/
def sectionType (shdr : Shdr) (name : List UInt8) : Char :=
  if shdr.alloc then
    if shdr.sh_type = SHT_NOBITS then 'b'
    else if shdr.write then 'd'
    else if shdr.execinstr then 't'
    else 'r'
  else if name.take 6 = debugName ∨ name ∈ debugNames then 'N'
  else '?'

/-- `abort` is undefined. -/
def typeof (elf : Elf64) (ent : Ent) (name : List UInt8) : Except Stop Char := do
  let c ←
    if ent.st_shndx = SHN_UNDEF then .ok 'U'
    else if ent.st_shndx = SHN_ABS then .ok 'a'
    else if ent.st_shndx = SHN_COMMON then .ok 'C'
    else if ent.st_shndx = SHN_XINDEX then .error .undefined
    else
      match (elf.shdr.getD [])[ent.st_shndx]? with
      | none => .error .undefined
      | some shdr => .ok (sectionType shdr name)
  return if ent.bind ≠ STB_LOCAL then c.toUpper else c

def SYMNOTYPE : Nat := 0
def SYMOBJECT : Nat := 1
def SYMFUNC : Nat := 2
def SYMSECTION : Nat := 3
def SYMFILE : Nat := 4
def SYMCOMMON : Nat := 5

def stypeof (ent : Ent) : Nat :=
  if ent.type = STT_OBJECT then SYMOBJECT
  else if ent.type = STT_FUNC then SYMFUNC
  else if ent.type = STT_SECTION then SYMSECTION
  else if ent.type = STT_FILE then SYMFILE
  else if ent.type = STT_COMMON then SYMCOMMON
  else SYMNOTYPE

/-- An index as it is compared with a number of entries. -/
def sizeOf (n : Int32) : Nat := (n.toInt % 2 ^ 64).toNat

/-- The entry of an index, the second one for 0. -/
def entry (elf : Elf64) (n : Int32) : Except Stop (Option Ent) :=
  let n := if n = 0 then 1 else sizeOf n
  if elf.symtab = none ∨ n ≥ elf.nsym then .ok none
  else
    match (elf.syms.getD [])[n]? with
    | none => .error .undefined
    | some ent => .ok (some ent)

def symname (elf : Elf64) (ent : Ent) : Except Stop (List UInt8) :=
  if ent.type = STT_SECTION then
    match (elf.shdr.getD [])[ent.st_shndx]? with
    | none => .error .undefined
    | some shdr => elf64str elf.secstr shdr.sh_name
  else elf64str elf.symstr ent.st_name

def elf64getsym (elf : Elf64) (n : Int32) : Except Stop (Option Symbol) := do
  match ← entry elf n with
  | none => return none
  | some ent =>
    let name ← symname elf ent
    let type ← typeof elf ent name
    return some
      { name, type, stype := stypeof ent, value := ent.st_value, size := ent.st_size
        index := if n = 0 then 1 else sizeOf n }

def elf64getsec (elf : Elf64) (n : Int32) : Except Stop (Option Section) :=
  if sizeOf n ≥ elf.nsec then .ok none
  else
    match (elf.shdr.getD [])[sizeOf n]? with
    | none => .error .undefined
    | some shdr => do
      let stype :=
        if shdr.alloc then
          if shdr.sh_type = SHT_NOBITS then 'B' else if shdr.write then 'D' else 'T'
        else 'N'
      let sflags :=
        (if shdr.write then SWRITE else 0) ||| (if shdr.execinstr then SEXEC else 0) |||
          (if shdr.alloc then SALLOC ||| SREAD else 0) |||
          (if shdr.sh_type ≠ SHT_NOBITS then SLOAD else 0) |||
          (if stype = 'T' ∨ stype = 'D' then SRELOC else 0)
      let name ← elf64str elf.secstr shdr.sh_name
      return some
        { name, index := sizeOf n, size := shdr.sh_size, base := shdr.sh_addr, type := stype
          flags := sflags, align := shdr.sh_addralign }

end Scc.Libmach.Elf
