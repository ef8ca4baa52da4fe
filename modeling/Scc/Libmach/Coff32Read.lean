import Scc.Libmach.Coff32

set_option linter.all false

/-! `coff32read`: an object file from its bytes. -/
namespace Scc.Libmach

/-- `fread` of one item, with the rest of the file. -/
def fread (size : Nat) (rest : List UInt8) : Except Stop (List UInt8 × List UInt8) :=
  if size ≤ rest.length then .ok (rest.take size, rest.drop size) else .error .failed

/-- `objpos` in an object that starts with its file. -/
def objpos (file : List UInt8) (pos : Int) : Except Stop (List UInt8) :=
  if pos < 0 then .error .failed else .ok (file.drop pos.toNat)

def readhdr (order : Order) (rest : List UInt8) : Except Stop (Filehdr × List UInt8) := do
  let (buf, rest) ← fread FILHSZ rest
  return (← unpackHdr order buf, rest)

def readaout (order : Order) (hdr : Filehdr) (rest : List UInt8) :
    Except Stop (Aouthdr × List UInt8) := do
  if hdr.f_opthdr = 0 then return (⟨0, 0, 0, 0, 0, 0, 0, 0⟩, rest)
  let (buf, rest) ← fread AOUTSZ rest
  return (← unpackAout order buf, rest)

/-- The loop of `readscns`. A short read goes on with a buffer that was never set. -/
def readscns (order : Order) : Nat → List UInt8 → Except Stop (List Scnhdr × List UInt8)
  | 0, rest => .ok ([], rest)
  | n + 1, rest => do
    if rest.length < SCNHSZ then .error .undefined
    let scn ← unpackScn order (rest.take SCNHSZ)
    let (scns, rest) ← readscns order n (rest.drop SCNHSZ)
    return (scn :: scns, rest)

/-- The loop of `readents`, which looks at the first entry after every read. -/
def readentsFrom (order : Order) (nscns : Int) :
    Nat → List Syment → List UInt8 → Except Stop (List Syment × List UInt8)
  | 0, ents, rest => .ok (ents, rest)
  | n + 1, ents, rest => do
    let (buf, rest) ← fread SYMESZ rest
    let ents := ents ++ [← unpackEnt order buf]
    if (ents.head?.map fun ent => ent.n_scnum.toInt).getD 0 > nscns then .error .failed
    readentsFrom order nscns n ents rest

def readents (order : Order) (hdr : Filehdr) (file rest : List UInt8) :
    Except Stop (Option (List Syment) × List UInt8) := do
  if hdr.f_nsyms = 0 then return (none, rest)
  let rest ← objpos file hdr.f_symptr
  let (ents, rest) ← readentsFrom order hdr.f_nscns.toNat hdr.f_nsyms.toNat [] rest
  return (some ents, rest)

/-- The string table and its size. Its first four bytes are never set. -/
def readstr (order : Order) (hdr : Filehdr) (rest : List UInt8) : Except Stop (List UInt8 × Nat) := do
  if hdr.f_nsyms = 0 then return ([], 0)
  let (buf, rest) ← fread 4 rest
  let siz := bytesValue (order.arrange buf)
  if siz < 4 then .error .failed
  if siz = 4 then return ([], 0)
  let (str, _) ← fread (siz - 4) rest
  return (List.replicate 4 0 ++ str, siz)

/-- The inner loop of `readreloc` for section `i`, whose entries are all stored
at the index of the section. -/
def readrelocFrom (order : Order) (nsyms : Int) (i : Nat) :
    Nat → List Reloc → List UInt8 → Except Stop (List Reloc)
  | 0, rp, _ => .ok rp
  | n + 1, rp, rest => do
    let (buf, rest) ← fread RELSZ rest
    let rel ← unpackReloc order buf
    if rp.length ≤ i then .error .undefined
    if rel.r_symndx ≥ nsyms then .error .failed
    readrelocFrom order nsyms i n (rp.set i rel) rest

/-- The relocations of section `i`, a null pointer when it has none. -/
def readrelocSection (order : Order) (nsyms : Int) (file : List UInt8) (i : Nat) (scn : Scnhdr) :
    Except Stop (Option (List Reloc)) :=
  if scn.s_nrelloc = 0 then .ok none
  else do
    let rest ← objpos file scn.s_relptr
    let rp := List.replicate scn.s_nrelloc.toNat .zero
    let rp ← readrelocFrom order nsyms i scn.s_nrelloc.toNat rp rest
    return some rp

def readreloc (order : Order) (hdr : Filehdr) (file : List UInt8) :
    Nat → List Scnhdr → Except Stop (List (Option (List Reloc)))
  | _, [] => .ok []
  | i, scn :: scns => do
    let rels ← readrelocSection order hdr.f_nsyms file i scn
    let more ← readreloc order hdr file (i + 1) scns
    return rels :: more

/-- The inner loop of `readlines` for section `i`. A read that succeeds is taken
for a failure. -/
def readlinesFrom (order : Order) (hdr : Filehdr) (file : List UInt8) (scn : Scnhdr) (i : Nat) :
    Nat → Nat → List Lineno → Except Stop (List Lineno)
  | 0, _, lp => .ok lp
  | n + 1, j, lp => do
    let rest ← objpos file scn.s_lnnoptr
    if LINESZ ≤ rest.length then .error .failed
    let line ← unpackLine order rest
    match (lp.set j line)[i]? with
    | none => .error .undefined
    | some line =>
      if line.l_symndx ≥ hdr.f_nsyms then .error .failed
    readlinesFrom order hdr file scn i n (j + 1) (lp.set j line)

/-- The line numbers of section `i`, a null pointer when it has none. -/
def readlinesSection (order : Order) (hdr : Filehdr) (file : List UInt8) (i : Nat) (scn : Scnhdr) :
    Except Stop (Option (List Lineno)) :=
  if scn.s_nlnno = 0 then .ok none
  else do
    let lp := List.replicate scn.s_nlnno.toNat .zero
    let lp ← readlinesFrom order hdr file scn i scn.s_nlnno.toNat 0 lp
    return some lp

def readlines (order : Order) (hdr : Filehdr) (file : List UInt8) :
    Nat → List Scnhdr → Except Stop (List (Option (List Lineno)))
  | _, [] => .ok []
  | i, scn :: scns => do
    let lines ← readlinesSection order hdr file i scn
    let more ← readlines order hdr file (i + 1) scns
    return lines :: more

def coff32read (order : Order) (file : List UInt8) : Except Stop Coff32 := do
  let (hdr, rest) ← readhdr order file
  let (aout, rest) ← readaout order hdr rest
  let (scns, rest) ← readscns order hdr.f_nscns.toNat rest
  let (ents, rest) ← readents order hdr file rest
  let (strtbl, strsiz) ← readstr order hdr rest
  let rels ← readreloc order hdr file 0 scns
  let lines ← readlines order hdr file 0 scns
  if (ents.getD []).any fun ent => ent.n_name.toList.any (· ≠ 0) && ent.n_offset > strsiz then
    .error .failed
  let null := hdr.f_nscns = 0
  .ok
    { hdr, aout, scns, ents, strtbl, strsiz
      rels := if null then none else some rels, lines := if null then none else some lines }

/-! The symbol index of an archive: `coff32xsetidx` writes it and `coff32xgetidx` reads it. -/

/-- The symbols of an index, each with the offset of the member that defines it. -/
abbrev Index := List (List UInt8 × Int)

def coff32xsetidx (order : Order) (idx : Index) : List UInt8 :=
  pack order [.l idx.length] ++ (idx.flatMap (fun sym => pack order [.l sym.2]) ++
    idx.flatMap fun sym => sym.1 ++ [0])

/-- Longest name of a symbol. -/
def EXTIDENTSIZ : Nat := 31

/-- The loop for the offsets. `unpack` gets the value of `offs[i]` for the address where it
stores, the null pointer that `calloc` has put there. -/
def readoffs (order : Order) : Nat → List Int → List UInt8 → Except Stop (List Int × List UInt8)
  | _, [], rest => .ok ([], rest)
  | i, off :: offs, rest => do
    let stored := bytesValue (order.arrange (rest.take 4))
    if off = 0 then .error .undefined
    let (offs, rest) ← readoffs order (i + 1) offs (rest.drop 4)
    return (stored :: offs, rest)

/-- The loop that reads a name, without the byte that ends it. -/
def readname : Nat → List UInt8 → Except Stop (List UInt8 × List UInt8)
  | 0, _ => .error .failed
  | _ + 1, [] => .error .failed
  | j + 1, c :: rest =>
    if c = 0 then .ok ([], rest)
    else do
      let (name, rest) ← readname j rest
      return (c :: name, rest)

/-- The loop for the names. The memory of a name has the bytes before the zero byte only. -/
def readnames : Nat → List UInt8 → Except Stop (List (List UInt8))
  | 0, _ => .ok []
  | n + 1, rest => do
    let (name, rest) ← readname EXTIDENTSIZ rest
    let names ← readnames n rest
    return name :: names

/-- The memory of each name, and the offsets. -/
def coff32xgetidx (order : Order) (file : List UInt8) :
    Except Stop (List (List UInt8) × List Int) := do
  let (buf, rest) ← fread 4 file
  let n := bytesValue (order.arrange buf)
  if n = 0 then .error .failed
  let (offs, rest) ← readoffs order 0 (List.replicate n 0) rest
  let names ← readnames n rest
  return (names, offs)

/-- The index is read back: the number of symbols, the offsets, and names that end inside
their memory. -/
def Index.ReadBack (order : Order) (idx : Index) : Prop :=
  ∃ names offs, coff32xgetidx order (coff32xsetidx order idx) = .ok (names, offs) ∧
    offs = idx.map Prod.snd ∧ names = idx.map fun sym => sym.1 ++ [0]

variable {order : Order}

/-- No index is ever read: without symbols it is refused, and the first offset is stored
through a null pointer. -/
theorem coff32xgetidx_stops (file : List UInt8) (r : List (List UInt8) × List Int) :
    coff32xgetidx order file ≠ .ok r := by
  intro read
  unfold coff32xgetidx at read
  cases first : fread 4 file with
  | error e => simp [first, bind, Except.bind] at read
  | ok found =>
    obtain ⟨buf, rest⟩ := found
    simp only [first, bind, Except.bind] at read
    cases count : bytesValue (order.arrange buf) with
    | zero => simp [count] at read
    | succ n => simp [count, List.replicate_succ, readoffs, bind, Except.bind] at read

theorem index_never_readBack (order : Order) (idx : Index) : ¬idx.ReadBack order := by
  rintro ⟨names, offs, read, -, -⟩
  exact coff32xgetidx_stops _ _ read

/-- The index of one symbol at offset 8. -/
theorem main_not_readBack :
    ¬∀ (order : Order) (idx : Index), idx.ReadBack order := by
  intro h
  obtain ⟨names, offs, read, -⟩ := h .BIG_ENDIAN [([109, 97, 105, 110], 8)]
  have stops : coff32xgetidx .BIG_ENDIAN
      (coff32xsetidx .BIG_ENDIAN [([109, 97, 105, 110], 8)]) = .error .undefined := by rfl
  rw [stops] at read
  cases read

end Scc.Libmach
