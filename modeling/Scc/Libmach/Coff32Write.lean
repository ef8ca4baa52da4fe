import Scc.Libmach.Coff32

set_option linter.all false

/-! `coff32write`: the layout of an object file and the bytes written for it. -/
namespace Scc.Libmach

instance : Inhabited Scnhdr := ⟨⟨nameOf [], 0, 0, 0, 0, 0, 0, 0, 0, 0⟩⟩

/-- A segment map: for the name of a section the bytes it has in a file, if it
has a file. -/
abbrev Map := List (List UInt8 × Option (List UInt8))

/-- The name of a section as a string. -/
def Scnhdr.name (scn : Scnhdr) : List UInt8 := scn.s_name.toList.takeWhile (· ≠ 0)

/-- `findsec`, and the bytes of the segment it finds. -/
def Map.findsec (map : Map) (name : List UInt8) : Option (List UInt8) :=
  (map.find? fun sec => sec.1 = name).bind Prod.snd

/-- A loop that writes bytes for each item, until one of its steps stops it. -/
def concatM {α : Type} (f : α → Except Stop (List UInt8)) : List α → Except Stop (List UInt8)
  | [] => .ok []
  | a :: rest => do
    let bytes ← f a
    let more ← concatM f rest
    return bytes ++ more

namespace Coff32

def nscns (coff : Coff32) : Nat := coff.hdr.f_nscns.toNat

def scn (coff : Coff32) (i : Nat) : Scnhdr := coff.scns.getD i default

def writehdr (order : Order) (coff : Coff32) : Except Stop (List UInt8) :=
  packed order FILHSZ coff.hdr.args

/-- What follows the assertion of `pack_aout` reads from the file it writes, and
takes the failure of that for success. -/
def writeaout (order : Order) (coff : Coff32) : Except Stop (List UInt8) :=
  if coff.hdr.f_opthdr = 0 then .ok []
  else do
    let _ ← packed order AOUTSZ coff.aout.args
    return []

def writescns (order : Order) (coff : Coff32) : Except Stop (List UInt8) :=
  concatM (fun scn => packed order SCNHSZ scn.args) coff.scns

def writedata (map : Map) (coff : Coff32) : List UInt8 :=
  coff.scns.flatMap fun scn => (map.findsec scn.name).getD []

/-- The entry is taken at the index of the section. -/
def writereloc (order : Order) (coff : Coff32) : Except Stop (List UInt8) :=
  match coff.rels with
  | none => .ok []
  | some rels =>
    concatM (fun i =>
      match rels.getD i none with
      | none => .ok []
      | some rp =>
        concatM (fun _ =>
          match rp[i]? with
          | none => .error .undefined
          | some rel => packed order RELSZ rel.args) (List.range (coff.scn i).s_nrelloc.toNat))
      (List.range coff.nscns)

/-- A line that could be written would be taken for a failure. -/
def writelines (order : Order) (coff : Coff32) : Except Stop (List UInt8) :=
  match coff.lines with
  | none => .ok []
  | some lines =>
    concatM (fun i =>
      match lines.getD i none with
      | none => .ok []
      | some lp =>
        concatM (fun j =>
          match lp[j]? with
          | none => .error .undefined
          | some line => do
            let _ ← packed order LINESZ line.args
            .error .failed) (List.range (coff.scn i).s_nlnno.toNat))
      (List.range coff.nscns)

end Coff32

/-- `n_zeroes == 0` -/
def Syment.zeroes (ent : Syment) : Bool := ent.n_name.toList.all (· == 0)

/-- The string at an offset of the table. -/
def stringAt (strtbl : List UInt8) (offset : Int) : Except Stop (List UInt8) :=
  let tail := strtbl.drop offset.toNat
  if offset < 0 ∨ 0 ∉ tail then .error .undefined else .ok (tail.takeWhile (· ≠ 0))

namespace Coff32

/-- The string table once it holds the name of an entry that needs it. -/
def keepName (names strtbl : List UInt8) (ent : Syment) : Except Stop (List UInt8) :=
  if ent.zeroes then do
    let name ← stringAt names ent.n_offset
    let len : Int := name.length + 1
    if len > strtbl.length - LONG_MAX then .error .failed
    else .ok (strtbl ++ name ++ [0])
  else .ok strtbl

/-- The loop of `writeents`: the new string table and the bytes written. -/
def writeentsFrom (order : Order) (names : List UInt8) :
    List Syment → List UInt8 → Except Stop (List UInt8 × List UInt8)
  | [], strtbl => .ok (strtbl, [])
  | ent :: rest, strtbl => do
    let strtbl ← keepName names strtbl ent
    let bytes ← packed order SYMESZ ent.args
    let (strtbl, more) ← writeentsFrom order names rest strtbl
    return (strtbl, bytes ++ more)

def writeents (order : Order) (coff : Coff32) : Except Stop (Coff32 × List UInt8) :=
  match coff.ents with
  | none => .ok (coff, [])
  | some ents => do
    let (strtbl, bytes) ← writeentsFrom order coff.strtbl ents []
    return ({ coff with strtbl := strtbl, strsiz := strtbl.length }, bytes)

def writestr (order : Order) (coff : Coff32) : Except Stop (List UInt8) :=
  if coff.strsiz &&& 0xffff ≠ coff.strsiz then .error .failed
  else .ok (pack order [.l coff.strsiz] ++ coff.strtbl)

/-- The first loop of `coff32write`, which places the data of the sections. -/
def placeData (map : Map) : Int → List Scnhdr → List Scnhdr × Int
  | ptr, [] => ([], ptr)
  | ptr, scn :: rest =>
    let found := (map.findsec scn.name).isSome
    let (rest, last) := placeData map (if found then ptr + scn.s_size else ptr) rest
    ({ scn with s_scnptr := if found then ptr else 0 } :: rest, last)

def placeRelocs : Int → List Scnhdr → List Scnhdr × Int
  | ptr, [] => ([], ptr)
  | ptr, scn :: rest =>
    let (rest, last) := placeRelocs (ptr + scn.s_nrelloc.toNat * RELSZ) rest
    ({ scn with s_relptr := ptr } :: rest, last)

def placeLines : Int → List Scnhdr → List Scnhdr × Int
  | ptr, [] => ([], ptr)
  | ptr, scn :: rest =>
    let (rest, last) := placeLines (ptr + scn.s_nlnno.toNat * RELSZ) rest
    ({ scn with s_lnnoptr := ptr } :: rest, last)

/-- The object with the file pointers `coff32write` gives it. -/
def placed (map : Map) (coff : Coff32) : Coff32 :=
  let start : Int := FILHSZ + coff.hdr.f_opthdr.toNat + coff.nscns * SCNHSZ
  let (scns, ptr) := placeData map start coff.scns
  let symptr := if coff.hdr.f_nsyms > 0 then ptr else 0
  let (scns, ptr) := placeRelocs ptr scns
  let (scns, _) := placeLines ptr scns
  { coff with hdr := { coff.hdr with f_symptr := symptr }, scns := scns }

end Coff32

/-- The object as it is left, and the image. -/
def coff32write (order : Order) (map : Map) (coff : Coff32) : Except Stop (Coff32 × List UInt8) := do
  let coff := coff.placed map
  let hdr ← coff.writehdr order
  let aout ← coff.writeaout order
  let scns ← coff.writescns order
  let data := coff.writedata map
  let relocs ← coff.writereloc order
  let lines ← coff.writelines order
  let (coff, ents) ← coff.writeents order
  let str ← coff.writestr order
  return (coff, hdr ++ aout ++ scns ++ data ++ relocs ++ lines ++ ents ++ str)

end Scc.Libmach
