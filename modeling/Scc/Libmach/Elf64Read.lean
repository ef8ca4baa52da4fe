import Scc.Libmach.Coff32Inside
import Scc.Libmach.Elf64

set_option linter.all false

/-! What `elf64read` reads, in terms of the fields of the file, and when it divides by zero. -/
namespace Scc.Libmach.Elf
open Transition

variable {order : Order} {file : List UInt8}

/-! ## Fields of a file -/

namespace File
variable (order : Order) (file : List UInt8)

def type : Nat := field order file 16 2
def phoff : Nat := field order file 32 8
def shoff : Nat := field order file 40 8
def phnum : Nat := field order file 56 2
def shnum : Nat := field order file 60 2
def shstrndx : Nat := field order file 62 2

/-- Where section header `i` is. -/
def header (i : Nat) : Nat := shoff order file + ELFSSZ * i

def shname (i : Nat) : Nat := field order file (header order file i) 4
def shtype (i : Nat) : Nat := field order file (header order file i + 4) 4
def shoffset (i : Nat) : Nat := field order file (header order file i + 24) 8
def shsize (i : Nat) : Nat := field order file (header order file i + 32) 8
def shlink (i : Nat) : Nat := field order file (header order file i + 40) 4
def shentsize (i : Nat) : Nat := field order file (header order file i + 56) 8

def nsec : Nat := if shnum order file ≠ SHN_UNDEF then shnum order file else shsize order file 0

/-- The header and the program headers are read. -/
structure Headed : Prop where
  long : ELFHSZ ≤ file.length
  type : type order file ∈ [ET_REL, ET_EXEC, ET_DYN]
  programs : phoff order file = 0 ∨ phnum order file = 0 ∨
    phoff order file < 2 ^ 63 ∧ ELFPSZ * phnum order file ≤ (file.drop (phoff order file)).length

/-- The section headers are read, and their number. -/
structure Sectioned : Prop where
  some : shoff order file ≠ 0
  place : shoff order file < 2 ^ 63
  first : shnum order file ≠ SHN_UNDEF ∨ ELFSSZ ≤ (file.drop (shoff order file)).length
  few : nsec order file * ELFSSZ ≤ SIZE_MAX
  long : ELFSSZ * nsec order file ≤ (file.drop (shoff order file)).length

/-- There is one symbol table, section `t`. -/
def Symtab (t : Nat) : Prop :=
  t < nsec order file ∧ ∀ i < nsec order file, shtype order file i = SHT_SYMTAB ↔ i = t

/-- The one symbol table has entries of size zero. -/
def Divides : Prop :=
  Headed order file ∧ Sectioned order file ∧ ∃ t, Symtab order file t ∧ shentsize order file t = 0

end File

/-! ## Records -/

theorem unpackHdr_fields (buf : List UInt8) (whole : buf = file.take ELFHSZ) :
    (unpackHdr order buf).e_type = File.type order file ∧
      (unpackHdr order buf).e_phoff = File.phoff order file ∧
      (unpackHdr order buf).e_shoff = File.shoff order file ∧
      (unpackHdr order buf).e_phnum = File.phnum order file ∧
      (unpackHdr order buf).e_shnum = File.shnum order file ∧
      (unpackHdr order buf).e_shstrndx = File.shstrndx order file := by
  have at' (k w : Nat) (small : k + w ≤ ELFHSZ) :
      bytesValue (order.arrange ((buf.drop k).take w)) = field order file k w := by
    have same := @field_take order file 0 ELFHSZ k w small
    rw [List.drop_zero, Nat.zero_add] at same
    rw [whole]
    exact same
  simp only [unpackHdr, unpack, unpackArg, Conv.width, List.drop_drop, Int.toNat_natCast]
  refine ⟨?_, ?_, ?_, ?_, ?_, ?_⟩
  · exact at' 16 2 (by decide)
  · exact at' 32 8 (by decide)
  · exact at' 40 8 (by decide)
  · exact at' 56 2 (by decide)
  · exact at' 60 2 (by decide)
  · exact at' 62 2 (by decide)

/-- The record at a place of the file. -/
def shdrAt (order : Order) (file : List UInt8) (pos : Nat) : Shdr :=
  unpackShdr order ((file.drop pos).take ELFSSZ)

theorem shdrAt_fields (pos : Nat) :
    (shdrAt order file pos).sh_name = field order file pos 4 ∧
      (shdrAt order file pos).sh_type = field order file (pos + 4) 4 ∧
      (shdrAt order file pos).sh_offset = field order file (pos + 24) 8 ∧
      (shdrAt order file pos).sh_size = field order file (pos + 32) 8 ∧
      (shdrAt order file pos).sh_link = field order file (pos + 40) 4 ∧
      (shdrAt order file pos).sh_entsize = field order file (pos + 56) 8 := by
  have at' (k w : Nat) (small : k + w ≤ ELFSSZ) := @field_take order file pos ELFSSZ k w small
  simp only [shdrAt, unpackShdr, unpack, unpackArg, Conv.width, List.drop_drop, Int.toNat_natCast]
  refine ⟨?_, ?_, ?_, ?_, ?_, ?_⟩
  · exact at' 0 4 (by decide)
  · exact at' 4 4 (by decide)
  · exact at' 24 8 (by decide)
  · exact at' 32 8 (by decide)
  · exact at' 40 4 (by decide)
  · exact at' 56 8 (by decide)

/-! ## The steps of reading -/

theorem fread_some {size : Nat} {rest : List UInt8} {r : List UInt8 × List UInt8} :
    fread size rest = some r ↔ size ≤ rest.length ∧ r = (rest.take size, rest.drop size) := by
  unfold fread
  split
  · rename_i long
    simp [long, eq_comm]
  · rename_i short
    simp [short]

theorem objpos_some {pos : Nat} {rest : List UInt8} :
    objpos file pos = some rest ↔ pos < 2 ^ 63 ∧ rest = file.drop pos := by
  unfold objpos
  constructor
  · intro found
    split at found
    · rename_i small
      exact ⟨small, (Option.some.inj found).symm⟩
    · cases found
  · rintro ⟨small, rfl⟩
    exact if_pos small

theorem step_ok {α : Type} {x : Option α} {a : α} : step x = .ok a ↔ x = some a := by
  cases x <;> simp [step]

theorem step_error {α : Type} {x : Option α} {e : Stop} : step x = .error e → e = .failed := by
  cases x with
  | none => rintro ⟨⟩; rfl
  | some a => rintro ⟨⟩

theorem readphdrs_isSome (n : Nat) (rest : List UInt8) :
    (readphdrs order n rest).isSome = true ↔ ELFPSZ * n ≤ rest.length := by
  induction n generalizing rest with
  | zero => simp [readphdrs]
  | succ n ih =>
    rw [readphdrs]
    by_cases long : ELFPSZ ≤ rest.length
    · rw [fread_some.mpr ⟨long, rfl⟩]
      have next := ih (rest.drop ELFPSZ)
      rw [List.length_drop] at next
      simp only [Option.bind_eq_bind, Option.bind_some, Option.pure_def, Option.isSome_bind]
      rw [show (ELFPSZ * (n + 1) ≤ rest.length) ↔ ELFPSZ * n ≤ rest.length - ELFPSZ by
        rw [Nat.mul_succ]; omega, ← next]
      cases readphdrs order n (rest.drop ELFPSZ) <;> simp
    · have none : fread ELFPSZ rest = .none := if_neg long
      rw [none]
      refine iff_of_false (by simp) ?_
      rw [Nat.mul_succ]
      omega

/-- Headers one after the other. -/
def shdrsOf (order : Order) (n : Nat) (rest : List UInt8) : List Shdr :=
  (List.range n).map fun i => shdrAt order rest (ELFSSZ * i)

theorem shdrsOf_succ (n : Nat) (rest : List UInt8) :
    shdrsOf order (n + 1) rest =
      unpackShdr order (rest.take ELFSSZ) :: shdrsOf order n (rest.drop ELFSSZ) := by
  rw [shdrsOf, List.range_succ_eq_map, List.map_cons, List.map_map]
  congr 1
  refine List.map_congr_left fun i _ => ?_
  simp only [Function.comp_apply, shdrAt, List.drop_drop]
  rw [Nat.mul_succ, Nat.add_comm]

/-- Where the symbol tables are among headers from `i` on. -/
def tabs : Nat → List Shdr → List Nat
  | _, [] => []
  | i, shdr :: shdrs => if shdr.sh_type = SHT_SYMTAB then i :: tabs (i + 1) shdrs else tabs (i + 1) shdrs

theorem readshdrs_some (n i : Nat) (symtab tab : Option Nat) (rest : List UInt8) (shdrs : List Shdr) :
    readshdrs order n i symtab rest = some (shdrs, tab) ↔
      ELFSSZ * n ≤ rest.length ∧ shdrs = shdrsOf order n rest ∧
        (symtab.toList ++ tabs i (shdrsOf order n rest)).length ≤ 1 ∧
        tab = (symtab.toList ++ tabs i (shdrsOf order n rest)).head? := by
  induction n generalizing i symtab rest shdrs with
  | zero =>
    cases symtab <;> simp [readshdrs, shdrsOf, tabs, eq_comm]
  | succ n ih =>
    rw [readshdrs, shdrsOf_succ, tabs]
    by_cases long : ELFSSZ ≤ rest.length
    · rw [fread_some.mpr ⟨long, rfl⟩]
      have room : ELFSSZ * (n + 1) ≤ rest.length ↔ ELFSSZ * n ≤ (rest.drop ELFSSZ).length := by
        rw [List.length_drop, Nat.mul_succ]
        omega
      rw [room]
      have next (s : Option Nat) :
          (readshdrs order n (i + 1) s (rest.drop ELFSSZ) >>= fun p =>
              some (unpackShdr order (rest.take ELFSSZ) :: p.1, p.2)) = some (shdrs, tab) ↔
            ELFSSZ * n ≤ (rest.drop ELFSSZ).length ∧
              shdrs = unpackShdr order (rest.take ELFSSZ) :: shdrsOf order n (rest.drop ELFSSZ) ∧
              (s.toList ++ tabs (i + 1) (shdrsOf order n (rest.drop ELFSSZ))).length ≤ 1 ∧
              tab = (s.toList ++ tabs (i + 1) (shdrsOf order n (rest.drop ELFSSZ))).head? := by
        rw [Option.bind_eq_bind, Option.bind_eq_some_iff]
        constructor
        · rintro ⟨⟨more, tab'⟩, read, same⟩
          cases same
          obtain ⟨whole, rfl, few, rfl⟩ := (ih _ _ _ _).mp read
          exact ⟨whole, rfl, few, rfl⟩
        · rintro ⟨whole, rfl, few, rfl⟩
          exact ⟨_, (ih _ _ _ _).mpr ⟨whole, rfl, few, rfl⟩, rfl⟩
      simp only [Option.bind_eq_bind, Option.bind_some, Option.pure_def] at next ⊢
      by_cases table : (unpackShdr order (rest.take ELFSSZ)).sh_type = SHT_SYMTAB
      · rw [if_pos table, if_pos table]
        cases symtab with
        | none => exact next (some i)
        | some t => simp
      · rw [if_neg table, if_neg table]
        exact next symtab
    · have none : fread ELFSSZ rest = .none := if_neg long
      rw [none]
      refine iff_of_false (by simp) fun all => ?_
      have whole := all.1
      rw [Nat.mul_succ] at whole
      omega

theorem mem_tabs {i t : Nat} {shdrs : List Shdr} :
    t ∈ tabs i shdrs ↔ ∃ j shdr, shdrs[j]? = some shdr ∧ shdr.sh_type = SHT_SYMTAB ∧ t = i + j := by
  induction shdrs generalizing i with
  | nil => simp [tabs]
  | cons first shdrs ih =>
    have later : (∃ j shdr, (first :: shdrs)[j]? = some shdr ∧ shdr.sh_type = SHT_SYMTAB ∧ t = i + j) ↔
        (first.sh_type = SHT_SYMTAB ∧ t = i) ∨ t ∈ tabs (i + 1) shdrs := by
      rw [ih]
      constructor
      · rintro ⟨j, shdr, found, table, rfl⟩
        cases j with
        | zero =>
          cases found
          exact .inl ⟨table, rfl⟩
        | succ j => exact .inr ⟨j, shdr, found, table, by omega⟩
      · rintro (⟨table, rfl⟩ | ⟨j, shdr, found, table, rfl⟩)
        · exact ⟨0, first, rfl, table, rfl⟩
        · exact ⟨j + 1, shdr, found, table, by omega⟩
    rw [later, tabs]
    split
    · rename_i table
      simp [table]
    · rename_i other
      simp [other]

theorem tabs_ge {i t : Nat} {shdrs : List Shdr} (member : t ∈ tabs i shdrs) : i ≤ t := by
  obtain ⟨j, -, -, -, rfl⟩ := mem_tabs.mp member
  exact Nat.le_add_right i j

theorem tabs_nodup (i : Nat) (shdrs : List Shdr) : (tabs i shdrs).Nodup := by
  induction shdrs generalizing i with
  | nil => exact List.nodup_nil
  | cons first shdrs ih =>
    rw [tabs]
    split
    · refine List.nodup_cons.mpr ⟨fun member => ?_, ih _⟩
      have above := tabs_ge member
      omega
    · exact ih _

/-- The headers of a file. -/
def File.headers (order : Order) (file : List UInt8) : List Shdr :=
  shdrsOf order (File.nsec order file) (file.drop (File.shoff order file))

theorem headers_get (i : Nat) (shdr : Shdr) :
    (File.headers order file)[i]? = some shdr ↔
      i < File.nsec order file ∧ shdr = shdrAt order file (File.header order file i) := by
  have place : shdrAt order (file.drop (File.shoff order file)) (ELFSSZ * i) =
      shdrAt order file (File.header order file i) := by
    rw [shdrAt, List.drop_drop]
    rfl
  rw [File.headers, shdrsOf, List.getElem?_map, Option.map_eq_some_iff]
  constructor
  · rintro ⟨j, found, rfl⟩
    obtain ⟨small, same⟩ := List.getElem?_eq_some_iff.mp found
    rw [List.getElem_range] at same
    subst same
    rw [List.length_range] at small
    exact ⟨small, place⟩
  · rintro ⟨small, rfl⟩
    exact ⟨i, List.getElem?_range small, place⟩

theorem tabs_symtab (t : Nat) :
    tabs 0 (File.headers order file) = [t] ↔ File.Symtab order file t := by
  have among (i : Nat) : i ∈ tabs 0 (File.headers order file) ↔
      i < File.nsec order file ∧ File.shtype order file i = SHT_SYMTAB := by
    rw [mem_tabs]
    constructor
    · rintro ⟨j, shdr, found, table, rfl⟩
      obtain ⟨small, rfl⟩ := (headers_get j shdr).mp found
      rw [Nat.zero_add]
      rw [(shdrAt_fields _).2.1] at table
      exact ⟨small, table⟩
    · rintro ⟨small, table⟩
      refine ⟨i, _, (headers_get i _).mpr ⟨small, rfl⟩, ?_, (Nat.zero_add i).symm⟩
      rw [(shdrAt_fields _).2.1]
      exact table
  constructor
  · intro only
    have here (i : Nat) := among i
    simp only [only, List.mem_singleton] at here
    refine ⟨((here t).mp rfl).1, fun i small => ?_⟩
    rw [here i, and_iff_right small]
  · rintro ⟨small, only⟩
    refine List.perm_singleton.mp ((List.perm_ext_iff_of_nodup (tabs_nodup _ _)
      (List.pairwise_singleton _ t)).mpr fun i => ?_)
    rw [among i, List.mem_singleton]
    constructor
    · rintro ⟨inside, table⟩
      exact (only i inside).mp table
    · rintro rfl
      exact ⟨small, (only i small).mpr rfl⟩

theorem readhdr_some {hdr : Ehdr} :
    readhdr order file = some hdr ↔
      ELFHSZ ≤ file.length ∧ File.type order file ∈ [ET_REL, ET_EXEC, ET_DYN] ∧
        hdr = unpackHdr order (file.take ELFHSZ) := by
  have fields := @unpackHdr_fields order file _ rfl
  rw [readhdr]
  by_cases long : ELFHSZ ≤ file.length
  · rw [fread_some.mpr ⟨long, rfl⟩]
    simp only [Option.bind_eq_bind, Option.bind_some, fields.1]
    split
    · rename_i type
      simp [long, type, eq_comm]
    · rename_i type
      simp [type]
  · have none : fread ELFHSZ file = .none := if_neg long
    rw [none]
    simp [long]

/-- The header of a file. -/
abbrev File.hdr (order : Order) (file : List UInt8) : Ehdr := unpackHdr order (file.take ELFHSZ)

theorem readphdr_isSome :
    (readphdr order (File.hdr order file) file).isSome = true ↔
      File.phoff order file = 0 ∨ File.phnum order file = 0 ∨
        File.phoff order file < 2 ^ 63 ∧
          ELFPSZ * File.phnum order file ≤ (file.drop (File.phoff order file)).length := by
  obtain ⟨-, phoff, -, phnum, -⟩ := @unpackHdr_fields order file _ rfl
  rw [readphdr, phoff, phnum, ← or_assoc]
  split
  · rename_i none
    simp [none]
  · rename_i some
    simp only [some, false_or]
    by_cases small : File.phoff order file < 2 ^ 63
    · rw [objpos_some.mpr ⟨small, rfl⟩, and_iff_right small, ← @readphdrs_isSome order]
      simp only [Option.bind_eq_bind, Option.bind_some]
      cases readphdrs order (File.phnum order file) (file.drop (File.phoff order file)) <;> simp
    · have none : objpos file (File.phoff order file) = .none := if_neg small
      rw [none]
      exact iff_of_false (by simp) fun both => small both.1

theorem headed_iff : File.Headed order file ↔
    ∃ hdr phdr, readhdr order file = some hdr ∧ readphdr order hdr file = some phdr := by
  constructor
  · rintro ⟨long, type, programs⟩
    obtain ⟨phdr, read⟩ := Option.isSome_iff_exists.mp (readphdr_isSome.mpr programs)
    exact ⟨_, phdr, readhdr_some.mpr ⟨long, type, rfl⟩, read⟩
  · rintro ⟨hdr, phdr, read, read'⟩
    obtain ⟨long, type, rfl⟩ := readhdr_some.mp read
    exact ⟨long, type, readphdr_isSome.mp (Option.isSome_iff_exists.mpr ⟨phdr, read'⟩)⟩

theorem sections_ok {nsec : Nat} :
    sections order (File.hdr order file) (file.drop (File.shoff order file)) = .ok nsec ↔
      (File.shnum order file ≠ SHN_UNDEF ∨ ELFSSZ ≤ (file.drop (File.shoff order file)).length) ∧
        nsec = File.nsec order file := by
  obtain ⟨-, -, -, -, shnum, -⟩ := @unpackHdr_fields order file _ rfl
  have first : (unpackShdr order ((file.drop (File.shoff order file)).take ELFSSZ)).sh_size =
      File.shsize order file 0 := (shdrAt_fields _).2.2.2.1
  rw [sections, shnum, File.nsec]
  by_cases some : File.shnum order file ≠ SHN_UNDEF
  · rw [if_pos some, if_pos some]
    simp [some, eq_comm]
  · rw [if_neg some, if_neg some, first]
    split
    · rename_i short
      refine iff_of_false (by simp) fun both => ?_
      rcases both.1 with number | long
      · exact some number
      · exact absurd short (Nat.not_lt.mpr long)
    · rename_i long
      have whole : ELFSSZ ≤ (file.drop (File.shoff order file)).length := Nat.not_lt.mp long
      rw [Except.ok.injEq, eq_comm]
      exact (and_iff_right (.inr whole)).symm

theorem sections_error {hdr : Ehdr} {rest : List UInt8} :
    sections order hdr rest ≠ .error .divided := by
  unfold sections
  split
  · rintro ⟨⟩
  · split <;> rintro ⟨⟩

theorem readshdr_ok {shdr : Option (List Shdr)} {symtab : Option Nat} {nsec : Nat} :
    readshdr order (File.hdr order file) file = .ok (shdr, symtab, nsec) ↔
      File.shoff order file = 0 ∧ shdr = none ∧ symtab = none ∧ nsec = 0 ∨
        File.Sectioned order file ∧ shdr = some (File.headers order file) ∧
          nsec = File.nsec order file ∧ (tabs 0 (File.headers order file)).length ≤ 1 ∧
          symtab = (tabs 0 (File.headers order file)).head? := by
  obtain ⟨-, -, shoff, -⟩ := @unpackHdr_fields order file _ rfl
  rw [readshdr, shoff]
  by_cases none : File.shoff order file = 0
  · rw [if_pos none]
    have absent : ¬File.Sectioned order file := fun sectioned => sectioned.some none
    simp [none, absent, eq_comm]
  · rw [if_neg none]
    simp only [none, false_and, false_or]
    constructor
    · intro read
      obtain ⟨rest, place, read⟩ := bind_ok.mp read
      obtain ⟨small, rfl⟩ := objpos_some.mp (step_ok.mp place)
      obtain ⟨nsec', number, read⟩ := bind_ok.mp read
      obtain ⟨first, rfl⟩ := sections_ok.mp number
      split at read
      · rename_i few
        obtain ⟨⟨shdrs, tab⟩, table, read⟩ := bind_ok.mp read
        cases read
        obtain ⟨long, rfl, sole, rfl⟩ := (readshdrs_some _ _ _ _ _ _).mp (step_ok.mp table)
        exact ⟨⟨none, small, first, of_decide_eq_true few, long⟩, rfl, rfl, sole, rfl⟩
      · cases read
    · rintro ⟨⟨-, small, first, few, long⟩, rfl, rfl, sole, rfl⟩
      rw [step_ok.mpr (objpos_some.mpr ⟨small, rfl⟩)]
      refine bind_ok.mpr ⟨_, rfl, bind_ok.mpr ⟨_, sections_ok.mpr ⟨first, rfl⟩, ?_⟩⟩
      have found : calloc (File.nsec order file) ELFSSZ = true := decide_eq_true few
      rw [if_pos found]
      exact bind_ok.mpr ⟨_, step_ok.mpr ((readshdrs_some _ _ _ _ _ _).mpr ⟨long, rfl, sole, rfl⟩), rfl⟩

theorem readshdr_error {hdr : Ehdr} : readshdr order hdr file ≠ .error .divided := by
  unfold readshdr
  split
  · rintro ⟨⟩
  · intro read
    rcases bind_error.mp read with place | ⟨rest, -, read⟩
    · cases step_error place
    · rcases bind_error.mp read with number | ⟨nsec, -, read⟩
      · exact sections_error number
      · split at read
        · rcases bind_error.mp read with table | ⟨p, -, read⟩
          · cases step_error table
          · cases read
        · cases read

theorem readsym_divided {shdrs : List Shdr} {symtab : Option Nat} {nsec : Nat} :
    readsym order shdrs symtab nsec file = .error .divided ↔
      ∃ t shdr, symtab = some t ∧ shdrs[t]? = some shdr ∧ shdr.sh_entsize = 0 := by
  unfold readsym
  split
  · simp
  · rename_i t
    split
    · rename_i absent
      simp [absent]
    · rename_i shdr found
      split
      · rename_i zero
        simp [found, zero]
      · rename_i some
        refine iff_of_false (fun read => ?_) (by simp [found, some])
        dsimp only at read
        split at read
        · rcases bind_error.mp read with place | ⟨rest, -, read⟩
          · cases step_error place
          · rcases bind_error.mp read with table | ⟨syms, -, read⟩
            · cases step_error table
            · cases read
        · cases read

theorem readsecstr_error {hdr : Ehdr} {shdrs : List Shdr} :
    readsecstr hdr shdrs file ≠ .error .divided := by
  intro read
  rcases bind_error.mp read with index | ⟨idx, -, read⟩
  · unfold secstrndx at index
    split at index
    · cases index
    · split at index
      · split at index
        · cases index
        · split at index <;> cases index
      · cases index
  · split at read
    · cases read
    · split at read
      · cases read
      · cases step_error read

theorem readsymstr_error {shdrs : List Shdr} {symtab : Option Nat} {nsec : Nat} :
    readsymstr shdrs symtab nsec file ≠ .error .divided := by
  unfold readsymstr
  split
  · rintro ⟨⟩
  · split
    · rintro ⟨⟩
    · split
      · rintro ⟨⟩
      · split
        · rintro ⟨⟩
        · intro read
          cases step_error read

/-- The only division is by the size of the entries of the symbol table. -/
theorem elf64read_divided : elf64read order file = .error .divided ↔ File.Divides order file := by
  constructor
  · intro read
    rcases bind_error.mp read with first | ⟨hdr, header, read⟩
    · cases step_error first
    rcases bind_error.mp read with second | ⟨phdr, programs, read⟩
    · cases step_error second
    rcases bind_error.mp read with third | ⟨⟨shdr, symtab, nsec⟩, table, read⟩
    · exact absurd third readshdr_error
    rcases bind_error.mp read with fourth | ⟨⟨syms, nsym⟩, -, read⟩
    · obtain ⟨t, s, rfl, found, zero⟩ := readsym_divided.mp fourth
      have headed := headed_iff.mpr ⟨hdr, phdr, step_ok.mp header, step_ok.mp programs⟩
      obtain ⟨-, -, rfl⟩ := readhdr_some.mp (step_ok.mp header)
      rcases readshdr_ok.mp table with ⟨-, -, absent, -⟩ | ⟨sectioned, rfl, -, few, first⟩
      · cases absent
      · obtain ⟨-, rfl⟩ := (headers_get t s).mp found
        rw [(shdrAt_fields _).2.2.2.2.2] at zero
        refine ⟨headed, sectioned, t, tabs_symtab t |>.mp ?_, zero⟩
        cases tables : tabs 0 (File.headers order file) with
        | nil => rw [tables] at first; cases first
        | cons other more =>
          rw [tables] at first few
          rw [List.head?_cons, Option.some.injEq] at first
          rw [List.length_cons] at few
          rw [first, List.length_eq_zero_iff.mp (by omega : more.length = 0)]
    rcases bind_error.mp read with fifth | ⟨secstr, -, read⟩
    · exact absurd fifth readsecstr_error
    rcases bind_error.mp read with sixth | ⟨symstr, -, read⟩
    · exact absurd sixth readsymstr_error
    · cases read
  · rintro ⟨headed, sectioned, t, only, zero⟩
    obtain ⟨hdr, phdr, header, programs⟩ := headed_iff.mp headed
    have tables := (tabs_symtab t).mpr only
    have table : readshdr order hdr file =
        .ok (some (File.headers order file), some t, File.nsec order file) := by
      obtain ⟨-, -, rfl⟩ := readhdr_some.mp header
      exact readshdr_ok.mpr (.inr ⟨sectioned, rfl, rfl, by rw [tables]; exact Nat.le_refl 1,
        by rw [tables]; rfl⟩)
    have found := (headers_get t _).mpr ⟨only.1, rfl⟩
    have division : readsym order (File.headers order file) (some t) (File.nsec order file) file =
        .error .divided := by
      refine readsym_divided.mpr ⟨t, _, rfl, found, ?_⟩
      rw [(shdrAt_fields _).2.2.2.2.2]
      exact zero
    rw [elf64read, step_ok.mpr header]
    refine bind_error.mpr (.inr ⟨_, rfl, ?_⟩)
    rw [step_ok.mpr programs]
    refine bind_error.mpr (.inr ⟨_, rfl, ?_⟩)
    rw [table]
    refine bind_error.mpr (.inr ⟨_, rfl, ?_⟩)
    exact bind_error.mpr (.inl division)

end Scc.Libmach.Elf
