import Scc.Libmach.Elf64Read

set_option linter.all false

/-! Which files `elf64read` takes without dividing by zero that hold all that `elf64getsym` and
`elf64getsec` look for. -/
namespace Scc.Libmach.Elf
open Transition

variable {order : Order} {file : List UInt8} {elf : Elf64}

/-- The section headers that `elf64getsym` uses for a symbol. -/
def indices (ent : Ent) : List Nat :=
  (if ent.type = STT_SECTION then [ent.st_shndx] else []) ++
    if ent.st_shndx ∈ SHN_XINDEX :: reserved then [] else [ent.st_shndx]

/-- All accesses to the symbols and the sections of an object are inside its tables, also those to
the strings of their names, and no section index with another meaning is used for one. -/
structure Inside (elf : Elf64) : Prop where
  getsym : ∀ n, ∃ r, elf64getsym elf n = .ok r
  getsec : ∀ n, ∃ r, elf64getsec elf n = .ok r
  special : ∀ n ent, entry elf n = .ok (some ent) → ∀ i ∈ indices ent, i ∉ SHN_XINDEX :: reserved

structure RightReader (order : Order) (file : List UInt8) : Prop where
  division : elf64read order file ≠ .error .divided
  inside : ∀ elf, elf64read order file = .ok elf → Inside elf

namespace File
variable (order : Order) (file : List UInt8)

/-- The section of the names of sections. -/
def secidx : Nat := if shstrndx order file = SHN_XINDEX then shlink order file 0 else shstrndx order file

/-- A string that starts at the position ends in section `i`, or the section is empty or ends before
it, where the name is empty. -/
def Ends (i off : Nat) : Prop :=
  shsize order file i = 0 ∨ shsize order file i < off ∨
    0 ∈ (file.drop (shoffset order file i + off)).take (shsize order file i - off)

def nsym (t : Nat) : Nat := shsize order file t / shentsize order file t

/-- Where symbol `i` of the symbol table is. -/
def symbol (t i : Nat) : Nat := shoffset order file t + ELFESZ * i

def stname (t i : Nat) : Nat := field order file (symbol order file t i) 4
def stinfo (t i : Nat) : Nat := field order file (symbol order file t i + 4) 1
def stshndx (t i : Nat) : Nat := field order file (symbol order file t i + 6) 2

/-- What a file must have. Symbol 0 is never taken. -/
structure Named : Prop where
  sections : ∀ i < nsec order file, Ends order file (secidx order file) (shname order file i)
  symbols : ∀ t, Symtab order file t → ∀ i < nsym order file t, 0 < i → i < 2 ^ 31 →
    if stinfo order file t i % 16 = STT_SECTION then stshndx order file t i ∉ reserved
    else Ends order file (shlink order file t) (stname order file t i)

end File

/-! ## Indices -/

theorem sizeOf_lt {n : Int32} {k : Nat} (small : sizeOf n < k) (bound : k ≤ 2 ^ 60) :
    sizeOf n < 2 ^ 31 ∧ (n ≠ 0 → 0 < sizeOf n) := by
  have low := n.minValue_le_toInt
  have high := n.toInt_le
  have zero : n.toInt = 0 → n = 0 := fun same => Int32.toInt_inj.mp same
  simp only [sizeOf, Int32.toInt_minValue, Int32.toInt_maxValue] at *
  refine ⟨by omega, fun some => ?_⟩
  have nonzero : n.toInt ≠ 0 := fun same => some (zero same)
  omega

theorem sizeOf_ofNat {i : Nat} (small : i < 2 ^ 31) : sizeOf (Int32.ofNat i) = i := by
  have value : (Int32.ofNat i).toInt = i := Int32.toInt_ofNat_of_lt small
  rw [sizeOf, value]
  omega

/-! ## Strings -/

/-- A string that starts at the position ends in the table. -/
def Ends (tbl : Option (List UInt8)) (off : Nat) : Prop :=
  ∀ str, tbl = some str → str.length < off ∨ 0 ∈ str.drop off

theorem elf64str_ok {tbl : Option (List UInt8)} {off : Nat} :
    (∃ name, elf64str tbl off = .ok name) ↔ Ends tbl off := by
  unfold elf64str Ends
  cases tbl with
  | none => simp
  | some str =>
    by_cases short : str.length < off
    · simp [short]
    · by_cases inside : 0 ∈ str.drop off
      · simp [short, inside]
      · simp [short, inside]

theorem readstr_ends {shdr : Shdr} {tbl : Option (List UInt8)} (off : Nat)
    (read : readstr shdr file = some tbl) :
    Ends tbl off ↔ shdr.sh_size = 0 ∨ shdr.sh_size < off ∨
      0 ∈ (file.drop (shdr.sh_offset + off)).take (shdr.sh_size - off) := by
  unfold readstr at read
  split at read
  · rename_i zero
    cases read
    simp [Ends, zero]
  · rename_i some
    obtain ⟨rest, place, read⟩ := Option.bind_eq_some_iff.mp read
    obtain ⟨-, rfl⟩ := objpos_some.mp place
    obtain ⟨⟨str, left⟩, fetched, read⟩ := Option.bind_eq_some_iff.mp read
    obtain ⟨long, same⟩ := fread_some.mp fetched
    cases same
    cases read
    simp only [Ends, Option.some.injEq, forall_eq', List.length_take, Nat.min_eq_left long, some,
      false_or, List.drop_take, List.drop_drop]

/-! ## What is read -/

def symAt (order : Order) (file : List UInt8) (pos : Nat) : Ent :=
  unpackSym order ((file.drop pos).take ELFESZ)

theorem symAt_fields (pos : Nat) :
    (symAt order file pos).st_name = field order file pos 4 ∧
      (symAt order file pos).st_info = field order file (pos + 4) 1 ∧
      (symAt order file pos).st_shndx = field order file (pos + 6) 2 := by
  have at' (k w : Nat) (small : k + w ≤ ELFESZ) := @field_take order file pos ELFESZ k w small
  simp only [symAt, unpackSym, unpack, unpackArg, Conv.width, List.drop_drop, Int.toNat_natCast]
  refine ⟨?_, ?_, ?_⟩
  · exact at' 0 4 (by decide)
  · exact at' 4 1 (by decide)
  · exact at' 6 2 (by decide)

theorem readsyms_some {nsec n : Nat} {rest : List UInt8} {syms : List Ent}
    (read : readsyms order nsec n rest = some syms) :
    syms.length = n ∧ ∀ i ent, syms[i]? = some ent → ent = symAt order rest (ELFESZ * i) ∧
      ent.st_shndx ≠ SHN_XINDEX ∧ (ent.st_shndx ∉ reserved → ent.st_shndx < nsec) := by
  induction n generalizing rest syms with
  | zero =>
    cases read
    simp
  | succ n ih =>
    rw [readsyms] at read
    obtain ⟨⟨buf, after⟩, fetched, read⟩ := Option.bind_eq_some_iff.mp read
    obtain ⟨-, same⟩ := fread_some.mp fetched
    cases same
    dsimp only at read
    split at read
    · cases read
    · rename_i plain
      split at read
      · cases read
      · rename_i inside
        obtain ⟨more, read', read⟩ := Option.bind_eq_some_iff.mp read
        cases read
        obtain ⟨length, each⟩ := ih read'
        refine ⟨by rw [List.length_cons, length], ?_⟩
        intro i ent found
        cases i with
        | zero =>
          cases found
          refine ⟨rfl, plain, fun ordinary => ?_⟩
          by_contra large
          exact inside ⟨ordinary, Nat.not_lt.mp large⟩
        | succ i =>
          obtain ⟨rfl, valid⟩ := each i ent found
          refine ⟨?_, valid⟩
          rw [symAt, symAt, List.drop_drop, Nat.mul_succ, Nat.add_comm]

/-- The symbol table as it was read. -/
structure SymbolsFrom (order : Order) (file : List UInt8) (elf : Elf64) (t : Nat) : Prop where
  table : File.Symtab order file t
  nsym : elf.nsym = File.nsym order file t
  few : elf.nsym * ELFESZ ≤ SIZE_MAX
  length : (elf.syms.getD []).length = elf.nsym
  each : ∀ i ent, (elf.syms.getD [])[i]? = some ent →
    ent = symAt order file (File.symbol order file t i) ∧
      ent.st_shndx ≠ SHN_XINDEX ∧ (ent.st_shndx ∉ reserved → ent.st_shndx < elf.nsec)
  symstr : ∀ off, Ends elf.symstr off ↔ File.Ends order file (File.shlink order file t) off

/-- An object as it was read from a file. -/
structure ReadFrom (order : Order) (file : List UInt8) (elf : Elf64) : Prop where
  shdr : elf.shdr = some (File.headers order file)
  nsec : elf.nsec = File.nsec order file
  few : File.nsec order file < 2 ^ 16
  secstr : ∀ off, Ends elf.secstr off ↔ File.Ends order file (File.secidx order file) off
  none : elf.symtab = none → ∀ t, ¬File.Symtab order file t
  some : ∀ t, elf.symtab = some t → SymbolsFrom order file elf t

theorem readstr_file {i : Nat} {shdr : Shdr} {tbl : Option (List UInt8)}
    (found : (File.headers order file)[i]? = some shdr) (read : readstr shdr file = some tbl) (off : Nat) :
    Ends tbl off ↔ File.Ends order file i off := by
  obtain ⟨-, rfl⟩ := (headers_get i shdr).mp found
  obtain ⟨-, -, offset, size, -⟩ := @shdrAt_fields order file (File.header order file i)
  rw [readstr_ends off read, offset, size]
  rfl

theorem readsecstr_ok {shdrs : List Shdr} {tbl : Option (List UInt8)}
    (read : readsecstr (File.hdr order file) shdrs file = .ok tbl) :
    0 < File.shnum order file ∧ ∃ idx shdr, shdrs[idx]? = some shdr ∧ readstr shdr file = some tbl ∧
      idx = if File.shstrndx order file = SHN_XINDEX then (shdrs[0]?.map Shdr.sh_link).getD 0
        else File.shstrndx order file := by
  obtain ⟨-, -, -, -, shnum, shstrndx⟩ := @unpackHdr_fields order file _ rfl
  obtain ⟨idx, index, read⟩ := bind_ok.mp read
  rw [shnum] at read
  split at read
  · cases read
  · rename_i small
    split at read
    · cases read
    · rename_i shdr found
      refine ⟨by omega, idx, shdr, found, step_ok.mp read, ?_⟩
      rw [secstrndx, shstrndx] at index
      split at index
      · cases index
      · split at index
        · rename_i extended
          rw [if_pos extended]
          split at index
          · cases index
          · split at index
            · cases index
            · rename_i first here
              cases index
              rw [here]
              rfl
        · rename_i plain
          cases index
          rw [if_neg plain]

theorem read_from (read : elf64read order file = .ok elf) : ReadFrom order file elf := by
  obtain ⟨hdr, header, read⟩ := bind_ok.mp read
  obtain ⟨phdr, -, read⟩ := bind_ok.mp read
  obtain ⟨⟨shdr, symtab, nsec⟩, table, read⟩ := bind_ok.mp read
  obtain ⟨⟨syms, nsym⟩, readSyms, read⟩ := bind_ok.mp read
  obtain ⟨secstr, readSec, read⟩ := bind_ok.mp read
  obtain ⟨symstr, readStr, read⟩ := bind_ok.mp read
  cases read
  obtain ⟨-, -, rfl⟩ := readhdr_some.mp (step_ok.mp header)
  obtain ⟨positive, idx, sec, found, here, index⟩ := readsecstr_ok readSec
  rcases readshdr_ok.mp table with ⟨-, rfl, -, -⟩ | ⟨sectioned, rfl, rfl, few, rfl⟩
  · cases found
  have count : File.nsec order file = File.shnum order file := if_pos (Nat.ne_of_gt positive)
  have first : ((File.headers order file)[0]?.map Shdr.sh_link).getD 0 = File.shlink order file 0 := by
    rw [(headers_get 0 _).mpr ⟨by omega, rfl⟩]
    exact (shdrAt_fields _).2.2.2.2.1
  rw [Option.getD_some, first] at index
  refine ⟨rfl, rfl, ?_, ?_, ?_, ?_⟩
  · rw [count]
    exact field_lt 60 2
  · intro off
    rw [readstr_file found here off, index]
    rfl
  · intro none t symtab
    change (tabs 0 (File.headers order file)).head? = .none at none
    rw [(tabs_symtab t).mpr symtab] at none
    cases none
  · intro t isTable
    change (tabs 0 (File.headers order file)).head? = some t at isTable
    have sole : tabs 0 (File.headers order file) = [t] := by
      cases tables : tabs 0 (File.headers order file) with
      | nil => rw [tables] at isTable; cases isTable
      | cons other more =>
        rw [tables] at isTable few
        rw [List.head?_cons, Option.some.injEq] at isTable
        rw [List.length_cons] at few
        rw [isTable, List.length_eq_zero_iff.mp (by omega : more.length = 0)]
    have symtab := (tabs_symtab t).mp sole
    have at' := (headers_get t _).mpr ⟨symtab.1, rfl⟩
    obtain ⟨-, -, offset, size, link, entsize⟩ := @shdrAt_fields order file (File.header order file t)
    rw [isTable, readsym, Option.getD_some, at'] at readSyms
    rw [isTable, readsymstr, Option.getD_some, at'] at readStr
    dsimp only at readSyms readStr
    rw [entsize] at readSyms
    rw [link] at readStr
    split at readSyms
    · cases readSyms
    · split at readSyms
      · rename_i enough
        obtain ⟨rest, place, readSyms⟩ := bind_ok.mp readSyms
        obtain ⟨ents, loop, readSyms⟩ := bind_ok.mp readSyms
        cases readSyms
        obtain ⟨-, rfl⟩ := objpos_some.mp (step_ok.mp place)
        obtain ⟨length, each⟩ := readsyms_some (step_ok.mp loop)
        refine ⟨symtab, ?_, of_decide_eq_true enough.2, length, ?_, ?_⟩
        · rw [size]
          rfl
        · intro i ent found
          obtain ⟨rfl, valid⟩ := each i ent found
          refine ⟨?_, valid⟩
          rw [symAt, symAt, List.drop_drop, offset]
          rfl
        · intro off
          split at readStr
          · cases readStr
          · split at readStr
            · cases readStr
            · rename_i linked
              exact readstr_file linked (step_ok.mp readStr) off
      · cases readSyms

/-! ## What the accesses find -/

/-- The entry that `elf64getsym` takes. -/
def index (n : Int32) : Nat := if n = 0 then 1 else sizeOf n

theorem index_lt {n : Int32} {k : Nat} (small : index n < k) (bound : k ≤ 2 ^ 60) :
    0 < index n ∧ index n < 2 ^ 31 := by
  unfold index at small ⊢
  split at small
  · rename_i zero
    rw [if_pos zero]
    decide
  · rename_i some
    rw [if_neg some]
    obtain ⟨low, positive⟩ := sizeOf_lt small bound
    exact ⟨positive some, low⟩

theorem index_ofNat {i : Nat} (positive : 0 < i) (small : i < 2 ^ 31) : index (Int32.ofNat i) = i := by
  have some : Int32.ofNat i ≠ 0 := by
    intro zero
    have size := sizeOf_ofNat small
    rw [zero] at size
    change 0 = i at size
    omega
  rw [index, if_neg some, sizeOf_ofNat small]

variable {t : Nat}

theorem SymbolsFrom.entry (symbols : SymbolsFrom order file elf t) (isTable : elf.symtab = some t)
    (n : Int32) :
    entry elf n = .ok (if index n < elf.nsym then some (symAt order file (File.symbol order file t (index n)))
      else none) := by
  rw [Elf.entry]
  change (if elf.symtab = none ∨ index n ≥ elf.nsym then _ else _) = _
  by_cases inside : index n < elf.nsym
  · rw [if_neg (by simp [isTable, inside]), if_pos inside]
    cases found : (elf.syms.getD [])[index n]? with
    | none =>
      have short := List.getElem?_eq_none_iff.mp found
      rw [symbols.length] at short
      omega
    | some ent =>
      obtain ⟨rfl, -⟩ := symbols.each _ _ found
      have here : (elf.syms.getD [])[if n = 0 then 1 else sizeOf n]? = _ := found
      simp only [here]
  · rw [if_pos (.inr (Nat.not_lt.mp inside)), if_neg inside]

/-- A symbol that was read. -/
theorem SymbolsFrom.valid (symbols : SymbolsFrom order file elf t) {i : Nat} (small : i < elf.nsym) :
    (symAt order file (File.symbol order file t i)).st_shndx ≠ SHN_XINDEX ∧
      ((symAt order file (File.symbol order file t i)).st_shndx ∉ reserved →
        (symAt order file (File.symbol order file t i)).st_shndx < elf.nsec) := by
  rw [← symbols.length] at small
  obtain ⟨same, valid⟩ := symbols.each i _ (List.getElem?_eq_getElem small)
  rwa [same] at valid

theorem header_found (from' : ReadFrom order file elf) {i : Nat} (small : i < elf.nsec) :
    (elf.shdr.getD [])[i]? = some (shdrAt order file (File.header order file i)) := by
  rw [from'.shdr]
  rw [from'.nsec] at small
  exact (headers_get i _).mpr ⟨small, rfl⟩

theorem typeof_ok (from' : ReadFrom order file elf) {ent : Ent} (plain : ent.st_shndx ≠ SHN_XINDEX)
    (inside : ent.st_shndx ∉ reserved → ent.st_shndx < elf.nsec) (name : List UInt8) :
    ∃ c, typeof elf ent name = .ok c := by
  unfold typeof
  by_cases undef : ent.st_shndx = SHN_UNDEF
  · exact ⟨_, by rw [if_pos undef]; rfl⟩
  · by_cases abs : ent.st_shndx = SHN_ABS
    · exact ⟨_, by rw [if_neg undef, if_pos abs]; rfl⟩
    · by_cases common : ent.st_shndx = SHN_COMMON
      · exact ⟨_, by rw [if_neg undef, if_neg abs, if_pos common]; rfl⟩
      · have ordinary : ent.st_shndx ∉ reserved := by simp [reserved, undef, abs, common]
        rw [if_neg undef, if_neg abs, if_neg common, if_neg plain, header_found from' (inside ordinary)]
        exact ⟨_, rfl⟩

theorem getsym_ok (from' : ReadFrom order file elf) {n : Int32} {ent : Ent}
    (taken : entry elf n = .ok (some ent)) (plain : ent.st_shndx ≠ SHN_XINDEX)
    (inside : ent.st_shndx ∉ reserved → ent.st_shndx < elf.nsec) :
    (∃ r, elf64getsym elf n = .ok r) ↔ ∃ name, symname elf ent = .ok name := by
  unfold elf64getsym
  rw [taken]
  constructor
  · rintro ⟨r, got⟩
    obtain ⟨found, same, got⟩ := bind_ok.mp got
    cases same
    obtain ⟨name, named, -⟩ := bind_ok.mp got
    exact ⟨name, named⟩
  · rintro ⟨name, named⟩
    obtain ⟨c, typed⟩ := typeof_ok from' plain inside name
    exact ⟨_, bind_ok.mpr ⟨_, rfl, bind_ok.mpr ⟨name, named, bind_ok.mpr ⟨c, typed, rfl⟩⟩⟩⟩

theorem getsec_ok (from' : ReadFrom order file elf) (n : Int32) :
    (∃ r, elf64getsec elf n = .ok r) ↔
      (sizeOf n < elf.nsec → Ends elf.secstr (File.shname order file (sizeOf n))) := by
  unfold elf64getsec
  by_cases inside : sizeOf n < elf.nsec
  · rw [if_neg (Nat.not_le.mpr inside), header_found from' inside, ← elf64str_ok]
    have name := (@shdrAt_fields order file (File.header order file (sizeOf n))).1
    dsimp only
    rw [name]
    constructor
    · rintro ⟨r, got⟩ -
      obtain ⟨name, named, -⟩ := bind_ok.mp got
      exact ⟨name, named⟩
    · intro ends
      obtain ⟨name, named⟩ := ends inside
      exact ⟨_, bind_ok.mpr ⟨name, named, rfl⟩⟩
  · rw [if_pos (Nat.not_lt.mp inside)]
    exact iff_of_true ⟨none, rfl⟩ fun small => absurd small inside

theorem symtab_unique {t t' : Nat} (first : File.Symtab order file t) (second : File.Symtab order file t') :
    t = t' :=
  (second.2 t first.1).mp ((first.2 t first.1).mpr rfl)

theorem SymbolsFrom.index_small (symbols : SymbolsFrom order file elf t) {n : Int32}
    (small : index n < elf.nsym) : 0 < index n ∧ index n < 2 ^ 31 := by
  refine index_lt small ?_
  have few := symbols.few
  simp only [ELFESZ, SIZE_MAX] at few
  omega

theorem entry_ok (from' : ReadFrom order file elf) (n : Int32) : ∃ e, entry elf n = .ok e := by
  cases isTable : elf.symtab with
  | none => exact ⟨none, if_pos (.inl isTable)⟩
  | some t => exact ⟨_, (from'.some t isTable).entry isTable n⟩

theorem inside_iff (from' : ReadFrom order file elf) : Inside elf ↔ File.Named order file := by
  constructor
  · intro inside
    refine ⟨fun i small => ?_, fun t table i small positive low => ?_⟩
    · have low : i < 2 ^ 31 := Nat.lt_trans small (Nat.lt_trans from'.few (by decide))
      have got := (getsec_ok from' (Int32.ofNat i)).mp (inside.getsec _)
      rw [sizeOf_ofNat low, from'.nsec] at got
      exact (from'.secstr _).mp (got small)
    · cases isTable : elf.symtab with
      | none => exact absurd table (from'.none isTable t)
      | some t' =>
        have symbols := from'.some t' isTable
        have same := symtab_unique symbols.table table
        subst same
        rw [← symbols.nsym] at small
        obtain ⟨plain, ordinary⟩ := symbols.valid small
        have taken := symbols.entry isTable (Int32.ofNat i)
        rw [index_ofNat positive low, if_pos small] at taken
        obtain ⟨name, info, shndx⟩ := @symAt_fields order file (File.symbol order file t' i)
        split
        · rename_i isSection
          have type : (symAt order file (File.symbol order file t' i)).type = STT_SECTION := by
            rw [Ent.type, info]
            exact isSection
          have ordinary := inside.special _ _ taken
            (symAt order file (File.symbol order file t' i)).st_shndx
            (List.mem_append_left _ (by rw [if_pos type]; exact List.mem_singleton_self _))
          rw [shndx] at ordinary
          exact fun reserved => ordinary (List.mem_cons_of_mem _ reserved)
        · rename_i other
          have type : (symAt order file (File.symbol order file t' i)).type ≠ STT_SECTION := by
            rw [Ent.type, info]
            exact other
          have named := (getsym_ok from' taken plain ordinary).mp (inside.getsym _)
          rw [symname, if_neg type, elf64str_ok, name, symbols.symstr] at named
          exact named
  · rintro ⟨sections, symbols⟩
    have string (i : Nat) (small : i < elf.nsec) : Ends elf.secstr (File.shname order file i) := by
      rw [from'.nsec] at small
      exact (from'.secstr _).mpr (sections i small)
    -- a symbol that is taken, with what the file has of it
    have found {n : Int32} {ent : Ent} (taken : entry elf n = .ok (some ent)) :
        ent.st_shndx ≠ SHN_XINDEX ∧ (ent.st_shndx ∉ reserved → ent.st_shndx < elf.nsec) ∧
          if ent.type = STT_SECTION then ent.st_shndx ∉ reserved else Ends elf.symstr ent.st_name := by
      cases isTable : elf.symtab with
      | none =>
        rw [entry, if_pos (.inl isTable)] at taken
        cases taken
      | some t =>
        have table := from'.some t isTable
        rw [table.entry isTable n] at taken
        split at taken
        · rename_i small
          cases taken
          obtain ⟨plain, ordinary⟩ := table.valid small
          obtain ⟨positive, low⟩ := table.index_small small
          rw [table.nsym] at small
          have needed := symbols t table.table (index n) small positive low
          obtain ⟨name, info, shndx⟩ := @symAt_fields order file (File.symbol order file t (index n))
          rw [← table.symstr] at needed
          refine ⟨plain, ordinary, ?_⟩
          rw [Ent.type, info, shndx, name]
          exact needed
        · cases taken
    refine ⟨fun n => ?_, fun n => (getsec_ok from' n).mpr fun small => string _ small,
      fun n ent taken i member => ?_⟩
    · obtain ⟨_ | ent, read⟩ := entry_ok from' n
      · exact ⟨none, by rw [elf64getsym, read]; rfl⟩
      · obtain ⟨plain, ordinary, needed⟩ := found read
        rw [getsym_ok from' read plain ordinary, symname]
        split at needed
        · rename_i isSection
          have small := ordinary needed
          rw [if_pos isSection, header_found from' small, elf64str_ok, (shdrAt_fields _).1]
          exact string _ small
        · rename_i other
          rw [if_neg other, elf64str_ok]
          exact needed
    · obtain ⟨plain, -, needed⟩ := found taken
      rcases List.mem_append.mp member with first | second
      · split at first
        · rename_i isSection
          rw [if_pos isSection] at needed
          rw [List.mem_singleton.mp first]
          exact fun listed => (List.mem_cons.mp listed).elim plain needed
        · exact (List.not_mem_nil first).elim
      · split at second
        · exact (List.not_mem_nil second).elim
        · rename_i ordinary
          rw [List.mem_singleton.mp second]
          exact ordinary

theorem reader_right (order : Order) (file : List UInt8) :
    RightReader order file ↔
      ¬File.Divides order file ∧ ((∃ elf, elf64read order file = .ok elf) → File.Named order file) := by
  constructor
  · rintro ⟨division, inside⟩
    refine ⟨fun divides => division (elf64read_divided.mpr divides), ?_⟩
    rintro ⟨elf, read⟩
    exact (inside_iff (read_from read)).mp (inside elf read)
  · rintro ⟨whole, named⟩
    refine ⟨fun divides => whole (elf64read_divided.mp divides), fun elf read => ?_⟩
    exact (inside_iff (read_from read)).mpr (named ⟨elf, read⟩)

/-- A relocatable file with one section, a symbol table whose entries have size 0. -/
def emptyEntries : List UInt8 :=
  [127, 69, 76, 70, 2, 1, 1] ++ List.replicate 9 0 ++ [1, 0, 62, 0, 1, 0, 0, 0] ++ List.replicate 16 0 ++
    [64, 0, 0, 0, 0, 0, 0, 0] ++ List.replicate 12 0 ++ [1, 0, 0, 0] ++
    [0, 0, 0, 0, 2, 0, 0, 0] ++ List.replicate 56 0

set_option maxRecDepth 2000 in
theorem emptyEntries_divides : ¬RightReader .LITTLE_ENDIAN emptyEntries :=
  fun right => right.division rfl

end Scc.Libmach.Elf
