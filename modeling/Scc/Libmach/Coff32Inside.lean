import Scc.Libmach.Coff32Symbols

set_option linter.all false

/-! Which files `coff32read` takes that hold all that `coff32getsym` and `coff32getsec` look for. -/
namespace Scc.Libmach
open Transition

variable {order : Order} {file : List UInt8} {coff : Coff32}

/-- All accesses to the symbols and the sections of an object are inside its tables. The first four
bytes of the string table are never set. -/
structure Inside (coff : Coff32) : Prop where
  getsym : ∀ n sym, ∃ r, coff32getsym coff n sym = .ok r
  getsec : ∀ n, ∃ r, coff32getsec coff n = .ok r
  scnums : ∀ ent ∈ coff.ents.getD [], ent.n_scnum.toInt ≤ coff.nscns
  names : ∀ ent ∈ coff.ents.getD [], ent.zeroes = true →
    ent.n_offset < coff.strsiz ∧ 0 ∈ coff.strtbl.drop (max ent.n_offset.toNat 4)
  relocs : ∀ i < coff.nscns, ∀ rel ∈ coff.relocs i, rel.r_symndx < coff.hdr.f_nsyms

/-! ## Fields of a file -/

/-- The value of the field of a file that starts at `pos`. -/
def field (order : Order) (file : List UInt8) (pos width : Nat) : Nat :=
  bytesValue (order.arrange ((file.drop pos).take width))

namespace File

def nscns (order : Order) (file : List UInt8) : Nat := field order file 2 2
def symptr (order : Order) (file : List UInt8) : Nat := field order file 8 4
def nsyms (order : Order) (file : List UInt8) : Nat := field order file 12 4
def flags (order : Order) (file : List UInt8) : Nat := field order file 18 2

/-- Where entry `i` is. -/
def entry (order : Order) (file : List UInt8) (i : Nat) : Nat := symptr order file + SYMESZ * i

def scnum (order : Order) (file : List UInt8) (i : Nat) : Int :=
  (Int16.ofInt (field order file (entry order file i + 12) 2)).toInt

/-- The name of entry `i` is in the string table. -/
def LongName (order : Order) (file : List UInt8) (i : Nat) : Prop :=
  field order file (entry order file i) 4 = 0

instance (i : Nat) : Decidable (LongName order file i) := inferInstanceAs (Decidable (_ = 0))

def offset (order : Order) (file : List UInt8) (i : Nat) : Nat :=
  field order file (entry order file i + 4) 4

/-- Where the string table is, which starts with its size. -/
def strings (order : Order) (file : List UInt8) : Nat := entry order file (nsyms order file)

def strsiz (order : Order) (file : List UInt8) : Nat := field order file (strings order file) 4

/-- What a file must have. -/
structure Inside (order : Order) (file : List UInt8) : Prop where
  scnums : ∀ i < nsyms order file, scnum order file i ≤ nscns order file
  low : UInt16.ofNat (flags order file) &&& F_LSYMS = 0 →
    ∀ i < nsyms order file, -2 ≤ scnum order file i
  names : ∀ i < nsyms order file, LongName order file i →
    0 ∈ (file.drop (strings order file + max (offset order file i) 4)).take
      (strsiz order file - max (offset order file i) 4)

end File

theorem field_take (pos n k w : Nat) (small : k + w ≤ n) :
    bytesValue (order.arrange ((((file.drop pos).take n).drop k).take w)) =
      field order file (pos + k) w := by
  rw [field, List.drop_take, List.drop_drop, List.take_take, Nat.min_eq_left (by omega)]

theorem bytesValue_zero (bytes : List UInt8) : bytesValue bytes = 0 ↔ bytes.all (· == 0) := by
  induction bytes with
  | nil => simp [bytesValue]
  | cons b bytes ih =>
    have zero : b.toNat = 0 ↔ b = 0 := ⟨fun h => UInt8.toNat_inj.mp h, fun h => by rw [h]; rfl⟩
    rw [bytesValue, List.all_cons, Bool.and_eq_true, ← ih, beq_iff_eq, ← zero]
    omega

theorem field_zero (bytes : List UInt8) :
    bytesValue (order.arrange bytes) = 0 ↔ bytes.all (· == 0) := by
  rw [bytesValue_zero]
  cases order
  · rfl
  · simp [Order.arrange]

theorem bytesValue_lt (bytes : List UInt8) : bytesValue bytes < 256 ^ bytes.length := by
  induction bytes with
  | nil => exact Nat.one_pos
  | cons b bytes ih =>
    have low := b.toNat_lt
    rw [bytesValue, List.length_cons, Nat.pow_succ]
    omega

theorem field_lt (pos width : Nat) : field order file pos width < 256 ^ width := by
  refine Nat.lt_of_lt_of_le (bytesValue_lt _) (Nat.pow_le_pow_right (by decide) ?_)
  rw [Order.length_arrange]
  exact List.length_take_le width _

theorem ofInt_natCast (n : Nat) : UInt16.ofInt n = .ofNat n := by
  rw [UInt16.ofInt, ← UInt16.toNat_inj, UInt16.toNat_ofNat', UInt16.toNat_ofNat']
  omega

/-- The eight bytes of a name are zero only if there are no others. -/
theorem nameOf_zero (bytes : List UInt8) (length : bytes.length = 8) :
    (nameOf bytes).toList.all (· == 0) = bytes.all (· == 0) := by
  have same : (nameOf bytes).toList = bytes := by
    refine List.ext_getElem (by simp [length]) ?_
    intro i small small'
    simp [nameOf, List.getD_eq_getElem?_getD, List.getElem?_eq_getElem small']
  rw [same]

theorem unpackEnt_eq (buf : List UInt8) : unpackEnt order buf = .ok
    { n_name := if ((buf.take 8).take 4).all (· == 0) then nameOf [] else nameOf (buf.take 8)
      n_offset :=
        if ((buf.take 8).take 4).all (· == 0) then
          bytesValue (order.arrange (((buf.take 8).drop 4).take 4))
        else 0
      n_value := bytesValue (order.arrange ((buf.drop 8).take 4))
      n_scnum := .ofInt (bytesValue (order.arrange (((buf.drop 8).drop 4).take 2)))
      n_type := .ofInt (bytesValue (order.arrange ((((buf.drop 8).drop 4).drop 2).take 2)))
      n_sclass := .ofInt (bytesValue (order.arrange (((((buf.drop 8).drop 4).drop 2).drop 2).take 1)))
      n_numaux :=
        .ofInt (bytesValue (order.arrange
          ((((((buf.drop 8).drop 4).drop 2).drop 2).drop 1).take 1))) } :=
  rfl

/-- The fields of an entry. -/
theorem unpackEnt_fields (pos : Nat) (long : SYMESZ ≤ (file.drop pos).length) {ent : Syment}
    (read : unpackEnt order ((file.drop pos).take SYMESZ) = .ok ent) :
    ent.n_scnum = .ofInt (field order file (pos + 12) 2) ∧
      (ent.zeroes = true ↔ field order file pos 4 = 0) ∧
      (ent.zeroes = true → ent.n_offset = field order file (pos + 4) 4) := by
  rw [unpackEnt_eq] at read
  cases read
  have start : (((file.drop pos).take SYMESZ).take 8).take 4 = (file.drop pos).take 4 := by
    rw [List.take_take, List.take_take]
    rfl
  have isLong : ((((file.drop pos).take SYMESZ).take 8).take 4).all (· == 0) = true ↔
      field order file pos 4 = 0 := by
    rw [field, field_zero, start]
  have name : ((((file.drop pos).take SYMESZ).take 8)).length = 8 := by
    rw [List.length_take, List.length_take]
    simp only [SYMESZ] at long ⊢
    omega
  have value : bytesValue (order.arrange (((((file.drop pos).take SYMESZ).take 8).drop 4).take 4)) =
      field order file (pos + 4) 4 := by
    rw [List.take_take]
    exact field_take pos 8 4 4 (Nat.le_refl 8)
  refine ⟨?_, ?_, ?_⟩
  · dsimp only
    rw [List.drop_drop]
    exact congrArg (fun v : Nat => Int16.ofInt v) (field_take pos SYMESZ 12 2 (by decide))
  · rw [← isLong]
    simp only [Syment.zeroes]
    split
    · rename_i all
      simp only [all, iff_true]
      decide
    · rename_i some
      rw [nameOf_zero _ name]
      refine iff_of_false ?_ some
      intro all
      exact some (List.all_eq_true.mpr fun b mem => List.all_eq_true.mp all b (List.mem_of_mem_take mem))
  · simp only [Syment.zeroes]
    split
    · intro _
      rw [value]
    · rename_i some
      rw [nameOf_zero _ name]
      intro all
      exact absurd
        (List.all_eq_true.mpr fun b mem => List.all_eq_true.mp all b (List.mem_of_mem_take mem)) some

/-! ## What is read -/

theorem readentsFrom_entries (nscns : Int) (n : Nat) (ents ents' : List Syment)
    (rest rest' : List UInt8) (read : readentsFrom order nscns n ents rest = .ok (ents', rest')) :
    ∃ more, ents' = ents ++ more ∧ more.length = n ∧ rest' = rest.drop (SYMESZ * n) ∧
      SYMESZ * n ≤ rest.length ∧ ∀ i ent, more[i]? = some ent →
        unpackEnt order ((rest.drop (SYMESZ * i)).take SYMESZ) = .ok ent := by
  induction n generalizing ents rest with
  | zero =>
    cases read
    exact ⟨[], by simp⟩
  | succ n ih =>
    simp only [readentsFrom] at read
    obtain ⟨⟨buf, after⟩, fetched, read⟩ := bind_ok.mp read
    obtain ⟨ent, unpack, read⟩ := bind_ok.mp read
    unfold fread at fetched
    split at fetched
    · rename_i long
      cases fetched
      obtain ⟨-, read⟩ := guard_ok.mp read
      obtain ⟨more, rfl, length, rfl, rest_long, each⟩ := ih _ _ read
      refine ⟨ent :: more, by simp, by simp [length], ?_, ?_, ?_⟩
      · rw [List.drop_drop, Nat.mul_succ, Nat.add_comm]
      · rw [List.length_drop] at rest_long
        rw [Nat.mul_succ]
        omega
      · intro i found at'
        cases i with
        | zero =>
          cases at'
          exact unpack
        | succ i =>
          have here := each i found at'
          rwa [List.drop_drop, Nat.add_comm, ← Nat.mul_succ] at here
    · cases fetched

theorem readscns_length (n : Nat) (rest rest' : List UInt8) (scns : List Scnhdr)
    (read : readscns order n rest = .ok (scns, rest')) : scns.length = n := by
  induction n generalizing rest scns with
  | zero =>
    cases read
    rfl
  | succ n ih =>
    simp only [readscns] at read
    obtain ⟨-, read⟩ := guard_ok.mp read
    obtain ⟨scn, -, read⟩ := bind_ok.mp read
    obtain ⟨⟨scns', rest''⟩, more, read⟩ := bind_ok.mp read
    cases read
    rw [List.length_cons, ih _ _ more]

theorem readhdr_fields {hdr : Filehdr} {rest : List UInt8} (read : readhdr order file = .ok (hdr, rest)) :
    hdr.f_nscns = .ofNat (field order file 2 2) ∧ hdr.f_symptr = field order file 8 4 ∧
      hdr.f_nsyms = field order file 12 4 ∧ hdr.f_flags = .ofNat (field order file 18 2) := by
  unfold readhdr at read
  obtain ⟨⟨buf, after⟩, fetched, read⟩ := bind_ok.mp read
  obtain ⟨hdr', unpack, read⟩ := bind_ok.mp read
  unfold fread at fetched
  split at fetched
  · cases fetched
    cases read
    cases unpack
    have at' (k w : Nat) (small : k + w ≤ FILHSZ) :
        bytesValue (order.arrange (((file.take FILHSZ).drop k).take w)) = field order file k w := by
      have same := @field_take order file 0 FILHSZ k w small
      rwa [List.drop_zero, Nat.zero_add] at same
    simp only [List.drop_drop]
    refine ⟨?_, ?_, ?_, ?_⟩
    · exact (ofInt_natCast _).trans (congrArg UInt16.ofNat (at' 2 2 (by decide)))
    · exact congrArg Int.ofNat (at' 8 4 (by decide))
    · exact congrArg Int.ofNat (at' 12 4 (by decide))
    · exact (ofInt_natCast _).trans (congrArg UInt16.ofNat (at' 18 2 (by decide)))
  · cases fetched

theorem table_drop (rest : List UInt8) (size from4 : Nat) (low : 4 ≤ from4) :
    (List.replicate 4 0 ++ (rest.drop 4).take (size - 4)).drop from4 =
      (rest.drop from4).take (size - from4) := by
  obtain ⟨k, rfl⟩ := Nat.exists_eq_add_of_le low
  have short : (List.replicate 4 (0 : UInt8)).drop (4 + k) = [] :=
    List.drop_eq_nil_of_le (by simp)
  rw [List.drop_append, short, List.nil_append, List.length_replicate, List.drop_take, List.drop_drop,
    Nat.add_sub_cancel_left, Nat.sub_sub]

/-- The string table and its size. -/
theorem readstr_table {hdr : Filehdr} (some : hdr.f_nsyms ≠ 0) {rest str : List UInt8} {siz : Nat}
    (read : readstr order hdr rest = .ok (str, siz)) (off : Nat) :
    (off < siz ∧ 0 ∈ str.drop (max off 4)) ↔
      0 ∈ (rest.drop (max off 4)).take (field order rest 0 4 - max off 4) := by
  simp only [readstr, if_neg some] at read
  obtain ⟨⟨buf, after⟩, fetched, read⟩ := bind_ok.mp read
  unfold fread at fetched
  split at fetched
  · rename_i long
    cases fetched
    have size : bytesValue (order.arrange (rest.take 4)) = field order rest 0 4 := rfl
    simp only [size] at read
    obtain ⟨-, read⟩ := guard_ok.mp read
    split at read
    · rename_i four
      cases read
      have none : field order rest 0 4 - max off 4 = 0 := by omega
      rw [none]
      simp
    · obtain ⟨⟨bytes, _⟩, fetched, read⟩ := bind_ok.mp read
      cases read
      unfold fread at fetched
      split at fetched
      · cases fetched
        have shape := @table_drop rest (field order rest 0 4) (max off 4) (Nat.le_max_right off 4)
        rw [shape]
        constructor
        · exact And.right
        · intro inside
          refine ⟨?_, inside⟩
          by_contra above
          have none : field order rest 0 4 - max off 4 = 0 := by omega
          rw [none] at inside
          simp at inside
      · cases fetched
  · cases fetched

/-- The symbols of the relocations that are read exist. -/
theorem readrelocFrom_symbols (nsyms : Int) (i n : Nat) (rp rp' : List Reloc) (rest : List UInt8)
    (read : readrelocFrom order nsyms i n rp rest = .ok rp') (zero : n = 0 → 0 < nsyms)
    (before : ∀ rel ∈ rp, rel = .zero ∨ rel.r_symndx < nsyms) :
    0 < nsyms ∧ ∀ rel ∈ rp', rel = .zero ∨ rel.r_symndx < nsyms := by
  induction n generalizing rp rest with
  | zero =>
    cases read
    exact ⟨zero rfl, before⟩
  | succ n ih =>
    simp only [readrelocFrom] at read
    obtain ⟨⟨buf, after⟩, -, read⟩ := bind_ok.mp read
    obtain ⟨rel, unpack, read⟩ := bind_ok.mp read
    obtain ⟨-, read⟩ := guard_ok.mp read
    obtain ⟨inside, read⟩ := guard_ok.mp read
    have low : 0 ≤ rel.r_symndx := by
      cases unpack
      exact Int.natCast_nonneg _
    refine ih _ _ read (fun _ => by omega) ?_
    intro other member
    rcases List.mem_or_eq_of_mem_set member with old | rfl
    · exact before other old
    · exact .inr (by omega)

theorem readreloc_symbols (hdr : Filehdr) (i : Nat) (scns : List Scnhdr)
    (rels : List (Option (List Reloc))) (read : readreloc order hdr file i scns = .ok rels) :
    ∀ rp ∈ rels, ∀ rel ∈ rp.getD [], rel.r_symndx < hdr.f_nsyms := by
  induction scns generalizing i rels with
  | nil =>
    cases read
    intro rp member
    exact (List.not_mem_nil member).elim
  | cons scn scns ih =>
    simp only [readreloc] at read
    obtain ⟨first, here, read⟩ := bind_ok.mp read
    obtain ⟨more, rest, read⟩ := bind_ok.mp read
    cases read
    refine List.forall_mem_cons.mpr ⟨?_, ih _ _ rest⟩
    unfold readrelocSection at here
    split at here
    · cases here
      intro rel member
      exact (List.not_mem_nil member).elim
    · rename_i some
      obtain ⟨bytes, -, here⟩ := bind_ok.mp here
      obtain ⟨rp, from', here⟩ := bind_ok.mp here
      cases here
      have count : scn.s_nrelloc.toNat ≠ 0 := fun zero => some (UInt16.toNat_inj.mp zero)
      obtain ⟨positive, each⟩ := readrelocFrom_symbols _ _ _ _ _ _ from'
        (fun zero => absurd zero count)
        (fun rel member => .inl (List.eq_of_mem_replicate member))
      intro rel member
      rcases each rel member with rfl | small
      · exact positive
      · exact small

/-- An object as it was read from a file. -/
structure ReadFrom (order : Order) (file : List UInt8) (coff : Coff32) : Prop where
  scns : coff.scns.length = coff.nscns
  nscns : coff.nscns = File.nscns order file
  nsyms : coff.hdr.f_nsyms = File.nsyms order file
  flags : coff.hdr.f_flags = .ofNat (File.flags order file)
  ents : (coff.ents.getD []).length = File.nsyms order file
  each : ∀ i ent, (coff.ents.getD [])[i]? = some ent →
    SYMESZ ≤ (file.drop (File.entry order file i)).length ∧
      unpackEnt order ((file.drop (File.entry order file i)).take SYMESZ) = .ok ent
  table : 0 < File.nsyms order file →
    readstr order coff.hdr (file.drop (File.strings order file)) = .ok (coff.strtbl, coff.strsiz)
  relocs : ∀ i < coff.nscns, ∀ rel ∈ coff.relocs i, rel.r_symndx < coff.hdr.f_nsyms

theorem readents_entries {hdr : Filehdr} {rest left : List UInt8} {ents : Option (List Syment)}
    (symptr : hdr.f_symptr = File.symptr order file) (nsyms : hdr.f_nsyms = File.nsyms order file)
    (read : readents order hdr file rest = .ok (ents, left)) :
    (ents.getD []).length = File.nsyms order file ∧
      (0 < File.nsyms order file → left = file.drop (File.strings order file)) ∧
      ∀ i ent, (ents.getD [])[i]? = some ent →
        SYMESZ ≤ (file.drop (File.entry order file i)).length ∧
          unpackEnt order ((file.drop (File.entry order file i)).take SYMESZ) = .ok ent := by
  unfold readents at read
  split at read
  · rename_i none
    cases read
    have zero : File.nsyms order file = 0 := by omega
    refine ⟨zero.symm, fun some => absurd zero (Nat.ne_of_gt some), ?_⟩
    intro i ent found
    simp at found
  · obtain ⟨start, place, read⟩ := bind_ok.mp read
    obtain ⟨⟨ents', left'⟩, entries, read⟩ := bind_ok.mp read
    cases read
    unfold objpos at place
    rw [if_neg (by omega), symptr, Int.toNat_natCast] at place
    cases place
    rw [nsyms, Int.toNat_natCast] at entries
    obtain ⟨more, rfl, length, rfl, long, each⟩ := readentsFrom_entries _ _ _ _ _ _ entries
    refine ⟨length, fun _ => ?_, ?_⟩
    · rw [List.drop_drop]
      rfl
    · intro i ent found
      have small : i < ents'.length := (List.getElem?_eq_some_iff.mp found).1
      have unpack := each i ent found
      rw [List.drop_drop] at unpack
      refine ⟨?_, unpack⟩
      have room : SYMESZ * (i + 1) ≤ SYMESZ * File.nsyms order file :=
        Nat.mul_le_mul_left _ (by omega)
      rw [List.length_drop] at long ⊢
      rw [Nat.mul_succ] at room
      simp only [File.entry]
      omega

theorem read_from (read : coff32read order file = .ok coff) : ReadFrom order file coff := by
  unfold coff32read at read
  obtain ⟨⟨hdr, rest⟩, readHdr, read⟩ := bind_ok.mp read
  obtain ⟨⟨aout, rest⟩, -, read⟩ := bind_ok.mp read
  obtain ⟨⟨scns, rest⟩, readScns, read⟩ := bind_ok.mp read
  obtain ⟨⟨ents, left⟩, readEnts, read⟩ := bind_ok.mp read
  obtain ⟨⟨strtbl, strsiz⟩, readStr, read⟩ := bind_ok.mp read
  obtain ⟨rels, readRels, read⟩ := bind_ok.mp read
  obtain ⟨lines, -, read⟩ := bind_ok.mp read
  obtain ⟨-, read⟩ := guard_ok.mp read
  cases read
  obtain ⟨nscns, symptr, nsyms, flags⟩ := readhdr_fields readHdr
  obtain ⟨count, after, each⟩ := readents_entries symptr nsyms readEnts
  have symbols := readreloc_symbols _ _ _ _ readRels
  refine ⟨readscns_length _ _ _ _ readScns, ?_, nsyms, flags, count, each, ?_, ?_⟩
  · have small := @field_lt order file 2 2
    simp only [Coff32.nscns, nscns, File.nscns]
    exact UInt16.toNat_ofNat_of_lt' small
  · intro some
    rw [← after some]
    exact readStr
  · intro i _ rel member
    simp only [Coff32.relocs] at member
    split at member
    · simp at member
    · rw [Option.getD_some, List.getD_eq_getElem?_getD] at member
      cases found : rels[i]? with
      | none => simp [found] at member
      | some rp =>
        rw [found, Option.getD_some] at member
        exact symbols rp (List.mem_of_getElem? found) rel member

/-- What is read for the symbols has what it needs exactly when the file has. -/
theorem ReadFrom.names_iff (from_ : ReadFrom order file coff) {i : Nat} {ent : Syment}
    (found : (coff.ents.getD [])[i]? = some ent) :
    ent.n_scnum.toInt = File.scnum order file i ∧
      (ent.zeroes = true ↔ File.LongName order file i) ∧
      (ent.zeroes = true →
        ent.n_offset = File.offset order file i ∧
        ((ent.n_offset < coff.strsiz ∧ 0 ∈ coff.strtbl.drop (max ent.n_offset.toNat 4)) ↔
          0 ∈ (file.drop (File.strings order file + max (File.offset order file i) 4)).take
            (File.strsiz order file - max (File.offset order file i) 4))) := by
  obtain ⟨long, unpack⟩ := from_.each i ent found
  obtain ⟨scnum, zeroes, offset⟩ := unpackEnt_fields _ long unpack
  refine ⟨by rw [scnum]; rfl, zeroes, ?_⟩
  intro zero
  have place : ent.n_offset = File.offset order file i := offset zero
  have some : i < File.nsyms order file := by
    rw [← from_.ents]
    exact (List.getElem?_eq_some_iff.mp found).1
  have count : coff.hdr.f_nsyms ≠ 0 := by
    rw [from_.nsyms]
    omega
  have table := readstr_table count (from_.table (by omega)) (File.offset order file i)
  have size : field order (file.drop (File.strings order file)) 0 4 = File.strsiz order file := rfl
  rw [List.drop_drop, size] at table
  refine ⟨place, ?_⟩
  rw [place, Int.toNat_natCast, ← table]
  simp

theorem stringAt_ok {strtbl : List UInt8} {offset : Nat} (ended : 0 ∈ strtbl.drop (max offset 4)) :
    ∃ name, stringAt strtbl offset = .ok name := by
  have inside : 0 ∈ strtbl.drop offset := by
    obtain ⟨k, more⟩ := Nat.exists_eq_add_of_le (Nat.le_max_left offset 4)
    rw [more, ← List.drop_drop] at ended
    exact List.mem_of_mem_drop ended
  refine ⟨_, if_neg ?_⟩
  rintro (low | none)
  · omega
  · exact none (by simpa using inside)

/-- The type of an entry can be told when its section number is that of a section or a special
one. -/
theorem typeof_ok_iff (scns : coff.scns.length = coff.nscns) (ent : Syment)
    (high : ent.n_scnum.toInt ≤ coff.nscns) :
    (∃ c, coff.typeof ent = .ok c) ↔ -2 ≤ ent.n_scnum.toInt := by
  have special (k : Int16) : ent.n_scnum = k ↔ ent.n_scnum.toInt = k.toInt := Int16.toInt_inj.symm
  have debug : N_DEBUG.toInt = -2 := rfl
  have abs : N_ABS.toInt = -1 := rfl
  have undef : N_UNDEF.toInt = 0 := rfl
  unfold Coff32.typeof
  simp only [special, debug, abs, undef, Int16.lt_iff_toInt_lt]
  split
  · simp [bind, Except.bind, pure, Except.pure, *]
  · split
    · simp [bind, Except.bind, pure, Except.pure, *]
    · split
      · simp [bind, Except.bind, pure, Except.pure, *]
      · split
        · rename_i negative
          have low : ¬-2 ≤ ent.n_scnum.toInt := by
            have zero : (0 : Int16).toInt = 0 := rfl
            omega
          simp [bind, Except.bind, low]
        · rename_i positive
          have zero : (0 : Int16).toInt = 0 := rfl
          have inside : ent.n_scnum.toNatClampNeg - 1 < coff.scns.length := by
            rw [scns, Int16.toNatClampNeg]
            omega
          rw [List.getElem?_eq_getElem inside]
          simp only [bind, Except.bind, pure, Except.pure]
          exact iff_of_true ⟨_, rfl⟩ (by omega)

/-- Every file that is read has its symbols, names and sections inside its tables if and only if
the file meets `File.Inside`. -/
theorem read_inside (read : coff32read order file = .ok coff) :
    Inside coff ↔ File.Inside order file := by
  have from_ := read_from read
  constructor
  · intro inside
    have entry (i : Nat) (small : i < File.nsyms order file) :
        ∃ ent, (coff.ents.getD [])[i]? = some ent :=
      ⟨_, List.getElem?_eq_getElem (by rw [from_.ents]; exact small)⟩
    refine ⟨?_, ?_, ?_⟩
    · intro i small
      obtain ⟨ent, found⟩ := entry i small
      rw [← (from_.names_iff found).1, ← from_.nscns]
      exact inside.scnums ent (List.mem_of_getElem? found)
    · intro lsyms i small
      obtain ⟨ent, found⟩ := entry i small
      obtain ⟨scnum, -, -⟩ := from_.names_iff found
      obtain ⟨r, got⟩ := inside.getsym i ⟨[], 0, 0, 0, 0, 'U', 0⟩
      have high := inside.scnums ent (List.mem_of_getElem? found)
      rw [← scnum, ← typeof_ok_iff from_.scns ent high]
      have count : ¬((i : Int) ≥ coff.hdr.f_nsyms) := by
        rw [from_.nsyms]
        omega
      rw [coff32getsym, if_neg (by simp [from_.flags, lsyms, count]), found] at got
      obtain ⟨name, -, got⟩ := bind_ok.mp got
      obtain ⟨type, typed, -⟩ := bind_ok.mp got
      exact ⟨type, typed⟩
    · intro i small long
      obtain ⟨ent, found⟩ := entry i small
      obtain ⟨-, zeroes, names⟩ := from_.names_iff found
      exact (names (zeroes.mpr long)).2.mp
        (inside.names ent (List.mem_of_getElem? found) (zeroes.mpr long))
  · intro has
    have entry (ent : Syment) (member : ent ∈ coff.ents.getD []) :
        ∃ i < File.nsyms order file, (coff.ents.getD [])[i]? = some ent := by
      obtain ⟨i, small, rfl⟩ := List.mem_iff_getElem.mp member
      exact ⟨i, by rwa [← from_.ents], List.getElem?_eq_getElem small⟩
    have scnums : ∀ ent ∈ coff.ents.getD [], ent.n_scnum.toInt ≤ coff.nscns := by
      intro ent member
      obtain ⟨i, small, found⟩ := entry ent member
      rw [(from_.names_iff found).1, from_.nscns]
      exact has.scnums i small
    have names : ∀ ent ∈ coff.ents.getD [], ent.zeroes = true →
        ent.n_offset < coff.strsiz ∧ 0 ∈ coff.strtbl.drop (max ent.n_offset.toNat 4) := by
      intro ent member zero
      obtain ⟨i, small, found⟩ := entry ent member
      obtain ⟨-, zeroes, names⟩ := from_.names_iff found
      exact (names zero).2.mpr (has.names i small (zeroes.mp zero))
    refine ⟨?_, ?_, scnums, names, from_.relocs⟩
    · intro n sym
      unfold coff32getsym
      split
      · exact ⟨_, rfl⟩
      · rename_i here
        push Not at here
        obtain ⟨shown, small⟩ := here
        rw [from_.nsyms] at small
        have small' : n < (coff.ents.getD []).length := by
          rw [from_.ents]
          omega
        rw [List.getElem?_eq_getElem small']
        have found := List.getElem?_eq_getElem small'
        have member := List.getElem_mem small'
        obtain ⟨scnum, zeroes, -⟩ := from_.names_iff found
        have low := has.low (from_.flags ▸ shown) n (by omega)
        obtain ⟨c, typed⟩ := (typeof_ok_iff from_.scns _ (scnums _ member)).mpr (by rwa [scnum])
        have named : ∃ name, coff.symname (coff.ents.getD [])[n] = .ok name := by
          unfold Coff32.symname
          split
          · rename_i zero
            obtain ⟨-, ended⟩ := names _ member zero
            obtain ⟨-, -, long⟩ := from_.names_iff found
            rw [(long zero).1, Int.toNat_natCast] at ended
            rw [(long zero).1]
            exact stringAt_ok ended
          · exact ⟨_, rfl⟩
        obtain ⟨name, named⟩ := named
        dsimp only
        rw [named, typed]
        exact ⟨_, rfl⟩
    · intro n
      unfold coff32getsec
      split
      · exact ⟨_, rfl⟩
      · rename_i small
        rw [List.getElem?_eq_getElem (by rw [from_.scns]; omega)]
        exact ⟨_, rfl⟩

/-- A file without sections and with two symbols, the second of them in section `scnum`. -/
def twoSymbols (scnum : UInt8) : List UInt8 :=
  [0x4c, 1, 0, 0, 0, 0, 0, 0, 20, 0, 0, 0, 2, 0, 0, 0, 0, 0, 0, 0] ++
    [97, 0, 0, 0, 0, 0, 0, 0, 4, 0, 0, 0, 0, 0, 0, 0, 2, 0] ++
    [98, 0, 0, 0, 0, 0, 0, 0, 4, 0, 0, 0, scnum, 0, 0, 0, 2, 0] ++ [4, 0, 0, 0]

theorem read_inside_undefined :
    ∃ coff, coff32read .LITTLE_ENDIAN (twoSymbols 0) = .ok coff ∧ Inside coff := by
  have reads : ∃ coff, coff32read .LITTLE_ENDIAN (twoSymbols 0) = .ok coff := ⟨_, rfl⟩
  obtain ⟨coff, read⟩ := reads
  exact ⟨coff, read, (read_inside read).mpr ⟨by decide, by decide, by decide⟩⟩

/-- The section number of the second symbol is not looked at. -/
theorem second_symbol_outside :
    ¬∀ (order : Order) (file : List UInt8) (coff : Coff32),
      coff32read order file = .ok coff → Inside coff := by
  intro h
  have inside := h .LITTLE_ENDIAN (twoSymbols 5) _ rfl
  obtain ⟨r, got⟩ := inside.getsym 1 ⟨[], 0, 0, 0, 0, 'U', 0⟩
  cases got

end Scc.Libmach
