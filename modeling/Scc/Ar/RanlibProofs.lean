import Scc.Ar.EditPlaces
import Scc.Ar.HeaderProofs
import Scc.Ar.Ranlib
import Scc.Libmach.Coff32Inside

set_option linter.all false

/-! The offsets in the index of `ranlib` are those of the archive without it. -/
namespace Scc.Ar
open Libmach

variable {reader : Reader} {prop prop' : Fprop} {file : List UInt8} {entries : List Entry}

/-! ## Reading again -/

theorem scan_mono {fuel more cur : Nat} {r : Ranlib} {x : Ranlib × Bool} (le : fuel ≤ more)
    (done : scan reader file fuel cur r = some x) : scan reader file more cur r = some x := by
  induction fuel generalizing more cur r with
  | zero => cases done
  | succ fuel ih =>
    cases more with
    | zero => omega
    | succ more =>
      rw [scan] at done ⊢
      split at done
      · exact done
      · exact done
      · exact ih (Nat.le_of_succ_le_succ le) done

theorem readsyms_mono {fuel more : Nat} {x : Ranlib × Bool} (le : fuel ≤ more)
    (done : readsyms reader file fuel = some x) : readsyms reader file more = some x := by
  unfold readsyms at done ⊢
  split at done
  · rename_i other
    rw [if_pos other]
    exact done
  · rename_i magic
    rw [if_neg magic]
    dsimp only at done ⊢
    split at done
    · rename_i corrupted
      rw [if_pos corrupted]
      exact done
    · rename_i fine
      rw [if_neg fine]
      exact scan_mono le done

theorem readsyms_unique {fuel fuel' : Nat} {x y : Ranlib × Bool}
    (first : readsyms reader file fuel = some x) (second : readsyms reader file fuel' = some y) :
    x = y := by
  have left := readsyms_mono (Nat.le_max_left fuel fuel') first
  have right := readsyms_mono (Nat.le_max_right fuel fuel') second
  exact Option.some.inj (left.symm.trans right)

/-! ## The new archive -/

/-- The archive gets a new index. -/
def Indexes (reader : Reader) (file : List UInt8) (r : Ranlib) : Prop :=
  (∃ fuel, readsyms reader file fuel = some (r, true)) ∧ ∃ t, r.artype = some t ∧ FORMAT t = COFF32

/-- `ranlib` returns and there is nothing for an index. -/
def Settled (reader : Reader) (file : List UInt8) : Prop :=
  ∃ fuel r goes, readsyms reader file fuel = some (r, goes) ∧
    (goes = true → ∀ t, r.artype = some t → NFORMATS ≤ FORMAT t)

theorem ranlib_indexed {fuel : Nat} {out : List UInt8} {table : Symdefs} :
    ranlib reader prop fuel file = some (out, some table) ↔
      ∃ r, readsyms reader file fuel = some (r, true) ∧ (∃ t, r.artype = some t ∧ FORMAT t = COFF32) ∧
        table = r.table ∧ out = mergeIndex prop file (coff32xsetidx .BIG_ENDIAN r.table.indexed) := by
  unfold ranlib
  constructor
  · intro ran
    split at ran
    · cases ran
    · cases ran
    · rename_i r read
      split at ran
      · cases ran
      · rename_i t type
        split at ran
        · cases ran
        · split at ran
          · cases ran
          · rename_i coff
            cases ran
            exact ⟨r, read, ⟨t, type, not_not.mp coff⟩, rfl, rfl⟩
  · rintro ⟨r, read, ⟨t, type, coff⟩, rfl, rfl⟩
    have small : ¬FORMAT t ≥ NFORMATS := by rw [coff]; decide
    simp only [read, type, if_neg small, if_neg (not_not.mpr coff)]

theorem ranlib_settled (settled : Settled reader file) :
    ∃ fuel, ranlib reader prop fuel file = some (file, none) := by
  obtain ⟨fuel, r, goes, read, large⟩ := settled
  refine ⟨fuel, ?_⟩
  unfold ranlib
  rw [read]
  cases goes with
  | false => rfl
  | true =>
    dsimp only
    split
    · rfl
    · rename_i t type
      rw [if_pos (large rfl t type)]

/-- A return that leaves the archive without an index. -/
theorem settled_of_ranlib {fuel : Nat} {out : List UInt8}
    (ran : ranlib reader prop fuel file = some (out, none)) : Settled reader file := by
  unfold ranlib at ran
  split at ran
  · cases ran
  · rename_i r read
    refine ⟨fuel, r, false, read, ?_⟩
    rintro ⟨⟩
  · rename_i r read
    refine ⟨fuel, r, true, read, fun _ t type => ?_⟩
    rw [type] at ran
    dsimp only at ran
    split at ran
    · rename_i large
      exact large
    · split at ran
      · cases ran
      · cases ran

theorem length_indexMember (prop : Fprop) (idx : List UInt8) :
    hdrSize ≤ (indexMember prop idx).length := by
  have header := length_printHdr namidx prop.time prop.uid prop.gid prop.mode idx.length
  simp only [indexMember, List.length_append]
  omega

/-- Where the first name is not the one of the index up to its end, the index is put in front of all
members. -/
theorem mergeIndex_front {members : List UInt8} (long : hdrSize ≤ members.length)
    (other : sameName members = false) (prop : Fprop) (idx : List UInt8) :
    mergeIndex prop (ARMAG ++ members) idx = ARMAG ++ indexMember prop idx ++ members := by
  have behind : (ARMAG ++ members).drop SARMAG = members := rfl
  rw [mergeIndex, behind, if_neg (Nat.not_lt.mpr long), other]
  rfl

theorem sameName_index (prop : Fprop) (idx rest : List UInt8) :
    sameName (indexMember prop idx ++ rest) = false := by
  have front : ∃ more, indexMember prop idx ++ rest = [47, 32] ++ more := ⟨_, rfl⟩
  obtain ⟨more, same⟩ := front
  rw [same, sameName, arName, List.take_take]
  rfl

/-! ## Positions -/

/-- The members without an index in front. -/
def others : List Entry → List Entry
  | [] => []
  | e :: entries => if isIndex (armemberName e.bytes) then entries else e :: entries

/-- Where the data of the `k`th member of an archive is. -/
def dataAt (blocks : List (List UInt8)) (k : Nat) : Nat :=
  SARMAG + (blocks.take k).flatten.length + hdrSize

/-- The new archive has the new index and then the other members; the offset that the index holds for
a symbol is where the member it was taken from is now; and nothing changes any more. -/
structure Reindexed (reader : Reader) (prop prop' : Fprop) (entries : List Entry) (out : List UInt8)
    (table : Symdefs) : Prop where
  members : out = rendered (indexMember prop (coff32xsetidx .BIG_ENDIAN table.indexed) ::
    (others entries).map Entry.bytes)
  offsets : ∀ dp ∈ table.syms, ∃ k < (others entries).length,
    dp.offset = dataAt (entries.map Entry.bytes) (k + (entries.length - (others entries).length)) ∧
      dp.offset % 2 ^ 32 =
        dataAt (indexMember prop (coff32xsetidx .BIG_ENDIAN table.indexed) ::
          (others entries).map Entry.bytes) (k + 1)
  again : ∃ fuel table', ranlib reader prop' fuel out = some (out, table')

/-- Every archive that `ranlib` writes is right. -/
def RightIndexes (reader : Reader) (prop prop' : Fprop) (entries : List Entry) : Prop :=
  ∀ fuel out table,
    ranlib reader prop fuel (rendered (entries.map Entry.bytes)) = some (out, some table) →
      Reindexed reader prop prop' entries out table

/-- `ranlib` finds nothing for an index. Or it puts an index without symbols in front of members that
have none, because it stops at a member before it finds a symbol, and again finds nothing then. -/
def Plain (reader : Reader) (prop : Fprop) (entries : List Entry) : Prop :=
  (∀ r, ¬Indexes reader (rendered (entries.map Entry.bytes)) r) ∨
    others entries = entries ∧
      (∃ r, Indexes reader (rendered (entries.map Entry.bytes)) r ∧ r.table.syms = []) ∧
      Settled reader (rendered (indexMember prop (coff32xsetidx .BIG_ENDIAN []) ::
        entries.map Entry.bytes))

theorem entries_of_indexes {r : Ranlib}
    (indexes : Indexes reader (rendered (entries.map Entry.bytes)) r) :
    ∃ e rest, entries = e :: rest := by
  cases entries with
  | cons e rest => exact ⟨e, rest, rfl⟩
  | nil =>
    obtain ⟨⟨fuel, read⟩, -⟩ := indexes
    cases fuel with
    | zero => cases read
    | succ fuel => cases read

theorem sameName_entry {e : Entry} (plain : (0 : UInt8) ∉ arName e.bytes) (rest : List UInt8) :
    sameName (e.bytes ++ rest) = false := by
  have name : arName (e.bytes ++ rest) = arName e.bytes :=
    List.take_append_of_le_length (long_bytes e)
  rw [sameName, name]
  refine decide_eq_false fun same => plain (List.mem_of_mem_take (i := 2) ?_)
  rw [same]
  exact List.mem_append_right _ (List.mem_singleton_self 0)

theorem others_eq (entries : List Entry) :
    others entries = entries ∨ ∃ e, entries = e :: others entries := by
  cases entries with
  | nil => exact .inl rfl
  | cons e rest =>
    rw [others]
    split
    · exact .inr ⟨e, rfl⟩
    · exact .inl rfl

/-- The index is put in front of all members, also of an index that is there. -/
theorem ranlib_front (names : ∀ e ∈ entries, (0 : UInt8) ∉ arName e.bytes) {r : Ranlib}
    (indexes : Indexes reader (rendered (entries.map Entry.bytes)) r) (idx : List UInt8) :
    mergeIndex prop (rendered (entries.map Entry.bytes)) idx =
      rendered (indexMember prop idx :: entries.map Entry.bytes) := by
  obtain ⟨e, rest, rfl⟩ := entries_of_indexes indexes
  have long : hdrSize ≤ ((e :: rest).map Entry.bytes).flatten.length := by
    rw [List.map_cons, List.flatten_cons, List.length_append, Entry.bytes, List.length_append, e.length]
    omega
  have other : sameName ((e :: rest).map Entry.bytes).flatten = false :=
    sameName_entry (names e List.mem_cons_self) _
  rw [rendered, mergeIndex_front long other, rendered, List.flatten_cons, List.append_assoc]

theorem ranlib_again {fuel : Nat} {block : List UInt8} {idx : List UInt8} {table : Option Symdefs}
    (front : block = indexMember prop idx) (members : List (List UInt8))
    (same : ranlib reader prop' fuel (rendered (block :: members)) =
      some (rendered (block :: members), table)) : Settled reader (rendered (block :: members)) := by
  cases table with
  | none => exact settled_of_ranlib same
  | some table =>
    obtain ⟨r, -, -, -, merged⟩ := ranlib_indexed.mp same
    have long : hdrSize ≤ (block :: members).flatten.length := by
      have enough := length_indexMember prop idx
      rw [List.flatten_cons, List.length_append, front]
      omega
    have other : sameName (block :: members).flatten = false := by
      rw [List.flatten_cons, front]
      exact sameName_index prop idx _
    rw [rendered, mergeIndex_front long other] at merged
    have lengths := congrArg List.length merged
    have more := length_indexMember prop' (coff32xsetidx .BIG_ENDIAN r.table.indexed)
    simp only [List.length_append, hdrSize] at lengths more
    omega

theorem dataAt_cons (block : List UInt8) (blocks : List (List UInt8)) (k : Nat) :
    dataAt (block :: blocks) (k + 1) = dataAt blocks k + block.length := by
  simp only [dataAt, List.take_succ_cons, List.flatten_cons, List.length_append]
  omega

/-- A member of 60 bytes, an object with two common symbols. -/
def coffMember : Entry where
  info :=
    { hdr := 111 :: List.replicate 15 32 ++ 48 :: List.replicate 11 32 ++ 48 :: List.replicate 5 32 ++
        48 :: List.replicate 5 32 ++ 48 :: List.replicate 7 32 ++ [54, 48] ++ List.replicate 8 32 ++ ARFMAG
      fname := [111]
      size := 60
      mode := 0
      date := 0 }
  body := twoSymbols 0
  length := rfl
  valid := rfl
  whole := rfl

end Scc.Ar
