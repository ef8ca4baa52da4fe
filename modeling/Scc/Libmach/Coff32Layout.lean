import Scc.Libmach.Coff32Proofs
import Scc.Memory.Pieces

set_option linter.all false

/-! Where `coff32write` says that the tables of an object file are, and where they are. -/
namespace Scc.Libmach
open Transition Memory

namespace Coff32

def dataPieces (map : Map) (scns : List Scnhdr) : List Piece :=
  scns.filterMap fun scn => (map.findsec scn.name).map fun data => ⟨scn.s_scnptr, data⟩

def relocPieces (order : Order) (rels : Nat → List Reloc) (i : Nat) (scns : List Scnhdr) :
    List Piece :=
  (scns.zipIdx i).map fun (scn, i) => ⟨scn.s_relptr, sectionBytes order i (rels i)⟩

def linePieces (order : Order) (lines : Nat → List Lineno) (i : Nat) (scns : List Scnhdr) :
    List Piece :=
  (scns.zipIdx i).map fun (scn, i) =>
    ⟨scn.s_lnnoptr, (lines i).flatMap fun line => pack order line.args⟩

def symbolPieces (order : Order) (coff : Coff32) : List Piece :=
  if coff.hdr.f_nsyms = 0 then [] else [⟨coff.hdr.f_symptr, coff.entBytes order⟩]

/-- The tables of an object after its headers in the order they are written, each at the
place its file pointer says. -/
def pieces (order : Order) (map : Map) (coff : Coff32) : List Piece :=
  dataPieces map coff.scns ++ (relocPieces order coff.relocs 0 coff.scns ++
    (linePieces order coff.linenos 0 coff.scns ++ symbolPieces order coff))

def headerSize (coff : Coff32) : Nat := FILHSZ + coff.nscns * SCNHSZ

/-- The file pointers of an object are the offsets where its tables were written to the
image: the tables follow each other after the headers, without overlap, and the bytes of
each are found at its pointer. -/
structure LaidOut (order : Order) (map : Map) (coff : Coff32) (image : List UInt8) : Prop where
  split : ∃ headers str, image = headers ++ (written (coff.pieces order map) ++ str) ∧
    headers.length = coff.headerSize
  pointers : Consecutive coff.headerSize (coff.pieces order map)
  apart : (coff.pieces order map).Pairwise fun p q => p.fin ≤ q.start
  found : ∀ p ∈ coff.pieces order map, ∃ before after, image = before ++ (p.bytes ++ after) ∧
    p.start = before.length

variable {order : Order} {map : Map} {coff c : Coff32} {scns : List Scnhdr}

/-- The data starts where it is said to, and ends where the tables are said to start, exactly
when the sections have the sizes of their data. -/
theorem placeData_consecutive (ptr base : Int) (scns : List Scnhdr) :
    Consecutive base (dataPieces map (placeData map ptr scns).1) ∧
        (placeData map ptr scns).2 =
          base + (written (dataPieces map (placeData map ptr scns).1)).length ↔
      ptr = base ∧ ∀ scn ∈ scns, ∀ data ∈ map.findsec scn.name, (data.length : Int) = scn.s_size := by
  induction scns generalizing ptr base with
  | nil => simp [placeData, dataPieces, Consecutive, written]
  | cons scn scns ih =>
    have name (at' : Int) : Scnhdr.name { scn with s_scnptr := at' } = scn.name := rfl
    cases found : map.findsec scn.name with
    | none =>
      have rest := ih ptr base
      simp only [dataPieces] at rest
      simp only [placeData, dataPieces, found, Option.isSome_none, Bool.false_eq_true, if_false,
        List.filterMap_cons, name, Option.map_none, List.forall_mem_cons, Option.mem_def,
        reduceCtorEq, false_imp_iff, implies_true, true_and]
      exact rest
    | some data =>
      have rest := ih (ptr + scn.s_size) (base + data.length)
      simp only [dataPieces] at rest
      simp only [placeData, dataPieces, found, Option.isSome_some, if_true, List.filterMap_cons,
        name, Option.map_some, List.forall_mem_cons, Option.mem_def, Option.some.injEq,
        Consecutive, written, List.flatMap_cons, List.length_append, forall_eq']
      simp only [written] at rest
      constructor
      · rintro ⟨⟨rfl, later⟩, ends⟩
        obtain ⟨same, sizes⟩ := rest.mp ⟨later, by omega⟩
        exact ⟨rfl, by omega, sizes⟩
      · rintro ⟨rfl, same, sizes⟩
        obtain ⟨later, ends⟩ := rest.mpr ⟨by omega, sizes⟩
        exact ⟨⟨rfl, later⟩, by omega⟩

/-- The relocations have the places they are given, once the first has. -/
theorem placeRelocs_consecutive (rels : Nat → List Reloc) (i : Nat) (ptr base : Int)
    (scns : List Scnhdr)
    (counts : ∀ k < scns.length, (rels (i + k)).length = (scns[k]?.getD default).s_nrelloc.toNat)
    (inside : ∀ k < scns.length, rels (i + k) ≠ [] → i + k < (rels (i + k)).length) :
    (Consecutive base (relocPieces order rels i (placeRelocs ptr scns).1) ↔
        scns = [] ∨ ptr = base) ∧
      (placeRelocs ptr scns).2 =
        ptr + (written (relocPieces order rels i (placeRelocs ptr scns).1)).length := by
  induction scns generalizing i ptr base with
  | nil => simp [placeRelocs, relocPieces, Consecutive, written]
  | cons scn scns ih =>
    have length := @sectionBytes_length order i (rels i) (inside 0 (by simp))
    have count : (rels i).length = scn.s_nrelloc.toNat := counts 0 (by simp)
    obtain ⟨places, ends⟩ := ih (i + 1) (ptr + scn.s_nrelloc.toNat * RELSZ)
      (base + (sectionBytes order i (rels i)).length)
      (fun k small => by
        have := counts (k + 1) (by simpa using small)
        simpa [Nat.add_right_comm, Nat.add_assoc] using this)
      (fun k small => by
        have := inside (k + 1) (by simpa using small)
        simpa [Nat.add_right_comm, Nat.add_assoc] using this)
    rw [count] at length
    simp only [relocPieces] at places ends
    simp only [placeRelocs, relocPieces, List.zipIdx_cons, List.map_cons, Consecutive, written,
      List.flatMap_cons, List.length_append, List.cons_ne_nil, false_or, places]
    simp only [written] at ends
    have bytes : ((sectionBytes order i (rels i)).length : Int) =
        scn.s_nrelloc.toNat * RELSZ := by
      rw [length]
      simp [Int.mul_comm]
    constructor
    · constructor
      · exact And.left
      · rintro rfl
        exact ⟨rfl, .inr (by omega)⟩
    · omega

/-- Without line numbers the places they are given are all one. -/
theorem placeLines_consecutive (lines : Nat → List Lineno) (i : Nat) (ptr base : Int)
    (scns : List Scnhdr) (none : ∀ k < scns.length, lines (i + k) = [])
    (counts : ∀ k < scns.length, (scns[k]?.getD default).s_nlnno.toNat = 0) :
    (Consecutive base (linePieces order lines i (placeLines ptr scns).1) ↔
        scns = [] ∨ ptr = base) ∧
      written (linePieces order lines i (placeLines ptr scns).1) = [] := by
  induction scns generalizing i ptr base with
  | nil => simp [placeLines, linePieces, Consecutive, written]
  | cons scn scns ih =>
    have empty : lines i = [] := none 0 (by simp)
    have count : scn.s_nlnno.toNat = 0 := counts 0 (by simp)
    obtain ⟨places, bytes⟩ := ih (i + 1) (ptr + scn.s_nlnno.toNat * RELSZ) base
      (fun k small => by
        have := none (k + 1) (by simpa using small)
        simpa [Nat.add_right_comm, Nat.add_assoc] using this)
      (fun k small => by
        have := counts (k + 1) (by simpa using small)
        simpa using this)
    simp only [linePieces] at places bytes
    simp only [written] at bytes
    simp only [placeLines, linePieces, List.zipIdx_cons, List.map_cons, Consecutive, written,
      List.flatMap_cons, empty, List.flatMap_nil, List.nil_append, List.length_nil,
      Int.natCast_zero, Int.add_zero, places, bytes, List.cons_ne_nil, false_or, and_true]
    constructor
    · exact And.left
    · rintro rfl
      refine ⟨rfl, .inr ?_⟩
      simp [count]

theorem dataPieces_placeRelocs (ptr : Int) (scns : List Scnhdr) :
    dataPieces map (placeRelocs ptr scns).1 = dataPieces map scns := by
  induction scns generalizing ptr with
  | nil => rfl
  | cons scn scns ih =>
    have rest := ih (ptr + scn.s_nrelloc.toNat * RELSZ)
    simp only [dataPieces] at rest
    simp only [placeRelocs, dataPieces, List.filterMap_cons, rest]
    rfl

theorem dataPieces_placeLines (ptr : Int) (scns : List Scnhdr) :
    dataPieces map (placeLines ptr scns).1 = dataPieces map scns := by
  induction scns generalizing ptr with
  | nil => rfl
  | cons scn scns ih =>
    have rest := ih (ptr + scn.s_nlnno.toNat * RELSZ)
    simp only [dataPieces] at rest
    simp only [placeLines, dataPieces, List.filterMap_cons, rest]
    rfl

theorem relocPieces_placeLines (rels : Nat → List Reloc) (i : Nat) (ptr : Int)
    (scns : List Scnhdr) :
    relocPieces order rels i (placeLines ptr scns).1 = relocPieces order rels i scns := by
  induction scns generalizing i ptr with
  | nil => rfl
  | cons scn scns ih => exact congrArg (_ :: ·) (ih (i + 1) (ptr + scn.s_nlnno.toNat * RELSZ))

/-- A count that the placing of the tables keeps. -/
theorem count_of_kept {scns scns' : List Scnhdr} (same : scns'.map kept = scns.map kept) {k : Nat} :
    (scns'[k]?.getD default).s_nrelloc = (scns[k]?.getD default).s_nrelloc ∧
      (scns'[k]?.getD default).s_nlnno = (scns[k]?.getD default).s_nlnno := by
  have at' := congrArg (·[k]?) same
  simp only [List.getElem?_map] at at'
  cases h : scns[k]? with
  | none =>
    cases h' : scns'[k]? with
    | none => exact ⟨rfl, rfl⟩
    | some scn' => simp [h, h'] at at'
  | some scn =>
    cases h' : scns'[k]? with
    | none => simp [h, h'] at at'
    | some scn' =>
      simp only [h, h', Option.map_some, Option.some.injEq, kept, Prod.mk.injEq] at at'
      exact ⟨at'.2.2.1, at'.2.2.2⟩

theorem written_dataPieces (ptr : Int) (scns : List Scnhdr) :
    written (dataPieces map (placeData map ptr scns).1) =
      scns.flatMap fun scn => (map.findsec scn.name).getD [] := by
  induction scns generalizing ptr with
  | nil => rfl
  | cons scn scns ih =>
    have name (at' : Int) : Scnhdr.name { scn with s_scnptr := at' } = scn.name := rfl
    cases found : map.findsec scn.name with
    | none =>
      have rest := ih ptr
      simp only [dataPieces] at rest
      simpa [placeData, dataPieces, found, name] using rest
    | some data =>
      have rest := ih (ptr + scn.s_size)
      simp only [dataPieces, written] at rest
      simp [placeData, dataPieces, found, name, written, rest]

theorem written_relocPieces (rels : Nat → List Reloc) (i : Nat) (scns : List Scnhdr) :
    written (relocPieces order rels i scns) =
      (List.range' i scns.length).flatMap fun i => sectionBytes order i (rels i) := by
  induction scns generalizing i with
  | nil => rfl
  | cons scn scns ih =>
    rw [List.length_cons, List.range'_succ, List.flatMap_cons, ← ih]
    rfl

theorem relocBytes_nil (w : Writes coff) :
    coff.relocBytes order = [] ↔ ∀ i < coff.nscns, coff.relocs i = [] := by
  rw [relocBytes, List.flatMap_eq_nil_iff]
  simp only [List.mem_range]
  constructor
  · intro none i small
    have length := @sectionBytes_length order i _ (w.relocs i small)
    rw [none i small, List.length_nil] at length
    refine List.eq_nil_of_length_eq_zero ?_
    simp only [RELSZ] at length
    omega
  · intro none i small
    rw [none i small]
    rfl

theorem entBytes_nil (counted : Counted coff) (none : coff.hdr.f_nsyms = 0) :
    coff.entBytes order = [] := by
  have length := counted.syms
  rw [none] at length
  have empty : coff.ents.getD [] = [] := List.eq_nil_of_length_eq_zero (by omega)
  rw [entBytes, empty]
  rfl

/-! The three loops that place the tables. -/

def dataPlaced (map : Map) (coff : Coff32) : List Scnhdr × Int :=
  placeData map (FILHSZ + coff.hdr.f_opthdr.toNat + coff.nscns * SCNHSZ) coff.scns

def relocPlaced (map : Map) (coff : Coff32) : List Scnhdr × Int :=
  placeRelocs (coff.dataPlaced map).2 (coff.dataPlaced map).1

def linePlaced (map : Map) (coff : Coff32) : List Scnhdr × Int :=
  placeLines (coff.relocPlaced map).2 (coff.relocPlaced map).1

theorem left_eq (map : Map) (coff : Coff32) :
    (coff.left map).scns = (coff.linePlaced map).1 ∧ (coff.left map).rels = coff.rels ∧
      (coff.left map).lines = coff.lines ∧ (coff.left map).ents = coff.ents ∧
      (coff.left map).hdr = { coff.hdr with
        f_symptr := if coff.hdr.f_nsyms > 0 then (coff.dataPlaced map).2 else 0 } := by
  unfold left
  split
  · exact ⟨rfl, rfl, rfl, rfl, rfl⟩
  · exact ⟨rfl, rfl, rfl, rfl, rfl⟩

theorem left_pieces (map : Map) (coff : Coff32) :
    (coff.left map).pieces order map =
      dataPieces map (coff.dataPlaced map).1 ++
        (relocPieces order coff.relocs 0 (coff.relocPlaced map).1 ++
          (linePieces order coff.linenos 0 (coff.linePlaced map).1 ++
            symbolPieces order (coff.left map))) := by
  obtain ⟨scns, rels, lines, -, -⟩ := left_eq map coff
  have relocs : (coff.left map).relocs = coff.relocs := by
    funext i
    rw [Coff32.relocs, rels, Coff32.relocs]
  have linenos : (coff.left map).linenos = coff.linenos := by
    funext i
    rw [Coff32.linenos, lines, Coff32.linenos]
  rw [pieces, scns, relocs, linenos, linePlaced, dataPieces_placeLines, relocPieces_placeLines,
    relocPlaced, dataPieces_placeRelocs]

theorem dataPlaced_kept (map : Map) (coff : Coff32) :
    (coff.dataPlaced map).1.map kept = coff.scns.map kept :=
  placeData_kept _ _

theorem relocPlaced_kept (map : Map) (coff : Coff32) :
    (coff.relocPlaced map).1.map kept = coff.scns.map kept :=
  (placeRelocs_kept _ _).trans (dataPlaced_kept map coff)

theorem length_of_kept {scns scns' : List Scnhdr} (same : scns'.map kept = scns.map kept) :
    scns'.length = scns.length := by
  rw [← @List.length_map _ _ _ kept, same, List.length_map]

/-- The relocations as they are placed. -/
theorem relocPlaced_consecutive (counted : Counted coff) (w : Writes coff) (base : Int) :
    (Consecutive base (relocPieces order coff.relocs 0 (coff.relocPlaced map).1) ↔
        coff.scns = [] ∨ (coff.dataPlaced map).2 = base) ∧
      (coff.relocPlaced map).2 = (coff.dataPlaced map).2 + (coff.relocBytes order).length := by
  have same := dataPlaced_kept map coff
  have length : (coff.dataPlaced map).1.length = coff.nscns :=
    (length_of_kept same).trans counted.scns
  have found := @placeRelocs_consecutive order coff.relocs 0 (coff.dataPlaced map).2 base
    (coff.dataPlaced map).1
    (fun k small => by
      rw [Nat.zero_add, (count_of_kept same).1, counted.relocs k (by omega)]
      rfl)
    (fun k small => by
      rw [Nat.zero_add]
      exact w.relocs k (by omega))
  have none : (coff.dataPlaced map).1 = [] ↔ coff.scns = [] := by
    rw [← List.length_eq_zero_iff, length, ← counted.scns, List.length_eq_zero_iff]
  have bytes : written (relocPieces order coff.relocs 0 (coff.relocPlaced map).1) =
      coff.relocBytes order := by
    rw [written_relocPieces, length_of_kept (relocPlaced_kept map coff), counted.scns,
      ← List.range_eq_range', relocBytes]
  obtain ⟨places, ends⟩ := found
  rw [none] at places
  refine ⟨places, ?_⟩
  rw [← bytes]
  exact ends

theorem linePlaced_consecutive (counted : Counted coff) (w : Writes coff) (base : Int) :
    (Consecutive base (linePieces order coff.linenos 0 (coff.linePlaced map).1) ↔
        coff.scns = [] ∨ (coff.relocPlaced map).2 = base) ∧
      written (linePieces order coff.linenos 0 (coff.linePlaced map).1) = [] := by
  have same := relocPlaced_kept map coff
  have length : (coff.relocPlaced map).1.length = coff.nscns :=
    (length_of_kept same).trans counted.scns
  have found := @placeLines_consecutive order coff.linenos 0 (coff.relocPlaced map).2 base
    (coff.relocPlaced map).1
    (fun k small => by
      rw [Nat.zero_add]
      exact w.lines k (by omega))
    (fun k small => by
      have count := counted.lines k (by omega)
      rw [w.lines k (by omega), List.length_nil] at count
      rw [(count_of_kept same).2]
      exact count.symm)
  have none : (coff.relocPlaced map).1 = [] ↔ coff.scns = [] := by
    rw [← List.length_eq_zero_iff, length, ← counted.scns, List.length_eq_zero_iff]
  obtain ⟨places, bytes⟩ := found
  rw [none] at places
  exact ⟨places, bytes⟩

theorem symbolPieces_left (counted : Counted coff) (base : Int) :
    (Consecutive base (symbolPieces order (coff.left map)) ↔
        coff.hdr.f_nsyms = 0 ∨ (coff.dataPlaced map).2 = base) ∧
      written (symbolPieces order (coff.left map)) = coff.entBytes order := by
  obtain ⟨-, -, -, ents, hdr⟩ := left_eq map coff
  have bytes : (coff.left map).entBytes order = coff.entBytes order := by
    rw [entBytes, ents, entBytes]
  have some := counted.syms
  rw [symbolPieces, bytes, hdr]
  by_cases none : coff.hdr.f_nsyms = 0
  · simp [none, Consecutive, written, entBytes_nil counted none]
  · have positive : coff.hdr.f_nsyms > 0 := by omega
    simp [none, positive, Consecutive, written]

/-- What is written after the headers and before the string table. -/
theorem written_pieces (counted : Counted coff) (w : Writes coff) :
    written ((coff.left map).pieces order map) =
      coff.writedata map ++ (coff.relocBytes order ++ coff.entBytes order) := by
  have relocs : written (relocPieces order coff.relocs 0 (coff.relocPlaced map).1) =
      coff.relocBytes order := by
    rw [written_relocPieces, length_of_kept (relocPlaced_kept map coff), counted.scns,
      ← List.range_eq_range', relocBytes]
  rw [left_pieces, written_append, written_append, written_append, relocs,
    (linePlaced_consecutive counted w 0).2, (symbolPieces_left counted 0).2, dataPlaced,
    written_dataPieces, List.nil_append]
  rfl

/-- The pointers are those of the tables exactly when the sections have the sizes of their data
and no relocations come between the data and the symbols. -/
theorem pointers_iff (counted : Counted coff) (w : Writes coff) :
    Consecutive (coff.left map).headerSize ((coff.left map).pieces order map) ↔
      (∀ scn ∈ coff.scns, ∀ data ∈ map.findsec scn.name, (data.length : Int) = scn.s_size) ∧
        (coff.hdr.f_nsyms = 0 ∨ ∀ i < coff.nscns, coff.relocs i = []) := by
  have size : ((coff.left map).headerSize : Int) =
      FILHSZ + coff.hdr.f_opthdr.toNat + coff.nscns * SCNHSZ := by
    rw [headerSize, nscns, (left_eq map coff).2.2.2.2, w.opthdr]
    simp [nscns]
  have data := @placeData_consecutive map ((coff.left map).headerSize : Int)
    ((coff.left map).headerSize : Int) coff.scns
  have placed : placeData map ((coff.left map).headerSize : Int) coff.scns = coff.dataPlaced map := by
    rw [dataPlaced, size]
  rw [placed] at data
  have relocs : written (relocPieces order coff.relocs 0 (coff.relocPlaced map).1) =
      coff.relocBytes order := by
    rw [written_relocPieces, length_of_kept (relocPlaced_kept map coff), counted.scns,
      ← List.range_eq_range', relocBytes]
  have ends := (@relocPlaced_consecutive order map coff counted w 0).2
  simp only [true_and] at data
  rw [left_pieces, consecutive_append, consecutive_append, consecutive_append, relocs,
    (relocPlaced_consecutive counted w _).1, (linePlaced_consecutive counted w _).1,
    (linePlaced_consecutive counted w 0).2, (symbolPieces_left counted _).1, ends,
    ← @relocBytes_nil order coff w,
    ← @List.length_eq_zero_iff _ (coff.relocBytes order), ← data, List.length_nil]
  constructor
  · rintro ⟨first, second, -, last⟩
    have last' : (coff.dataPlaced map).2 = (coff.left map).headerSize +
        (written (dataPieces map (coff.dataPlaced map).1)).length := by
      rcases second with none | same
      · have empty : (coff.dataPlaced map).1 = [] := by
          rw [← List.length_eq_zero_iff, length_of_kept (dataPlaced_kept map coff), none]
          rfl
        have start : (coff.dataPlaced map).2 = (coff.left map).headerSize := by
          rw [dataPlaced, none, size]
          rfl
        simp [empty, start, dataPieces, written]
      · exact same
    exact ⟨⟨first, last'⟩, last.imp_right fun same => by omega⟩
  · rintro ⟨⟨first, last⟩, none⟩
    exact ⟨first, .inr last, .inr (by omega), none.imp_right fun none => by omega⟩

end Coff32

open Coff32

theorem oneSection_counted (rels : List Reloc) (few : rels.length < 65536) :
    Counted (oneSection [97] 4 rels) where
  scns := rfl
  syms := rfl
  relocs := by
    intro i small
    obtain rfl : i = 0 := Nat.lt_one_iff.mp small
    exact (UInt16.toNat_ofNat_of_lt' few).symm
  lines := by
    intro i small
    obtain rfl : i = 0 := Nat.lt_one_iff.mp small
    rfl

theorem oneSection_writes (rels : List Reloc) : Writes (oneSection [97] 4 rels) where
  opthdr := rfl
  relocs := by
    intro i small some
    obtain rfl : i = 0 := Nat.lt_one_iff.mp small
    exact List.length_pos_of_ne_nil some
  lines := by
    intro i small
    obtain rfl : i = 0 := Nat.lt_one_iff.mp small
    rfl
  names := by
    intro ent mem
    rw [List.mem_singleton.mp mem]
    decide
  strsiz := nofun

end Scc.Libmach
