import Scc.Libmach.Coff32Image
import Scc.Libmach.Coff32Read

set_option linter.all false

/-! When an object survives being written by `coff32write` and read by `coff32read`. -/
namespace Scc.Libmach
open Transition

variable {order : Order} {map : Map} {coff : Coff32}

/-! ## Reading the headers -/

theorem fread_append (bytes rest : List UInt8) :
    fread bytes.length (bytes ++ rest) = .ok (bytes, rest) := by
  simp [fread]

theorem pack_hdr_length (h : Filehdr) : (pack order h.args).length = FILHSZ := by
  rw [pack_length]
  rfl

theorem pack_scn_length (s : Scnhdr) : (pack order s.args).length = SCNHSZ := by
  rw [pack_length]
  simp [Scnhdr.args, Arg.conv, Conv.width, SCNHSZ]

theorem pack_ent_length (e : Syment) : (pack order e.args).length = SYMESZ := by
  rw [pack_length]
  simp [Syment.args, Arg.conv, Conv.width, SYMESZ]

theorem pack_reloc_length (r : Reloc) : (pack order r.args).length = RELSZ := by
  rw [pack_length]
  rfl

theorem readhdr_pack (h : Filehdr) (rest : List UInt8) :
    readhdr order (pack order h.args ++ rest) = .ok (h.stored, rest) := by
  unfold readhdr
  rw [← @pack_hdr_length order h, fread_append]
  simp [bind, Except.bind, unpackHdr_pack, pure, Except.pure]

theorem readscns_pack (scns : List Scnhdr) (rest : List UInt8) :
    readscns order scns.length (scns.flatMap (fun scn => pack order scn.args) ++ rest) =
      .ok (scns.map Scnhdr.stored, rest) := by
  induction scns with
  | nil => rfl
  | cons scn scns ih =>
    have long : ¬(pack order scn.args ++
        (scns.flatMap (fun scn => pack order scn.args) ++ rest)).length < SCNHSZ := by
      rw [List.length_append, pack_scn_length]
      omega
    have first := @List.take_left _ (pack order scn.args)
      (scns.flatMap (fun scn => pack order scn.args) ++ rest)
    have after := @List.drop_left _ (pack order scn.args)
      (scns.flatMap (fun scn => pack order scn.args) ++ rest)
    rw [pack_scn_length] at first after
    simp only [List.length_cons, readscns, List.flatMap_cons, List.append_assoc, long, if_false,
      first, after, unpackScn_pack, ih]
    rfl

/-! ## Reading the relocations -/

/-- The relocations of the sections start at `ptr`, one section after the other. -/
def Chained : Nat → List Scnhdr → Prop
  | _, [] => True
  | ptr, scn :: scns => scn.s_relptr = ptr ∧ Chained (ptr + RELSZ * scn.s_nrelloc.toNat) scns

/-- Section `i` has no relocation, or has an entry `i` whose symbol exists. -/
def Carried (nsyms : Int) (i : Nat) (rels : List Reloc) : Prop :=
  rels ≠ [] → ∃ rel, rels[i]? = some rel ∧ rel.stored.r_symndx < nsyms

/-- What is read for the relocations of section `i`: its entry `i`, at that
place, and nothing else. -/
def readBack (i : Nat) (rels : List Reloc) : Option (List Reloc) :=
  rels[i]?.map fun rel => (List.replicate rels.length Reloc.zero).set i rel.stored

theorem readrelocFrom_step (nsyms : Int) (i n : Nat) (rp : List Reloc) (rel : Reloc)
    (rest : List UInt8) (inside : i < rp.length) :
    readrelocFrom order nsyms i (n + 1) rp (pack order rel.args ++ rest) =
      if rel.stored.r_symndx ≥ nsyms then .error .failed
      else readrelocFrom order nsyms i n (rp.set i rel.stored) rest := by
  have read := fread_append (pack order rel.args) rest
  rw [pack_reloc_length] at read
  have short : ¬rp.length ≤ i := by omega
  simp only [readrelocFrom, read, bind, Except.bind, unpackReloc_pack, short, if_false]

theorem readrelocFrom_copies (nsyms : Int) (i n : Nat) (rp : List Reloc) (rel : Reloc)
    (rest : List UInt8) (inside : i < rp.length) :
    readrelocFrom order nsyms i (n + 1) rp
        ((List.replicate (n + 1) (pack order rel.args)).flatten ++ rest) =
      if rel.stored.r_symndx ≥ nsyms then .error .failed else .ok (rp.set i rel.stored) := by
  induction n generalizing rp with
  | zero =>
    rw [List.replicate_one, List.flatten_singleton, readrelocFrom_step nsyms i 0 rp rel rest inside]
    rfl
  | succ n ih =>
    rw [List.replicate_succ, List.flatten_cons, List.append_assoc,
      readrelocFrom_step nsyms i (n + 1) rp rel _ inside, ih _ (by simpa using inside)]
    split
    · rfl
    · rw [List.set_set]

theorem sectionBytes_length (i : Nat) (rels : List Reloc) (inside : rels ≠ [] → i < rels.length) :
    (Coff32.sectionBytes order i rels).length = RELSZ * rels.length := by
  unfold Coff32.sectionBytes
  cases entry : rels[i]? with
  | none =>
    have short := List.getElem?_eq_none_iff.mp entry
    have none : rels = [] := by
      by_contra some
      have := inside some
      omega
    simp [none]
  | some rel =>
    simp [List.length_flatten, pack_reloc_length, Nat.mul_comm]

theorem stored_nrelloc (scn : Scnhdr) : scn.stored.s_nrelloc = scn.s_nrelloc := rfl

/-- Reading the relocations of section `i` at `ptr`. -/
theorem section_read (nsyms : Int) (file after : List UInt8) (scn : Scnhdr) (i ptr : Nat)
    (rels : List Reloc) (place : scn.s_relptr = ptr) (count : scn.s_nrelloc.toNat = rels.length)
    (inside : rels ≠ [] → i < rels.length)
    (here : file.drop ptr = Coff32.sectionBytes order i rels ++ after) (small : ptr < 2 ^ 32)
    (r : Option (List Reloc)) :
    readrelocSection order nsyms file i scn.stored = .ok r ↔
      Carried nsyms i rels ∧ r = readBack i rels := by
  have pointer : scn.stored.s_relptr = scn.s_relptr % 2 ^ 32 := rfl
  unfold readrelocSection
  rw [stored_nrelloc, pointer]
  by_cases none : rels = []
  · have zero : scn.s_nrelloc = 0 := by
      rw [← UInt16.toNat_inj, count, none]
      rfl
    simp only [zero, if_true, Except.ok.injEq, Carried, none, ne_eq, not_true_eq_false,
      false_imp_iff, true_and, readBack, List.getElem?_nil, Option.map_none]
    exact eq_comm
  · obtain ⟨n, length⟩ := Nat.exists_eq_succ_of_ne_zero (mt List.length_eq_zero_iff.mp none)
    have here' := inside none
    obtain ⟨rel, entry⟩ : ∃ rel, rels[i]? = some rel := ⟨_, List.getElem?_eq_getElem here'⟩
    have nonzero : ¬scn.s_nrelloc = 0 := by
      rw [← UInt16.toNat_inj, count, length]
      simp
    have pos : objpos file (scn.s_relptr % 2 ^ 32) = .ok (file.drop ptr) := by
      rw [place, objpos, if_neg (by omega), Int.emod_eq_of_lt (by omega) (by omega)]
      rfl
    have bytes : Coff32.sectionBytes order i rels =
        (List.replicate (n + 1) (pack order rel.args)).flatten := by
      simp only [Coff32.sectionBytes, entry, length, Option.map_some, Option.getD_some]
    have copies := @readrelocFrom_copies order nsyms i n
      (List.replicate (n + 1) .zero) rel after (by rw [List.length_replicate]; omega)
    simp only [nonzero, if_false, pos, here, bytes, count, length, bind_ok, pure, Except.pure,
      Except.ok.injEq, exists_eq_left', Nat.succ_eq_add_one, copies]
    have carried : Carried nsyms i rels ↔ rel.stored.r_symndx < nsyms := by
      simp [Carried, none, entry]
    rw [carried, readBack, entry, Option.map_some, length]
    by_cases known : rel.stored.r_symndx < nsyms
    · rw [if_neg (by omega)]
      simp [known, eq_comm]
    · rw [if_pos (by omega)]
      simp [known]

/-- Reading the relocations of the sections from `i` on, whose bytes start at
`ptr` in the file. -/
theorem readreloc_iff (hdr : Filehdr) (file after : List UInt8) (scns : List Scnhdr)
    (sections : List (List Reloc)) (i ptr : Nat) (chained : Chained ptr scns)
    (counts : scns.map (·.s_nrelloc.toNat) = sections.map List.length)
    (inside : ∀ p ∈ sections.zipIdx i, p.1 ≠ [] → p.2 < p.1.length)
    (here : file.drop ptr =
      (sections.zipIdx i).flatMap (fun p => Coff32.sectionBytes order p.2 p.1) ++ after)
    (small : ptr + ((sections.zipIdx i).flatMap fun p =>
      Coff32.sectionBytes order p.2 p.1).length < 2 ^ 32)
    (out : List (Option (List Reloc))) :
    readreloc order hdr file i (scns.map Scnhdr.stored) = .ok out ↔
      (∀ p ∈ sections.zipIdx i, Carried hdr.f_nsyms p.2 p.1) ∧
        out = (sections.zipIdx i).map fun p => readBack p.2 p.1 := by
  induction scns generalizing sections i ptr out with
  | nil =>
    obtain rfl : sections = [] := by simpa using counts.symm
    simp only [List.map_nil, readreloc, Except.ok.injEq, List.zipIdx_nil, List.not_mem_nil,
      false_imp_iff, implies_true, true_and]
    exact eq_comm
  | cons scn scns ih =>
    cases sections with
    | nil => simp at counts
    | cons rels sections =>
      obtain ⟨place, chained⟩ := chained
      simp only [List.map_cons, List.cons.injEq] at counts
      obtain ⟨count, counts⟩ := counts
      simp only [List.zipIdx_cons, List.forall_mem_cons, List.flatMap_cons, List.length_append] at *
      obtain ⟨first, inside⟩ := inside
      have width := @sectionBytes_length order i rels first
      have later : file.drop (ptr + RELSZ * scn.s_nrelloc.toNat) =
          (sections.zipIdx (i + 1)).flatMap (fun p => Coff32.sectionBytes order p.2 p.1) ++ after := by
        rw [← List.drop_drop, here, List.append_assoc, count, ← width, List.drop_left]
      have ih := fun out => ih sections (i + 1) _ chained counts inside later
        (by rw [count, ← width]; omega) out
      have step := @section_read order hdr.f_nsyms file _ scn i ptr rels place count first
        (by rw [here, List.append_assoc]) (by omega)
      simp only [List.map_cons, readreloc, bind_ok, ih, step, pure, Except.pure, Except.ok.injEq]
      constructor
      · rintro ⟨_, ⟨carried, rfl⟩, _, ⟨later, rfl⟩, rfl⟩
        exact ⟨⟨carried, later⟩, rfl⟩
      · rintro ⟨⟨carried, later⟩, rfl⟩
        exact ⟨_, ⟨carried, rfl⟩, _, ⟨later, rfl⟩, rfl⟩

theorem readlines_none (hdr : Filehdr) (file : List UInt8) (i : Nat) (scns : List Scnhdr)
    (none : ∀ scn ∈ scns, scn.s_nlnno = 0) :
    readlines order hdr file i scns = .ok (scns.map fun _ => Option.none) := by
  induction scns generalizing i with
  | nil => rfl
  | cons scn scns ih =>
    obtain ⟨zero, none⟩ := List.forall_mem_cons.mp none
    simp only [readlines, readlinesSection, zero, if_true, ih (i + 1) none]
    rfl

/-! ## Reading the symbols and their names -/

/-- An entry as `unpack_ent` leaves it. -/
def Plain (ent : Syment) : Prop := ent.n_name.toList.any (· ≠ 0) = true → ent.n_offset = 0

theorem unpackEnt_total (buf : List UInt8) : ∃ ent, unpackEnt order buf = .ok ent ∧ Plain ent := by
  refine ⟨_, rfl, ?_⟩
  simp only [Plain]
  split
  · exact fun some => absurd some (by decide)
  · exact fun _ => rfl

theorem readentsFrom_some (nscns : Int) (n : Nat) (ents : List Syment) (rest : List UInt8)
    (first : Syment) (head : ents.head? = some first) (good : first.n_scnum.toInt ≤ nscns)
    (long : SYMESZ * n ≤ rest.length) :
    ∃ more, readentsFrom order nscns n ents rest = .ok (ents ++ more, rest.drop (SYMESZ * n)) ∧
      ∀ ent ∈ more, Plain ent := by
  induction n generalizing ents rest with
  | zero => exact ⟨[], by simp [readentsFrom], by simp⟩
  | succ n ih =>
    rw [Nat.mul_succ] at long ⊢
    have read : fread SYMESZ rest = .ok (rest.take SYMESZ, rest.drop SYMESZ) := if_pos (by omega)
    obtain ⟨ent, unpack, plain⟩ := @unpackEnt_total order (rest.take SYMESZ)
    have head' : (ents ++ [ent]).head? = some first := by simp [List.head?_append, head]
    have bound : ¬((ents ++ [ent]).head?.map fun ent => ent.n_scnum.toInt).getD 0 > nscns := by
      rw [head']
      simpa using good
    obtain ⟨more, step, plains⟩ := ih (ents ++ [ent]) (rest.drop SYMESZ) head'
      (by rw [List.length_drop]; omega)
    refine ⟨ent :: more, ?_, List.forall_mem_cons.mpr ⟨plain, plains⟩⟩
    simp only [readentsFrom, read, unpack, bind, Except.bind, bound, if_false, step,
      List.append_assoc, List.singleton_append, List.drop_drop]
    rw [Nat.add_comm SYMESZ]

/-- The size of the string table as `readstr` finds it after `n` entries. -/
def foundSize (order : Order) (n : Nat) (region : List UInt8) : Nat :=
  bytesValue (order.arrange ((region.drop (SYMESZ * n)).take 4))

variable {hdr : Filehdr} {file rest region : List UInt8} {n : Nat}

/-- The first step of `readents` and what follows it. -/
theorem readents_eq (some : hdr.f_nsyms = (n + 1 : Nat)) (low : 0 ≤ hdr.f_symptr)
    (here : file.drop hdr.f_symptr.toNat = region) (long : SYMESZ * (n + 1) ≤ region.length)
    {first : Syment} (unpack : unpackEnt order (region.take SYMESZ) = .ok first) :
    readents order hdr file rest = do
      if first.n_scnum.toInt > hdr.f_nscns.toNat then .error .failed
      let (ents, rest) ← readentsFrom order hdr.f_nscns.toNat n [first] (region.drop SYMESZ)
      return (.some ents, rest) := by
  rw [Nat.mul_succ] at long
  have nonzero : ¬hdr.f_nsyms = 0 := by omega
  have pos : objpos file hdr.f_symptr = .ok region := by
    rw [objpos, if_neg (by omega), here]
  have read : fread SYMESZ region = .ok (region.take SYMESZ, region.drop SYMESZ) :=
    if_pos (by omega)
  have count : hdr.f_nsyms.toNat = n + 1 := by omega
  simp only [readents, nonzero, if_false, pos, count, readentsFrom, read, unpack, bind, Except.bind,
    List.nil_append, List.head?_cons, Option.map_some, Option.getD_some]
  by_cases bad : first.n_scnum.toInt > hdr.f_nscns.toNat <;> simp only [bad, if_true, if_false]

theorem readents_ok (some : hdr.f_nsyms = (n + 1 : Nat)) (low : 0 ≤ hdr.f_symptr)
    (here : file.drop hdr.f_symptr.toNat = region) (long : SYMESZ * (n + 1) ≤ region.length)
    {first : Syment} (unpack : unpackEnt order (region.take SYMESZ) = .ok first)
    (plain : Plain first) (good : first.n_scnum.toInt ≤ hdr.f_nscns.toNat) :
    ∃ ents, readents order hdr file rest = .ok (.some ents, region.drop (SYMESZ * (n + 1))) ∧
      ∀ ent ∈ ents, Plain ent := by
  rw [readents_eq some low here long unpack]
  rw [Nat.mul_succ] at long
  obtain ⟨more, step, plains⟩ := @readentsFrom_some order hdr.f_nscns.toNat n [first]
    (region.drop SYMESZ) first rfl good (by rw [List.length_drop]; omega)
  refine ⟨[first] ++ more, ?_, List.forall_mem_cons.mpr ⟨plain, plains⟩⟩
  have calm : ¬first.n_scnum.toInt > hdr.f_nscns.toNat := by omega
  simp only [calm, if_false, step, bind, Except.bind, List.drop_drop, pure, Except.pure,
    Nat.mul_succ, Nat.add_comm SYMESZ]

theorem readstr_iff (some : hdr.f_nsyms ≠ 0) (long : SYMESZ * n + 4 ≤ region.length) :
    (∃ r, readstr order hdr (region.drop (SYMESZ * n)) = .ok r) ↔
      4 ≤ foundSize order n region ∧ SYMESZ * n + foundSize order n region ≤ region.length := by
  have read : fread 4 (region.drop (SYMESZ * n)) =
      .ok ((region.drop (SYMESZ * n)).take 4, (region.drop (SYMESZ * n)).drop 4) :=
    if_pos (by rw [List.length_drop]; omega)
  have size : bytesValue (order.arrange ((region.drop (SYMESZ * n)).take 4)) =
      foundSize order n region := rfl
  have left : ((region.drop (SYMESZ * n)).drop 4).length = region.length - (SYMESZ * n + 4) := by
    rw [List.drop_drop, List.length_drop]
  simp only [readstr, some, if_false, read, bind, Except.bind, size]
  by_cases least : foundSize order n region < 4
  · simp [least]
  · by_cases four : foundSize order n region = 4
    · simp [four, long, pure, Except.pure]
    · by_cases most : foundSize order n region - 4 ≤ region.length - (SYMESZ * n + 4)
      · simp only [least, four, if_false, fread, left, most, if_true, pure, Except.pure,
          Except.ok.injEq, exists_eq', true_iff]
        omega
      · simp only [least, four, if_false, fread, left, most, reduceCtorEq, exists_false, false_iff]
        omega

/-! ## Where the parts of an image are -/

namespace Coff32

theorem head_length (wf : WellFormed map coff) :
    (coff.head order map).length = coff.dataEnd map := by
  have count : (coff.placed map).scns.length = coff.nscns := by
    rw [← wf.scns, ← List.length_map (f := kept), placed_kept, List.length_map]
  have headers : ((coff.placed map).scns.flatMap fun scn => pack order scn.args).length =
      coff.nscns * SCNHSZ := by
    rw [List.length_flatMap, ← count]
    simp [pack_scn_length]
  rw [head, List.length_append, List.length_append, pack_hdr_length, headers, dataEnd, Nat.add_assoc]

theorem placed_symptr (wf : WellFormed map coff) (opthdr : coff.hdr.f_opthdr = 0)
    (some : 0 < coff.hdr.f_nsyms) : (coff.placed map).hdr.f_symptr = coff.dataEnd map := by
  have place : (coff.placed map).hdr.f_symptr = (placeData map
      (FILHSZ + coff.hdr.f_opthdr.toNat + coff.nscns * SCNHSZ) coff.scns).2 := if_pos some
  rw [place, placeData_end _ _ wf.data, opthdr]
  simp [dataEnd, writedata]

theorem placeRelocs_chained (ptr : Nat) (scns : List Scnhdr) :
    Chained ptr (placeRelocs ptr scns).1 := by
  induction scns generalizing ptr with
  | nil => trivial
  | cons scn scns ih =>
    have next : (ptr + scn.s_nrelloc.toNat * RELSZ : Int) =
        (ptr + RELSZ * scn.s_nrelloc.toNat : Nat) := by
      simp [Int.mul_comm]
    refine ⟨rfl, ?_⟩
    rw [next]
    exact ih _

theorem placeLines_chained (ptr : Nat) (start : Int) (scns : List Scnhdr)
    (chained : Chained ptr scns) : Chained ptr (placeLines start scns).1 := by
  induction scns generalizing ptr start with
  | nil => trivial
  | cons scn scns ih => exact ⟨chained.1, ih _ _ chained.2⟩

theorem placed_chained (wf : WellFormed map coff) (opthdr : coff.hdr.f_opthdr = 0) :
    Chained (coff.dataEnd map) (coff.placed map).scns := by
  have place := @placeData_end map
    (FILHSZ + coff.hdr.f_opthdr.toNat + coff.nscns * SCNHSZ) coff.scns wf.data
  have start : (placeData map (FILHSZ + coff.hdr.f_opthdr.toNat + coff.nscns * SCNHSZ)
      coff.scns).2 = (coff.dataEnd map : Int) := by
    rw [place, opthdr]
    simp [dataEnd, writedata]
  refine placeLines_chained _ _ _ ?_
  rw [start]
  exact placeRelocs_chained _ _

/-- The relocations of the sections, in order. -/
def sections (coff : Coff32) : List (List Reloc) := (List.range coff.nscns).map coff.relocs

theorem sections_zipIdx (coff : Coff32) :
    coff.sections.zipIdx = (List.range coff.nscns).map fun i => (coff.relocs i, i) := by
  apply List.ext_getElem?
  intro i
  simp only [sections, List.getElem?_zipIdx, List.getElem?_map]
  cases h : (List.range coff.nscns)[i]? with
  | none => rfl
  | some j =>
    obtain ⟨small, same⟩ := List.getElem?_eq_some_iff.mp h
    simp only [List.getElem_range] at same
    simp [same]

theorem sections_counts (wf : WellFormed map coff) :
    (coff.placed map).scns.map (·.s_nrelloc.toNat) = coff.sections.map List.length := by
  have kept' : (coff.placed map).scns.map (·.s_nrelloc.toNat) = coff.scns.map (·.s_nrelloc.toNat) := by
    have same := congrArg (List.map fun k => k.2.2.1.toNat) (placed_kept map coff)
    simpa [List.map_map, Function.comp_def, kept] using same
  rw [kept']
  apply List.ext_getElem
  · simp [sections, wf.scns]
  · intro i small small'
    have inside : i < coff.nscns := by simpa [sections] using small'
    simp only [sections, List.getElem_map, List.getElem_range, wf.relocs i inside]
    rw [scn, List.getD_eq_getElem?_getD, List.getElem?_eq_getElem (by simpa using small)]
    rfl

/-- The symbols as `coff32read` finds them in `region`, which starts where
`f_symptr` says: with the first entry in a section that exists and a string table
that fits. -/
structure TableFound (order : Order) (nscns : Nat) (n : Nat) (region : List UInt8) : Prop where
  first : ∀ ent, unpackEnt order (region.take SYMESZ) = .ok ent → ent.n_scnum.toInt ≤ nscns
  least : 4 ≤ foundSize order n region
  most : SYMESZ * n + foundSize order n region ≤ region.length

/-- The image is read, and has the relocations and line numbers of the object. -/
def RoundTrips (order : Order) (map : Map) (coff : Coff32) : Prop :=
  ∃ c image out, coff32write order map coff = .ok (c, image) ∧ coff32read order image = .ok out ∧
    out.scns.length = coff.nscns ∧
    ∀ i < coff.nscns, out.relocs i = coff.relocs i ∧ out.linenos i = coff.linenos i

theorem tail_region (some : coff.hdr.f_nsyms ≠ 0) (wf : WellFormed map coff) :
    ∃ ents n, coff.ents = .some ents ∧ coff.hdr.f_nsyms = (n + 1 : Nat) ∧ ents.length = n + 1 ∧
      SYMESZ * (n + 1) + 4 ≤ (coff.tail order).length := by
  have count := wf.syms
  cases h : coff.ents with
  | none =>
    rw [h] at count
    exact absurd count some
  | some ents =>
    rw [h] at count
    obtain ⟨n, hn⟩ := Nat.exists_eq_succ_of_ne_zero (n := ents.length) (by
      intro zero
      exact some (by rw [count, Option.getD_some, zero]; rfl))
    refine ⟨ents, n, rfl, by rw [count, Option.getD_some, hn], hn, ?_⟩
    have width : (coff.entBytes order).length = SYMESZ * (n + 1) := by
      rw [entBytes, h, Option.getD_some, List.length_flatMap]
      simp [pack_ent_length, hn, Nat.mul_comm]
    have str : (coff.strBytes order).length = 4 := by
      rw [strBytes, h, pack_length]
      rfl
    rw [tail, List.length_append, List.length_append, width, str]
    omega

/-- The parts `coff32read` reads from an image, one after the other. -/
theorem read_image (wf : WellFormed map coff) (opthdr : coff.hdr.f_opthdr = 0) :
    coff32read order (coff.head order map ++ coff.tail order) = (do
      let hdr := (coff.placed map).hdr.stored
      let scns := (coff.placed map).scns.map Scnhdr.stored
      let file := coff.head order map ++ coff.tail order
      let (ents, rest) ← readents order hdr file (coff.writedata map ++ coff.tail order)
      let (strtbl, strsiz) ← readstr order hdr rest
      let rels ← readreloc order hdr file 0 scns
      let lines ← readlines order hdr file 0 scns
      if (ents.getD []).any fun ent => ent.n_name.toList.any (· ≠ 0) && ent.n_offset > strsiz then
        .error .failed
      let null := hdr.f_nscns = 0
      .ok
        { hdr, aout := ⟨0, 0, 0, 0, 0, 0, 0, 0⟩, scns, ents, strtbl, strsiz
          rels := if null then none else some rels, lines := if null then none else some lines }) := by
  have count : (coff.placed map).hdr.stored.f_nscns.toNat = (coff.placed map).scns.length := by
    have same : (coff.placed map).scns.length = coff.scns.length := by
      rw [← List.length_map (f := kept), placed_kept, List.length_map]
    rw [same, wf.scns]
    rfl
  have image : coff.head order map ++ coff.tail order = pack order (coff.placed map).hdr.args ++
      ((coff.placed map).scns.flatMap (fun scn => pack order scn.args) ++
        (coff.writedata map ++ coff.tail order)) := by
    simp only [head, List.append_assoc]
  have aout : ∀ rest, readaout order (coff.placed map).hdr.stored rest =
      .ok (⟨0, 0, 0, 0, 0, 0, 0, 0⟩, rest) := fun rest => if_pos opthdr
  unfold coff32read
  conv_lhs => rw [image]
  simp only [readhdr_pack, aout, count, readscns_pack, bind, Except.bind]
  rw [← image]

/-- The image is under the four gigabytes its file pointers reach. -/
def Small (order : Order) (map : Map) (coff : Coff32) : Prop :=
  (coff.head order map ++ coff.tail order).length < 2 ^ 32

theorem nsyms_stored (wf : WellFormed map coff) (small : Small order map coff) :
    (coff.placed map).hdr.stored.f_nsyms = coff.hdr.f_nsyms := by
  have same : (coff.placed map).hdr.stored.f_nsyms = coff.hdr.f_nsyms % 2 ^ 32 := rfl
  rw [same]
  by_cases some : coff.hdr.f_nsyms = 0
  · rw [some]
    rfl
  · obtain ⟨ents, n, _, count, _, long⟩ := @tail_region order _ _ some wf
    simp only [Small, List.length_append, SYMESZ] at small long
    omega

theorem image_relocs (wf : WellFormed map coff) (w : Writes coff) (small : Small order map coff)
    (out : List (Option (List Reloc))) :
    readreloc order (coff.placed map).hdr.stored (coff.head order map ++ coff.tail order) 0
        ((coff.placed map).scns.map Scnhdr.stored) = .ok out ↔
      (∀ i < coff.nscns, Carried coff.hdr.f_nsyms i (coff.relocs i)) ∧
        out = (List.range coff.nscns).map fun i => readBack i (coff.relocs i) := by
  have bytes : coff.sections.zipIdx.flatMap (fun p => sectionBytes order p.2 p.1) =
      coff.relocBytes order := by
    rw [sections_zipIdx, List.flatMap_map]
    rfl
  have here : (coff.head order map ++ coff.tail order).drop (coff.dataEnd map) =
      coff.sections.zipIdx.flatMap (fun p => sectionBytes order p.2 p.1) ++
        (coff.entBytes order ++ coff.strBytes order) := by
    rw [← @head_length order _ _ wf, List.drop_left, bytes]
    rfl
  have inside : ∀ p ∈ coff.sections.zipIdx, p.1 ≠ [] → p.2 < p.1.length := by
    rw [sections_zipIdx]
    simpa using w.relocs
  have read := @readreloc_iff order (coff.placed map).hdr.stored
    (coff.head order map ++ coff.tail order) _ _ _ 0 _ (placed_chained wf w.opthdr)
    (sections_counts wf) inside here
    (by
      rw [bytes, ← @head_length order _ _ wf]
      simp only [Small, List.length_append, tail] at small
      omega) out
  rw [read, nsyms_stored wf small, sections_zipIdx]
  simp [Function.comp_def]

theorem image_lines (wf : WellFormed map coff) (w : Writes coff) (file : List UInt8) :
    readlines order (coff.placed map).hdr.stored file 0 ((coff.placed map).scns.map Scnhdr.stored) =
      .ok ((coff.placed map).scns.map fun _ => none) := by
  rw [readlines_none]
  · simp [Function.comp_def]
  · intro scn member
    obtain ⟨s, hs, rfl⟩ := List.mem_map.mp member
    obtain ⟨i, small, rfl⟩ := List.mem_iff_getElem.mp hs
    have inside : i < coff.nscns := by
      rw [← wf.scns, ← List.length_map (f := kept), ← placed_kept map, List.length_map]
      exact small
    have there : (coff.placed map).scns[i] = (coff.placed map).scn i := by
      simp [scn, List.getD_eq_getElem?_getD, small]
    have same : ((coff.placed map).scn i).s_nlnno = (coff.scn i).s_nlnno :=
      congrArg (·.2.2.2) (placed_scn_kept map coff i)
    have zero : (coff.scn i).s_nlnno = 0 := by
      rw [← UInt16.toNat_inj, ← wf.lines i inside, w.lines i inside]
      rfl
    rw [there]
    exact same.trans zero

/-- What an object needs to survive. Of the relocations of section `i` only
entry `i` is written and read, so the others must be as `calloc` leaves them; no
line number may be there at all; and the symbols must still make sense where
`f_symptr` points, at the start of the relocations. -/
structure Survives (order : Order) (coff : Coff32) : Prop where
  opthdr : coff.hdr.f_opthdr = 0
  lines : ∀ i < coff.nscns, coff.linenos i = []
  relocs : ∀ i < coff.nscns, coff.relocs i ≠ [] →
    ∃ rel, i < (coff.relocs i).length ∧
      coff.relocs i = (List.replicate (coff.relocs i).length Reloc.zero).set i rel ∧
      rel.stored = rel ∧ rel.r_symndx < coff.hdr.f_nsyms
  names : ∀ ent ∈ coff.ents.getD [], ent.zeroes = false
  strsiz : coff.ents = none → coff.strsiz < 65536
  table : coff.hdr.f_nsyms ≠ 0 →
    TableFound order coff.nscns (coff.ents.getD []).length (coff.tail order)

theorem Survives.writes (h : Survives order coff) : Writes coff where
  opthdr := h.opthdr
  relocs := by
    intro i small some
    obtain ⟨_, inside, _⟩ := h.relocs i small some
    exact inside
  lines := h.lines
  names := h.names
  strsiz := h.strsiz

/-- A section comes back as it was exactly when all its entries but entry `i` are
zero and that one fits its fields. -/
theorem readBack_iff (nsyms : Int) (i : Nat) (rels : List Reloc) (inside : rels ≠ [] → i < rels.length) :
    Carried nsyms i rels ∧ (readBack i rels).getD [] = rels ↔
      (rels ≠ [] → ∃ rel, i < rels.length ∧ rels = (List.replicate rels.length Reloc.zero).set i rel ∧
        rel.stored = rel ∧ rel.r_symndx < nsyms) := by
  by_cases none : rels = []
  · simp [none, Carried, readBack]
  · have here := inside none
    have entry := List.getElem?_eq_getElem here
    simp only [Carried, none, ne_eq, not_false_eq_true, true_imp_iff, readBack, entry,
      Option.some.injEq, exists_eq_left', Option.map_some, Option.getD_some]
    constructor
    · rintro ⟨known, same⟩
      have fits : rels[i].stored = rels[i] := by
        have := congrArg (·[i]?) same
        simpa [here] using this
      exact ⟨rels[i].stored, here, same.symm, by rw [fits, fits], known⟩
    · rintro ⟨rel, _, same, fits, known⟩
      have this : rels[i] = rel := by
        have := congrArg (·[i]?) same
        simpa [here] using this
      rw [this, fits]
      exact ⟨known, same.symm⟩

/-- The relocations `coff32read` returns for a section that exists. -/
theorem read_relocs (hdr : Filehdr) (same : hdr.f_nscns = coff.hdr.f_nscns) (i : Nat)
    (small : i < coff.nscns) (f : Nat → Option (List Reloc)) :
    ((((if hdr.f_nscns = 0 then none else some ((List.range coff.nscns).map f) :
      Option (List (Option (List Reloc)))).getD []).getD i none).getD []) = (f i).getD [] := by
  have some : ¬hdr.f_nscns = 0 := by
    intro zero
    rw [nscns, ← same, zero] at small
    exact absurd small (Nat.not_lt_zero i)
  simp [some, List.getD_eq_getElem?_getD, small]

theorem read_linenos (hdr : Filehdr) (i : Nat) (scns : List Scnhdr) :
    ((((if hdr.f_nscns = 0 then none else some (scns.map fun _ => none) :
      Option (List (Option (List Lineno)))).getD []).getD i none).getD []) = [] := by
  split
  · rfl
  · simp only [Option.getD_some, List.getD_eq_getElem?_getD, List.getElem?_map]
    cases scns[i]? <;> rfl

/-- The reads of the symbols and the string table succeed. -/
def SymbolsRead (order : Order) (map : Map) (coff : Coff32) (rest : List UInt8)
    (ents : Option (List Syment)) (str : List UInt8 × Nat) : Prop :=
  ∃ left,
    readents order (coff.placed map).hdr.stored (coff.head order map ++ coff.tail order) rest =
      .ok (ents, left) ∧ readstr order (coff.placed map).hdr.stored left = .ok str

/-- Reading the symbols and the string table of an image. -/
theorem image_symbols (wf : WellFormed map coff) (opthdr : coff.hdr.f_opthdr = 0)
    (small : Small order map coff) (rest : List UInt8) :
    ((∃ ents str, SymbolsRead order map coff rest ents str) → coff.hdr.f_nsyms ≠ 0 →
        TableFound order coff.nscns (coff.ents.getD []).length (coff.tail order)) ∧
      ((coff.hdr.f_nsyms ≠ 0 →
        TableFound order coff.nscns (coff.ents.getD []).length (coff.tail order)) →
          ∃ ents str, SymbolsRead order map coff rest ents str ∧ ∀ ent ∈ ents.getD [], Plain ent) := by
  have nsyms := nsyms_stored wf small
  by_cases none : coff.hdr.f_nsyms = 0
  · have zero : (coff.placed map).hdr.stored.f_nsyms = 0 := by rw [nsyms, none]
    refine ⟨fun _ some => absurd none some, fun _ => ?_⟩
    exact ⟨.none, ([], 0), ⟨rest, if_pos zero, if_pos zero⟩, by simp⟩
  · obtain ⟨es, n, hes, count, length, long⟩ := @tail_region order _ _ none wf
    have symptr : (coff.placed map).hdr.stored.f_symptr = coff.dataEnd map := by
      have same : (coff.placed map).hdr.stored.f_symptr = (coff.placed map).hdr.f_symptr % 2 ^ 32 :=
        rfl
      rw [same, placed_symptr wf opthdr (by omega)]
      have bound := @head_length order _ _ wf
      simp only [Small, List.length_append] at small
      omega
    have here : (coff.head order map ++ coff.tail order).drop
        (coff.placed map).hdr.stored.f_symptr.toNat = coff.tail order := by
      rw [symptr, Int.toNat_natCast, ← @head_length order _ _ wf, List.drop_left]
    obtain ⟨first, unpack, plain⟩ := @unpackEnt_total order ((coff.tail order).take SYMESZ)
    have some : (coff.placed map).hdr.stored.f_nsyms = (n + 1 : Nat) := by rw [nsyms, count]
    have low : 0 ≤ (coff.placed map).hdr.stored.f_symptr := by
      rw [symptr]
      omega
    have nscns' : (coff.placed map).hdr.stored.f_nscns.toNat = coff.nscns := rfl
    have str := @readstr_iff order (coff.placed map).hdr.stored (coff.tail order) (n + 1)
      (by rw [nsyms]; exact none) long
    simp only [none, ne_eq, not_false_eq_true, true_imp_iff, hes, Option.getD_some, length]
    constructor
    · rintro ⟨ents, r, left, read, readStr⟩
      have good : first.n_scnum.toInt ≤ coff.nscns := by
        by_contra bad
        rw [readents_eq some low here (by omega) unpack, nscns'] at read
        simp only [show first.n_scnum.toInt > coff.nscns by omega, if_true] at read
        cases read
      obtain ⟨ents', read', _⟩ := @readents_ok _ _ _ rest _ _ some low here (by omega) _ unpack plain
        (by rw [nscns']; exact good)
      rw [read'] at read
      cases read
      obtain ⟨least, most⟩ := str.mp ⟨r, readStr⟩
      exact ⟨fun ent same => by rw [unpack] at same; cases same; exact good, least, most⟩
    · rintro ⟨good, least, most⟩
      obtain ⟨ents', read', plains⟩ := @readents_ok _ _ _ rest _ _ some low here (by omega) _ unpack
        plain (by rw [nscns']; exact good first unpack)
      obtain ⟨r, readStr⟩ := str.mpr ⟨least, most⟩
      exact ⟨.some ents', r, ⟨_, read', readStr⟩, plains⟩

end Coff32

open Coff32

/-- An object whose image stays under four gigabytes is written and read back
with its relocations and line numbers if and only if it meets `Survives`. -/
theorem roundTrips_iff (wf : WellFormed map coff) (small : Small order map coff) :
    RoundTrips order map coff ↔ Survives order coff := by
  constructor
  · rintro ⟨c, image, out, written, read, count, same⟩
    obtain ⟨w, rfl⟩ := (write_iff wf.counted image).mp ⟨c, written⟩
    rw [read_image wf w.opthdr] at read
    obtain ⟨⟨ents, left⟩, readEnts, read⟩ := bind_ok.mp read
    obtain ⟨⟨strtbl, strsiz⟩, readStr, read⟩ := bind_ok.mp read
    obtain ⟨rels, readRels, read⟩ := bind_ok.mp read
    obtain ⟨lines, readLines, read⟩ := bind_ok.mp read
    obtain ⟨carried, rfl⟩ := (image_relocs wf w small rels).mp readRels
    have rels' : ∀ i < coff.nscns, (readBack i (coff.relocs i)).getD [] = coff.relocs i := by
      intro i inside
      dsimp only at read
      split at read
      · cases read
      · cases read
        have found := @read_relocs coff (coff.placed map).hdr.stored rfl i inside
          fun i => readBack i (coff.relocs i)
        exact found.symm.trans (same i inside).1
    exact
      { opthdr := w.opthdr
        lines := w.lines
        relocs := fun i inside => (readBack_iff _ i _ (w.relocs i inside)).mp
          ⟨carried i inside, rels' i inside⟩
        names := w.names
        strsiz := w.strsiz
        table := (image_symbols wf w.opthdr small _).1 ⟨ents, _, left, readEnts, readStr⟩ }
  · intro h
    have w := h.writes
    obtain ⟨c, written⟩ := (@write_iff order _ _ wf.counted _).mpr ⟨w, rfl⟩
    obtain ⟨ents, ⟨strtbl, strsiz⟩, ⟨left, readEnts, readStr⟩, plain⟩ :=
      (image_symbols wf w.opthdr small (coff.writedata map ++ coff.tail order)).2 h.table
    have back := fun i inside => (readBack_iff coff.hdr.f_nsyms i _ (w.relocs i inside)).mpr
      (h.relocs i inside)
    have readRels := (image_relocs wf w small _).mpr ⟨fun i inside => (back i inside).1, rfl⟩
    have sane : ((ents.getD []).any fun ent =>
        ent.n_name.toList.any (· ≠ 0) && ent.n_offset > strsiz) = false := by
      rw [List.any_eq_false]
      intro ent member both
      rw [Bool.and_eq_true] at both
      have := plain ent member both.1
      simp only [this, decide_eq_true_eq] at both
      omega
    have image := @read_image order _ _ wf w.opthdr
    simp only [bind, Except.bind, readEnts, readStr, readRels, image_lines wf w, sane,
      Bool.false_eq_true, if_false] at image
    refine ⟨c, _, _, written, image, ?_, ?_⟩
    · rw [List.length_map, ← List.length_map (f := kept), placed_kept, List.length_map, wf.scns]
    · intro i inside
      refine ⟨(read_relocs _ rfl i inside _).trans (back i inside).2, ?_⟩
      rw [w.lines i inside]
      exact read_linenos _ i _

theorem coff32_roundTrips (wf : WellFormed map coff) :
    (Small order map coff ∧ Survives order coff → RoundTrips order map coff) ∧
      (RoundTrips order map coff → Small order map coff → Survives order coff) :=
  ⟨fun ⟨small, h⟩ => (roundTrips_iff wf small).mpr h, fun h small => (roundTrips_iff wf small).mp h⟩

/-- An object with one section and one symbol. -/
def oneSection (name : List UInt8) (value : Int) (rels : List Reloc) : Coff32 :=
  { hdr := ⟨0x14c, 1, 0, 0, 1, 0, 0⟩
    aout := ⟨0, 0, 0, 0, 0, 0, 0, 0⟩
    scns := [⟨nameOf [46, 116], 0, 0, 0, 0, 0, 0, .ofNat rels.length, 0, 0x20⟩]
    ents := some [⟨nameOf name, 0, value, 1, 0, 2, 0⟩]
    rels := some [some rels]
    lines := none
    strtbl := []
    strsiz := 0 }

/-- A symbol whose value passes for the size of a string table, and a section
with one relocation. -/
theorem coff32_roundTrips_one : RoundTrips .LITTLE_ENDIAN [] (oneSection [97] 4 [⟨8, 0, 2⟩]) := by
  refine (coff32_roundTrips ⟨rfl, rfl, by decide, by decide, rfl, by decide⟩).1
    ⟨by unfold Coff32.Small; decide, ?_⟩
  exact
    { opthdr := rfl
      lines := by decide
      relocs := by
        intro i small _
        obtain rfl : i = 0 := Nat.lt_one_iff.mp small
        exact ⟨⟨8, 0, 2⟩, by decide⟩
      names := by decide
      strsiz := by decide
      table := fun _ => ⟨fun ent read => by cases read; decide, by decide, by decide⟩ }

/-- Two relocations of one section. The first is written twice, and reading fails:
the symbols are looked for where the relocations are. -/
theorem two_relocations_fail :
    ¬∀ (order : Order) (map : Map) (coff : Coff32), WellFormed map coff →
      RoundTrips order map coff := by
  intro h
  have wf : WellFormed [] (oneSection [97] 4 [⟨8, 0, 2⟩, ⟨16, 0, 2⟩]) :=
    ⟨rfl, rfl, by decide, by decide, rfl, by decide⟩
  obtain ⟨c, image, out, written, read, _⟩ := h .LITTLE_ENDIAN [] _ wf
  obtain ⟨_, rfl⟩ := (write_iff wf.counted image).mp ⟨c, written⟩
  have fails : coff32read .LITTLE_ENDIAN
      ((oneSection [97] 4 [⟨8, 0, 2⟩, ⟨16, 0, 2⟩]).head .LITTLE_ENDIAN [] ++
        (oneSection [97] 4 [⟨8, 0, 2⟩, ⟨16, 0, 2⟩]).tail .LITTLE_ENDIAN) = .error .failed := by
    rfl
  rw [fails] at read
  cases read

end Scc.Libmach
