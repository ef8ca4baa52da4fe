import Scc.Libmach.Coff32Write
import Scc.Transition.Runs
import Mathlib.Data.List.Flatten

set_option linter.all false

/-! Which objects `coff32write` can write, and their images. -/
namespace Scc.Libmach
open Transition

variable {order : Order}

/-! ## Records -/

/-- What a record is after it went through its bytes. -/
def Filehdr.stored (h : Filehdr) : Filehdr :=
  { h with
    f_timdat := h.f_timdat % 2 ^ 32, f_symptr := h.f_symptr % 2 ^ 32, f_nsyms := h.f_nsyms % 2 ^ 32 }

def Scnhdr.stored (s : Scnhdr) : Scnhdr :=
  { s with
    s_paddr := s.s_paddr % 2 ^ 32, s_vaddr := s.s_vaddr % 2 ^ 32, s_size := s.s_size % 2 ^ 32
    s_scnptr := s.s_scnptr % 2 ^ 32, s_relptr := s.s_relptr % 2 ^ 32
    s_lnnoptr := s.s_lnnoptr % 2 ^ 32, s_flags := s.s_flags % 2 ^ 32 }

def Reloc.stored (r : Reloc) : Reloc :=
  { r with r_vaddr := r.r_vaddr % 2 ^ 32, r_symndx := r.r_symndx % 2 ^ 32 }

theorem ofInt_toNat16 (x : UInt16) : UInt16.ofInt ((x.toNat : Int) % 65536) = x := by
  have small : ((x.toNat : Int) % 65536 % 2 ^ 16).toNat = x.toNat := by
    have := x.toNat_lt
    omega
  rw [UInt16.ofInt, small, UInt16.ofNat_toNat]

theorem nameOf_toList (name : Vector UInt8 8) : nameOf name.toList = name := by
  ext i small
  simp [nameOf, List.getD_eq_getElem?_getD]

theorem packed_hdr (h : Filehdr) :
    packed order FILHSZ h.args = .ok (pack order h.args) := if_pos (by rw [pack_length]; rfl)

theorem packed_scn (s : Scnhdr) :
    packed order SCNHSZ s.args = .ok (pack order s.args) :=
  if_pos (by rw [pack_length]; simp [Scnhdr.args, Arg.conv, Conv.width, SCNHSZ])

theorem packed_ent (e : Syment) :
    packed order SYMESZ e.args = .ok (pack order e.args) :=
  if_pos (by rw [pack_length]; simp [Syment.args, Arg.conv, Conv.width, SYMESZ])

theorem packed_reloc (r : Reloc) :
    packed order RELSZ r.args = .ok (pack order r.args) := if_pos (by rw [pack_length]; rfl)

theorem packed_line (l : Lineno) : packed order LINESZ l.args = .error .aborted :=
  if_neg (by rw [pack_length]; exact Nat.ne_of_beq_eq_false rfl)

theorem packed_aout (a : Aouthdr) : packed order AOUTSZ a.args = .error .aborted :=
  if_neg (by rw [pack_length]; exact Nat.ne_of_beq_eq_false rfl)

theorem unpackHdr_pack (h : Filehdr) : unpackHdr order (pack order h.args) = .ok h.stored := by
  have back := unpack_pack order h.args []
  rw [List.append_nil] at back
  unfold unpackHdr unpacked
  rw [show [Conv.s, .s, .l, .l, .l, .s, .s] = h.args.map Arg.conv from rfl, back]
  simp [Filehdr.args, Arg.conv, Conv.width, FILHSZ, Arg.stored, Filehdr.ofArgs, ofInt_toNat16,
    Filehdr.stored]

theorem unpackScn_pack (s : Scnhdr) : unpackScn order (pack order s.args) = .ok s.stored := by
  have back := unpack_pack order s.args []
  rw [List.append_nil] at back
  unfold unpackScn unpacked
  rw [show [Conv.quote 8, .l, .l, .l, .l, .l, .l, .s, .s, .l] = s.args.map Arg.conv by
    simp [Scnhdr.args, Arg.conv], back]
  simp [Scnhdr.args, Arg.conv, Conv.width, SCNHSZ, Arg.stored, Scnhdr.ofArgs, ofInt_toNat16,
    nameOf_toList, Scnhdr.stored]

theorem unpackReloc_pack (r : Reloc) : unpackReloc order (pack order r.args) = .ok r.stored := by
  have back := unpack_pack order r.args []
  rw [List.append_nil] at back
  unfold unpackReloc unpacked
  rw [show [Conv.l, .l, .s] = r.args.map Arg.conv from rfl, back]
  simp [Reloc.args, Arg.conv, Conv.width, RELSZ, Arg.stored, Reloc.ofArgs, ofInt_toNat16,
    Reloc.stored]

/-! ## What is written for the parts of an object -/

theorem concatM_ok {α : Type} {f : α → Except Stop (List UInt8)} {g : α → List UInt8}
    {l : List α} (h : ∀ a ∈ l, f a = .ok (g a)) : concatM f l = .ok (l.flatMap g) := by
  induction l with
  | nil => rfl
  | cons a l ih =>
    rw [concatM, h a List.mem_cons_self, ih fun b hb => h b (List.mem_cons_of_mem _ hb)]
    rfl

theorem concatM_each {α : Type} {f : α → Except Stop (List UInt8)} {l : List α}
    {bytes : List UInt8} (h : concatM f l = .ok bytes) : ∀ a ∈ l, ∃ b, f a = .ok b := by
  induction l generalizing bytes with
  | nil => simp
  | cons a l ih =>
    simp only [concatM, bind, Except.bind] at h
    cases first : f a with
    | error e => simp [first] at h
    | ok b =>
      cases rest : concatM f l with
      | error e => simp [first, rest] at h
      | ok more => exact List.forall_mem_cons.mpr ⟨⟨b, first⟩, ih rest⟩

theorem concatM_congr {α : Type} {f g : α → Except Stop (List UInt8)} {l : List α}
    (h : ∀ a ∈ l, f a = g a) : concatM f l = concatM g l := by
  induction l with
  | nil => rfl
  | cons a l ih =>
    rw [concatM, concatM, h a List.mem_cons_self, ih fun b hb => h b (List.mem_cons_of_mem _ hb)]

/-- A loop whose steps fail at `bad` items and else write `g`. -/
theorem concatM_iff {α : Type} (bad : α → Prop) [DecidablePred bad] (e : Stop) (g : α → List UInt8)
    (l : List α) (bytes : List UInt8) :
    concatM (fun a => if bad a then .error e else .ok (g a)) l = .ok bytes ↔
      (∀ a ∈ l, ¬bad a) ∧ bytes = l.flatMap g := by
  have written : (∀ a ∈ l, ¬bad a) →
      concatM (fun a => if bad a then .error e else .ok (g a)) l = .ok (l.flatMap g) :=
    fun good => concatM_ok fun a ha => if_neg (good a ha)
  constructor
  · intro h
    have good : ∀ a ∈ l, ¬bad a := by
      intro a ha isBad
      obtain ⟨b, hb⟩ := concatM_each h a ha
      rw [if_pos isBad] at hb
      cases hb
    rw [written good] at h
    cases h
    exact ⟨good, rfl⟩
  · rintro ⟨good, rfl⟩
    exact written good

namespace Coff32

/-- The relocations of a section. -/
def relocs (coff : Coff32) (i : Nat) : List Reloc := ((coff.rels.getD []).getD i none).getD []

/-- The line numbers of a section. -/
def linenos (coff : Coff32) (i : Nat) : List Lineno := ((coff.lines.getD []).getD i none).getD []

/-- An object in memory: its counts are those of its tables. -/
structure WellFormed (map : Map) (coff : Coff32) : Prop where
  scns : coff.scns.length = coff.nscns
  syms : coff.hdr.f_nsyms = (coff.ents.getD []).length
  relocs : ∀ i < coff.nscns, (coff.relocs i).length = (coff.scn i).s_nrelloc.toNat
  lines : ∀ i < coff.nscns, (coff.linenos i).length = (coff.scn i).s_nlnno.toNat
  strtbl : coff.strtbl.length = coff.strsiz
  data : ∀ scn ∈ coff.scns, ∀ data ∈ map.findsec scn.name, (data.length : Int) = scn.s_size

/-- The counts of an object are those of its tables. -/
structure Counted (coff : Coff32) : Prop where
  scns : coff.scns.length = coff.nscns
  syms : coff.hdr.f_nsyms = (coff.ents.getD []).length
  relocs : ∀ i < coff.nscns, (coff.relocs i).length = (coff.scn i).s_nrelloc.toNat
  lines : ∀ i < coff.nscns, (coff.linenos i).length = (coff.scn i).s_nlnno.toNat

theorem WellFormed.counted {map : Map} {coff : Coff32} (wf : WellFormed map coff) :
    Counted coff :=
  ⟨wf.scns, wf.syms, wf.relocs, wf.lines⟩

/-- What is written for the relocations of section `i`: its entry `i`, as many
times as it has entries. -/
def sectionBytes (order : Order) (i : Nat) (rels : List Reloc) : List UInt8 :=
  (rels[i]?.map fun rel => (List.replicate rels.length (pack order rel.args)).flatten).getD []

def relocBytes (order : Order) (coff : Coff32) : List UInt8 :=
  (List.range coff.nscns).flatMap fun i => sectionBytes order i (coff.relocs i)

def entBytes (order : Order) (coff : Coff32) : List UInt8 :=
  (coff.ents.getD []).flatMap fun ent => pack order ent.args

variable {map : Map} {coff : Coff32}

/-- The step of `writereloc` for section `i`. -/
theorem section_written (i : Nat) (rels : List Reloc) :
    concatM (fun _ => match rels[i]? with
      | none => .error .undefined
      | some rel => packed order RELSZ rel.args) (List.range rels.length) =
      if rels ≠ [] ∧ rels.length ≤ i then .error .undefined else .ok (sectionBytes order i rels) := by
  cases entry : rels[i]? with
  | none =>
    have short := List.getElem?_eq_none_iff.mp entry
    cases rels with
    | nil => simp [concatM, sectionBytes]
    | cons rel rels =>
      rw [if_pos ⟨List.cons_ne_nil _ _, short⟩, List.length_cons, List.range_succ_eq_map]
      rfl
  | some rel =>
    have inside : i < rels.length := (List.getElem?_eq_some_iff.mp entry).1
    have same := concatM_ok (g := fun _ => pack order rel.args)
      (l := List.range rels.length) fun _ _ => @packed_reloc order rel
    rw [if_neg (by omega)]
    simp only [same, sectionBytes, entry, Option.map_some, Option.getD_some]
    congr 1
    rw [List.flatMap_def, List.map_const', List.length_range]

theorem writereloc_iff
    (counts : ∀ i < coff.nscns, (coff.relocs i).length = (coff.scn i).s_nrelloc.toNat)
    (bytes : List UInt8) :
    coff.writereloc order = .ok bytes ↔
      (∀ i < coff.nscns, coff.relocs i ≠ [] → i < (coff.relocs i).length) ∧
        bytes = coff.relocBytes order := by
  have steps : coff.writereloc order = concatM (fun i =>
      if coff.relocs i ≠ [] ∧ (coff.relocs i).length ≤ i then .error .undefined
      else .ok (sectionBytes order i (coff.relocs i))) (List.range coff.nscns) := by
    unfold writereloc
    cases rels : coff.rels with
    | none =>
      have none : ∀ i, coff.relocs i = [] := fun i => by simp [relocs, rels]
      simp only [none, ne_eq, not_true_eq_false, false_and, if_false]
      rw [concatM_ok fun i _ => rfl]
      simp [sectionBytes]
    | some rels' =>
      refine concatM_congr fun i small => ?_
      have count := counts i (List.mem_range.mp small)
      cases rp : rels'.getD i none with
      | none =>
        have none : coff.relocs i = [] := by
          simp only [relocs, rels, Option.getD_some, rp, Option.getD_none]
        simp [none, sectionBytes]
      | some rp' =>
        have same : coff.relocs i = rp' := by simp only [relocs, rels, Option.getD_some, rp]
        rw [← count, same]
        exact section_written i rp'
  rw [steps, concatM_iff]
  simp only [List.mem_range, not_and, Nat.not_le]
  rfl

theorem writelines_iff
    (counts : ∀ i < coff.nscns, (coff.linenos i).length = (coff.scn i).s_nlnno.toNat)
    (bytes : List UInt8) :
    coff.writelines order = .ok bytes ↔ (∀ i < coff.nscns, coff.linenos i = []) ∧ bytes = [] := by
  have steps : coff.writelines order = concatM (fun i =>
      if coff.linenos i ≠ [] then .error .aborted else .ok []) (List.range coff.nscns) := by
    unfold writelines
    cases lines : coff.lines with
    | none =>
      have none : ∀ i, coff.linenos i = [] := fun i => by simp [linenos, lines]
      simp only [none, ne_eq, not_true_eq_false, if_false]
      rw [concatM_ok fun i _ => rfl]
      simp
    | some lines' =>
      refine concatM_congr fun i small => ?_
      have count := counts i (List.mem_range.mp small)
      cases lp : lines'.getD i none with
      | none =>
        have none : coff.linenos i = [] := by
          simp only [linenos, lines, Option.getD_some, lp, Option.getD_none]
        simp [none]
      | some lp' =>
        have same : coff.linenos i = lp' := by simp only [linenos, lines, Option.getD_some, lp]
        rw [← count, same]
        cases lp' with
        | nil => rfl
        | cons line lp' =>
          rw [List.length_cons, List.range_succ_eq_map]
          simp only [concatM, List.getElem?_cons_zero, packed_line]
          rfl
  rw [steps, concatM_iff]
  simp [List.flatMap_def]

/-- The length of a name is compared with the size of the table so far less
`LONG_MAX`: no name is ever kept. -/
theorem keepName_long (names : List UInt8) (ent : Syment) (long : ent.zeroes = true) :
    ∃ e, keepName names [] ent = .error e := by
  simp only [keepName, long, if_true]
  cases stringAt names ent.n_offset with
  | error e => exact ⟨e, rfl⟩
  | ok name =>
    have exceeds : (name.length + 1 : Int) > ([] : List UInt8).length - LONG_MAX := by
      simp only [LONG_MAX, List.length_nil]
      omega
    refine ⟨.failed, ?_⟩
    simp only [bind, Except.bind]
    exact if_pos exceeds

theorem writeentsFrom_iff (names : List UInt8) (ents : List Syment) (r : List UInt8 × List UInt8) :
    writeentsFrom order names ents [] = .ok r ↔
      (∀ ent ∈ ents, ent.zeroes = false) ∧ r = ([], ents.flatMap fun ent => pack order ent.args) := by
  induction ents generalizing r with
  | nil =>
    simp only [writeentsFrom, Except.ok.injEq, List.not_mem_nil, false_imp_iff, implies_true,
      true_and, List.flatMap_nil]
    exact eq_comm
  | cons ent ents ih =>
    simp only [writeentsFrom, List.forall_mem_cons]
    cases long : ent.zeroes with
    | true =>
      obtain ⟨e, stop⟩ := keepName_long names ent long
      simp [stop, bind, Except.bind]
    | false =>
      have short : keepName names [] ent = .ok [] := if_neg (by simp [long])
      simp only [short, packed_ent, true_and]
      cases rest : writeentsFrom order names ents [] with
      | error e =>
        have none := (ih ([], ents.flatMap fun ent => pack order ent.args)).mpr.mt (by simp [rest])
        simp only [bind, Except.bind, rest, reduceCtorEq, false_iff]
        exact fun h => none ⟨h.1, rfl⟩
      | ok r' =>
        obtain ⟨good, rfl⟩ := (ih r').mp rest
        simp only [bind, Except.bind, rest, pure, Except.pure, Except.ok.injEq, List.flatMap_cons]
        exact ⟨fun h => ⟨good, h.symm⟩, fun h => h.2.symm⟩

/-- The size of the string table `writestr` writes and its bytes. -/
def strBytes (order : Order) (coff : Coff32) : List UInt8 :=
  match coff.ents with
  | none => pack order [.l coff.strsiz] ++ coff.strtbl
  | some _ => pack order [.l 0]

theorem writestr_iff (bytes : List UInt8) :
    coff.writestr order = .ok bytes ↔
      coff.strsiz < 65536 ∧ bytes = pack order [.l coff.strsiz] ++ coff.strtbl := by
  have low : coff.strsiz &&& 0xffff = coff.strsiz % 2 ^ 16 := Nat.and_two_pow_sub_one_eq_mod _ 16
  unfold writestr
  rw [low]
  split
  · constructor
    · intro h
      cases h
    · omega
  · constructor
    · rintro ⟨⟩
      exact ⟨by omega, rfl⟩
    · rintro ⟨_, rfl⟩
      rfl

/-! ## The image -/

/-- What the placing of a section leaves as it is. -/
def kept (s : Scnhdr) : Vector UInt8 8 × Int × UInt16 × UInt16 :=
  (s.s_name, s.s_size, s.s_nrelloc, s.s_nlnno)

theorem placeData_kept (ptr : Int) (scns : List Scnhdr) :
    (placeData map ptr scns).1.map kept = scns.map kept := by
  induction scns generalizing ptr with
  | nil => rfl
  | cons scn scns ih => exact congrArg (_ :: ·) (ih _)

theorem placeRelocs_kept (ptr : Int) (scns : List Scnhdr) :
    (placeRelocs ptr scns).1.map kept = scns.map kept := by
  induction scns generalizing ptr with
  | nil => rfl
  | cons scn scns ih => exact congrArg (_ :: ·) (ih _)

theorem placeLines_kept (ptr : Int) (scns : List Scnhdr) :
    (placeLines ptr scns).1.map kept = scns.map kept := by
  induction scns generalizing ptr with
  | nil => rfl
  | cons scn scns ih => exact congrArg (_ :: ·) (ih _)

theorem placed_kept (map : Map) (coff : Coff32) :
    (coff.placed map).scns.map kept = coff.scns.map kept :=
  (placeLines_kept _ _).trans ((placeRelocs_kept _ _).trans (placeData_kept _ _))

theorem placed_scn_kept (map : Map) (coff : Coff32) (i : Nat) :
    kept ((coff.placed map).scn i) = kept (coff.scn i) := by
  have same := congrArg (·[i]?) (placed_kept map coff)
  simp only [List.getElem?_map] at same
  simp only [scn, List.getD_eq_getElem?_getD]
  cases h : (coff.placed map).scns[i]? <;> cases h' : coff.scns[i]? <;> simp_all

theorem placed_data (map : Map) (coff : Coff32) :
    (coff.placed map).writedata map = coff.writedata map := by
  have names : ∀ c : Coff32, c.writedata map = (c.scns.map kept).flatMap fun k =>
      (map.findsec (k.1.toList.takeWhile (· ≠ 0))).getD [] := by
    intro c
    rw [List.flatMap_map]
    rfl
  rw [names, names, placed_kept]

/-- Where the data of the sections ends. -/
def dataEnd (map : Map) (coff : Coff32) : Nat :=
  FILHSZ + coff.nscns * SCNHSZ + (coff.writedata map).length

theorem placeData_end (ptr : Int) (scns : List Scnhdr)
    (sizes : ∀ scn ∈ scns, ∀ data ∈ map.findsec scn.name, (data.length : Int) = scn.s_size) :
    (placeData map ptr scns).2 =
      ptr + (scns.flatMap fun scn => (map.findsec scn.name).getD []).length := by
  induction scns generalizing ptr with
  | nil => simp [placeData]
  | cons scn scns ih =>
    obtain ⟨size, sizes⟩ := List.forall_mem_cons.mp sizes
    simp only [placeData, ih _ sizes, List.flatMap_cons, List.length_append]
    cases found : map.findsec scn.name with
    | none => simp
    | some data =>
      have := size data found
      simp only [Option.isSome_some, if_true, Option.getD_some]
      omega

/-- What `coff32write` asks of an object. -/
structure Writes (coff : Coff32) : Prop where
  opthdr : coff.hdr.f_opthdr = 0
  relocs : ∀ i < coff.nscns, coff.relocs i ≠ [] → i < (coff.relocs i).length
  lines : ∀ i < coff.nscns, coff.linenos i = []
  names : ∀ ent ∈ coff.ents.getD [], ent.zeroes = false
  strsiz : coff.ents = none → coff.strsiz < 65536

/-- The image up to the end of the data. -/
def head (order : Order) (map : Map) (coff : Coff32) : List UInt8 :=
  pack order (coff.placed map).hdr.args ++
    ((coff.placed map).scns.flatMap (fun scn => pack order scn.args) ++ coff.writedata map)

/-- The image from the end of the data on. -/
def tail (order : Order) (coff : Coff32) : List UInt8 :=
  coff.relocBytes order ++ (coff.entBytes order ++ coff.strBytes order)

theorem writeents_iff (r : Coff32 × List UInt8) :
    coff.writeents order = .ok r ↔
      (∀ ent ∈ coff.ents.getD [], ent.zeroes = false) ∧
        r = (if coff.ents = none then coff else { coff with strtbl := [], strsiz := 0 },
          coff.entBytes order) := by
  unfold writeents entBytes
  cases h : coff.ents with
  | none =>
    simp only [Option.getD_none, List.not_mem_nil, false_imp_iff, implies_true, true_and, if_true,
      List.flatMap_nil, Except.ok.injEq]
    exact eq_comm
  | some ents =>
    simp only [bind_ok, writeentsFrom_iff, Option.getD_some, reduceCtorEq, if_false]
    constructor
    · rintro ⟨_, ⟨good, rfl⟩, ⟨⟩⟩
      exact ⟨good, rfl⟩
    · rintro ⟨good, rfl⟩
      exact ⟨_, ⟨good, rfl⟩, rfl⟩

/-- The object as `coff32write` leaves it. -/
def left (map : Map) (coff : Coff32) : Coff32 :=
  if coff.ents = none then coff.placed map else { coff.placed map with strtbl := [], strsiz := 0 }

theorem write_ok (counted : Counted coff) (c : Coff32) (image : List UInt8) :
    coff32write order map coff = .ok (c, image) ↔
      Writes coff ∧ c = coff.left map ∧ image = coff.head order map ++ coff.tail order := by
  have relCounts : ∀ i < (coff.placed map).nscns,
      ((coff.placed map).relocs i).length = ((coff.placed map).scn i).s_nrelloc.toNat := by
    intro i small
    rw [show ((coff.placed map).scn i).s_nrelloc = (coff.scn i).s_nrelloc from
      congrArg (·.2.2.1) (placed_scn_kept map coff i)]
    exact counted.relocs i small
  have lineCounts : ∀ i < (coff.placed map).nscns,
      ((coff.placed map).linenos i).length = ((coff.placed map).scn i).s_nlnno.toNat := by
    intro i small
    rw [show ((coff.placed map).scn i).s_nlnno = (coff.scn i).s_nlnno from
      congrArg (·.2.2.2) (placed_scn_kept map coff i)]
    exact counted.lines i small
  have hdr : (coff.placed map).writehdr order = .ok (pack order (coff.placed map).hdr.args) :=
    packed_hdr _
  have scns : (coff.placed map).writescns order =
      .ok ((coff.placed map).scns.flatMap fun scn => pack order scn.args) :=
    concatM_ok fun scn _ => packed_scn scn
  have aout : ∀ b, (coff.placed map).writeaout order = .ok b ↔ coff.hdr.f_opthdr = 0 ∧ b = [] := by
    intro b
    have same : (coff.placed map).hdr.f_opthdr = coff.hdr.f_opthdr := rfl
    unfold writeaout
    rw [same]
    split
    · rename_i none
      simp [none, eq_comm]
    · rename_i some
      simp [packed_aout, bind, Except.bind, some]
  simp only [coff32write, bind_ok, hdr, aout, scns, writereloc_iff relCounts,
    writelines_iff lineCounts, writeents_iff, writestr_iff, placed_data, pure, Except.pure,
    Except.ok.injEq, Prod.mk.injEq]
  have str : ∀ c : Coff32, c = coff.left map →
      (c.strsiz < 65536 ↔ (coff.ents = none → coff.strsiz < 65536)) ∧
        pack order [.l c.strsiz] ++ c.strtbl = coff.strBytes order := by
    rintro _ rfl
    cases h : coff.ents with
    | none => simp [left, strBytes, h, placed]
    | some ents => simp [left, strBytes, h]
  constructor
  · rintro ⟨_, rfl, _, ⟨opthdr, rfl⟩, _, rfl, _, ⟨rels, rfl⟩, _, ⟨lines, rfl⟩, _, ⟨names, rfl⟩,
      _, ⟨small, rfl⟩, rfl, rfl⟩
    obtain ⟨strsiz, bytes⟩ := str _ rfl
    refine ⟨⟨opthdr, rels, lines, names, strsiz.mp small⟩, rfl, ?_⟩
    simp only [head, tail, ← bytes, List.append_nil, List.append_assoc]
    rfl
  · rintro ⟨⟨opthdr, rels, lines, names, strsiz⟩, rfl, rfl⟩
    obtain ⟨small, bytes⟩ := str _ rfl
    refine ⟨_, rfl, _, ⟨opthdr, rfl⟩, _, rfl, _, ⟨rels, rfl⟩, _, ⟨lines, rfl⟩, _, ⟨names, rfl⟩,
      _, ⟨small.mpr strsiz, rfl⟩, rfl, ?_⟩
    simp only [head, tail, ← bytes, List.append_nil, List.append_assoc]
    rfl

theorem write_iff (counted : Counted coff) (image : List UInt8) :
    (∃ c, coff32write order map coff = .ok (c, image)) ↔
      Writes coff ∧ image = coff.head order map ++ coff.tail order := by
  simp only [write_ok counted]
  constructor
  · rintro ⟨_, writes, -, same⟩
    exact ⟨writes, same⟩
  · rintro ⟨writes, same⟩
    exact ⟨_, writes, rfl, same⟩

end Coff32

end Scc.Libmach
