import Scc.Libmach.Coff32Symbols
import Mathlib.Data.List.Induction

set_option linter.all false

/-! Symbols that are set, written and read: no symbol comes back. -/
namespace Scc.Libmach
open Transition Coff32

variable {order : Order} {map : Map} {coff : Coff32} {calls : List Setsym}

/-- An object as `coff32new` and `coff32setsec` leave it, whose sections have the sizes of their
data. -/
structure Fresh (map : Map) (coff : Coff32) : Prop where
  scns : coff.scns.length = coff.nscns
  nsyms : coff.hdr.f_nsyms = 0
  opthdr : coff.hdr.f_opthdr = 0
  ents : coff.ents = none
  rels : coff.rels = none
  lines : coff.lines = none
  strtbl : coff.strtbl = []
  strsiz : coff.strsiz = 0
  counts : ∀ scn ∈ coff.scns, scn.s_nrelloc = 0 ∧ scn.s_nlnno = 0
  data : ∀ scn ∈ coff.scns, ∀ data ∈ map.findsec scn.name, (data.length : Int) = scn.s_size

/-- The symbols of the calls are read back by `coff32getsym`, and the image ends with a string
table and its length. Of several calls with one index the last counts. -/
def SymbolsBack (order : Order) (map : Map) (coff : Coff32) (calls : List Setsym) : Prop :=
  ∃ c image out, coff32write order map (setsyms coff calls) = .ok (c, image) ∧
    coff32read order image = .ok out ∧
    (∀ before call after, calls = before ++ call :: after → (∀ later ∈ after, later.n ≠ call.n) →
      (coff32setsym (setsyms coff before) call).2 = some call.sym → ∀ sym : Symbol, ∃ idx back,
        coff32getsym out call.n sym = .ok (some (idx, back)) ∧ back.name = call.sym.name ∧
          back.value = call.sym.value ∧ back.type = call.sym.type ∧
          back.symSection = call.sym.symSection) ∧
    ∃ front table, image = front ++ (pack order [.l (table.length : Nat)] ++ table) ∧
      (0 < c.hdr.f_nsyms → (front.length : Int) = c.hdr.f_symptr + SYMESZ * c.hdr.f_nsyms)

/-! ## What the calls leave as it is -/

/-- An object that symbols were set in. -/
structure SetIn (coff c : Coff32) : Prop where
  scns : c.scns = coff.scns
  rels : c.rels = coff.rels
  lines : c.lines = coff.lines
  opthdr : c.hdr.f_opthdr = coff.hdr.f_opthdr
  nscns : c.hdr.f_nscns = coff.hdr.f_nscns

theorem SetIn.refl (coff : Coff32) : SetIn coff coff := ⟨rfl, rfl, rfl, rfl, rfl⟩

theorem SetIn.trans {a b c : Coff32} (ab : SetIn a b) (bc : SetIn b c) : SetIn a c where
  scns := bc.scns.trans ab.scns
  rels := bc.rels.trans ab.rels
  lines := bc.lines.trans ab.lines
  opthdr := bc.opthdr.trans ab.opthdr
  nscns := bc.nscns.trans ab.nscns

/-- The number of symbols is that of the entries. -/
def SymsCounted (coff : Coff32) : Prop := coff.hdr.f_nsyms = (coff.ents.getD []).length

theorem room_counted (mem : NewMemory) (n : Nat) (counted : SymsCounted coff) :
    SetIn coff (coff.room mem n) ∧ SymsCounted (coff.room mem n) ∧
      (n : Int) < (coff.room mem n).hdr.f_nsyms := by
  unfold room
  split
  · refine ⟨⟨rfl, rfl, rfl, rfl, rfl⟩, ?_, ?_⟩
    · simp [SymsCounted]
    · dsimp only
      omega
  · exact ⟨.refl coff, counted, by omega⟩

theorem setEnt_counted (n : Nat) (ent : Syment) :
    SetIn coff (coff.setEnt n ent) ∧ (SymsCounted coff → SymsCounted (coff.setEnt n ent)) ∧
      (coff.setEnt n ent).hdr = coff.hdr := by
  refine ⟨⟨rfl, rfl, rfl, rfl, rfl⟩, ?_, rfl⟩
  intro counted
  unfold SymsCounted at counted ⊢
  rw [setEnt, counted]
  cases coff.ents with
  | none => rfl
  | some ents => simp

theorem setName_kept {mem : NewMemory} {ent ent' : Syment} {sym : Symbol} {c : Coff32}
    (named : coff.setName mem ent sym = some (c, ent')) :
    SetIn coff c ∧ c.hdr = coff.hdr ∧ c.ents = coff.ents := by
  simp only [setName] at named
  split at named
  · cases named
    exact ⟨.refl coff, rfl, rfl⟩
  · split at named
    · cases named
    · cases named
      exact ⟨⟨rfl, rfl, rfl, rfl, rfl⟩, rfl, rfl⟩

theorem setsym_counted (call : Setsym) (counted : SymsCounted coff) :
    SetIn coff (coff32setsym coff call).1 ∧ SymsCounted (coff32setsym coff call).1 ∧
      0 < (coff32setsym coff call).1.hdr.f_nsyms := by
  let cleared := { coff with hdr := { coff.hdr with f_flags := coff.hdr.f_flags &&& ~~~F_LSYMS } }
  have start : SetIn coff cleared := ⟨rfl, rfl, rfl, rfl, rfl⟩
  obtain ⟨grown, roomCounted, inside⟩ := @room_counted cleared call.mem call.n counted
  have positive : 0 < (cleared.room call.mem call.n).hdr.f_nsyms := by omega
  unfold coff32setsym
  dsimp only
  split
  · exact ⟨start.trans grown, roomCounted, positive⟩
  · rename_i c ent named
    obtain ⟨kept, hdr, ents⟩ := setName_kept named
    have namedCounted : SymsCounted c := by
      unfold SymsCounted
      rw [hdr, ents]
      exact roomCounted
    have set := start.trans (grown.trans kept)
    split
    · rename_i ent' _
      obtain ⟨set', counted', hdr'⟩ := @setEnt_counted c call.n ent'
      refine ⟨set.trans set', counted' namedCounted, ?_⟩
      rw [hdr', hdr]
      exact positive
    · rename_i ent' _
      obtain ⟨set', counted', hdr'⟩ := @setEnt_counted c call.n { ent' with n_numaux := 0 }
      refine ⟨set.trans set', counted' namedCounted, ?_⟩
      rw [hdr', hdr]
      exact positive

theorem setsyms_counted (calls : List Setsym) (counted : SymsCounted coff) :
    SetIn coff (setsyms coff calls) ∧ SymsCounted (setsyms coff calls) ∧
      (calls ≠ [] → 0 < (setsyms coff calls).hdr.f_nsyms) := by
  induction calls using List.reverseRecOn with
  | nil => exact ⟨.refl coff, counted, fun some => absurd rfl some⟩
  | append_singleton calls call ih =>
    obtain ⟨before, countedBefore, -⟩ := ih
    obtain ⟨step, countedStep, positive⟩ := setsym_counted call countedBefore
    have last : setsyms coff (calls ++ [call]) = (coff32setsym (setsyms coff calls) call).1 := by
      simp [setsyms]
    rw [last]
    exact ⟨before.trans step, countedStep, fun _ => positive⟩

/-! ## The image -/

theorem Fresh.none_relocs (fresh : Fresh map coff) {c : Coff32} (set : SetIn coff c) (i : Nat) :
    c.relocs i = [] := by
  simp [relocs, set.rels, fresh.rels]

theorem Fresh.none_linenos (fresh : Fresh map coff) {c : Coff32} (set : SetIn coff c) (i : Nat) :
    c.linenos i = [] := by
  simp [linenos, set.lines, fresh.lines]

theorem Fresh.zero_counts (fresh : Fresh map coff) {c : Coff32} (set : SetIn coff c) (i : Nat) :
    (c.scn i).s_nrelloc = 0 ∧ (c.scn i).s_nlnno = 0 := by
  rw [scn, set.scns, List.getD_eq_getElem?_getD]
  cases found : coff.scns[i]? with
  | none => exact ⟨rfl, rfl⟩
  | some scn => exact fresh.counts scn (List.mem_of_getElem? found)

/-- The strings an object with entries has in memory are not written. -/
def bare (c : Coff32) : Coff32 := { c with strtbl := [], strsiz := 0 }

theorem Fresh.wellFormed (fresh : Fresh map coff) {c : Coff32} (set : SetIn coff c)
    (counted : SymsCounted c) : WellFormed map (bare c) where
  scns := by
    have same : (bare c).nscns = coff.nscns := congrArg UInt16.toNat set.nscns
    rw [same, ← fresh.scns]
    exact congrArg List.length set.scns
  syms := counted
  relocs := by
    intro i _
    have none : (bare c).relocs i = [] := fresh.none_relocs set i
    rw [none, show ((bare c).scn i).s_nrelloc = 0 from (fresh.zero_counts set i).1]
    rfl
  lines := by
    intro i _
    have none : (bare c).linenos i = [] := fresh.none_linenos set i
    rw [none, show ((bare c).scn i).s_nlnno = 0 from (fresh.zero_counts set i).2]
    rfl
  strtbl := rfl
  data := by
    intro scn member
    exact fresh.data scn (set.scns ▸ member)

theorem Fresh.counted (fresh : Fresh map coff) {c : Coff32} (set : SetIn coff c)
    (counted : SymsCounted c) : Counted c :=
  let all := (fresh.wellFormed set counted).counted
  ⟨all.scns, all.syms, all.relocs, all.lines⟩

theorem entBytes_length (c : Coff32) :
    (c.entBytes order).length = SYMESZ * (c.ents.getD []).length := by
  rw [entBytes, List.length_flatMap]
  simp [pack_ent_length, Nat.mul_comm]

/-- The size that is found after the entries of an object that was written is zero. -/
theorem Fresh.foundSize_zero (fresh : Fresh map coff) {c : Coff32} (set : SetIn coff c)
    {ents : List Syment} (some : c.ents = some ents) :
    foundSize order ents.length ((bare c).tail order) = 0 := by
  have relocs : (bare c).relocBytes order = [] := by
    refine List.flatMap_eq_nil_iff.mpr ?_
    intro i _
    rw [show (bare c).relocs i = [] from fresh.none_relocs set i]
    rfl
  have length : ((bare c).entBytes order).length = SYMESZ * ents.length := by
    rw [entBytes_length, show (bare c).ents = Option.some ents from some]
    rfl
  have table : (bare c).strBytes order = pack order [.l 0] := by
    rw [strBytes, show (bare c).ents = Option.some ents from some]
  have zero : bytesValue (order.arrange (pack order [.l 0])) = 0 := by
    cases order <;> rfl
  rw [foundSize, tail, relocs, table, List.nil_append, ← length, List.drop_left,
    List.take_of_length_le, zero]
  rw [pack_length]
  exact Nat.le_refl 4

/-- An image with symbols is not read. -/
theorem Fresh.not_read (fresh : Fresh map coff) {c : Coff32} (set : SetIn coff c)
    (counted : SymsCounted c) (some : 0 < c.hdr.f_nsyms) (small : Small order map c) (out : Coff32) :
    coff32read order (c.head order map ++ c.tail order) ≠ .ok out := by
  intro read
  cases found : c.ents with
  | none =>
    rw [SymsCounted, found] at counted
    simp at counted
    omega
  | some ents =>
    have wf := fresh.wellFormed set counted
    have opthdr : (bare c).hdr.f_opthdr = 0 := set.opthdr.trans fresh.opthdr
    have str : (bare c).strBytes order = c.strBytes order := by
      rw [strBytes, strBytes, found, show (bare c).ents = Option.some ents from found]
    have image : c.head order map ++ c.tail order =
        (bare c).head order map ++ (bare c).tail order := by
      rw [tail, tail, str]
      rfl
    rw [image, read_image wf opthdr] at read
    rw [Coff32.Small, image] at small
    obtain ⟨⟨ents', left⟩, readEnts, read⟩ := bind_ok.mp read
    obtain ⟨str', readStr, -⟩ := bind_ok.mp read
    have table := (image_symbols wf opthdr small _).1 ⟨ents', str', left, readEnts, readStr⟩
      (Int.ne_of_gt some)
    have least := table.least
    rw [show (bare c).ents = Option.some ents from found, Option.getD_some,
      fresh.foundSize_zero set found] at least
    exact absurd least (by decide)

/-! ## The round trip -/

theorem readreloc_none (hdr : Filehdr) (file : List UInt8) (i : Nat) (scns : List Scnhdr)
    (none : ∀ scn ∈ scns, scn.s_nrelloc = 0) :
    readreloc order hdr file i scns = .ok (scns.map fun _ => Option.none) := by
  induction scns generalizing i with
  | nil => rfl
  | cons scn scns ih =>
    obtain ⟨zero, none⟩ := List.forall_mem_cons.mp none
    simp only [readreloc, readrelocSection, zero, if_true, ih (i + 1) none]
    rfl

/-- An object without symbols is written and read. -/
theorem Fresh.read (fresh : Fresh map coff) :
    Writes coff ∧ ∃ out, coff32read order (coff.head order map ++ coff.tail order) = .ok out := by
  have wf : WellFormed map coff :=
    { scns := fresh.scns
      syms := by rw [fresh.nsyms, fresh.ents]; rfl
      relocs := by
        intro i _
        rw [fresh.none_relocs (.refl coff) i, (fresh.zero_counts (.refl coff) i).1]
        rfl
      lines := by
        intro i _
        rw [fresh.none_linenos (.refl coff) i, (fresh.zero_counts (.refl coff) i).2]
        rfl
      strtbl := by rw [fresh.strtbl, fresh.strsiz]; rfl
      data := fresh.data }
  have writes : Writes coff :=
    { opthdr := fresh.opthdr
      relocs := fun i _ some => absurd (fresh.none_relocs (.refl coff) i) some
      lines := fun i _ => fresh.none_linenos (.refl coff) i
      names := by
        rw [fresh.ents]
        exact fun ent member => (List.not_mem_nil member).elim
      strsiz := fun _ => by rw [fresh.strsiz]; decide }
  have nsyms : (coff.placed map).hdr.stored.f_nsyms = 0 := by
    have same : (coff.placed map).hdr.stored.f_nsyms = coff.hdr.f_nsyms % 2 ^ 32 := rfl
    rw [same, fresh.nsyms]
    rfl
  have counts : ∀ scn ∈ (coff.placed map).scns.map Scnhdr.stored, scn.s_nrelloc = 0 := by
    intro scn member
    obtain ⟨s, hs, rfl⟩ := List.mem_map.mp member
    obtain ⟨i, small, rfl⟩ := List.mem_iff_getElem.mp hs
    have same := congrArg (·.2.2.1) (placed_scn_kept map coff i)
    rw [stored_nrelloc]
    have here : (coff.placed map).scn i = (coff.placed map).scns[i] := by
      rw [Coff32.scn, List.getD_eq_getElem?_getD, List.getElem?_eq_getElem small]
      rfl
    rw [← here]
    exact same.trans (fresh.zero_counts (.refl coff) i).1
  have readEnts (file rest : List UInt8) :
      readents order (coff.placed map).hdr.stored file rest = .ok (none, rest) := if_pos nsyms
  have readStr (rest : List UInt8) :
      readstr order (coff.placed map).hdr.stored rest = .ok ([], 0) := if_pos nsyms
  refine ⟨writes, ?_⟩
  rw [read_image wf fresh.opthdr]
  simp only [readEnts, readStr, readreloc_none _ _ _ _ counts, image_lines wf writes, bind,
    Except.bind]
  exact ⟨_, rfl⟩

theorem Fresh.syms_counted (fresh : Fresh map coff) : SymsCounted coff := by
  rw [SymsCounted, fresh.nsyms, fresh.ents]
  rfl

theorem Fresh.no_calls (fresh : Fresh map coff) (back : SymbolsBack order map coff calls)
    (small : Small order map (setsyms coff calls)) : calls = [] := by
  obtain ⟨c, image, out, written, read, -⟩ := back
  obtain ⟨set, counted, positive⟩ := setsyms_counted calls fresh.syms_counted
  by_contra some
  obtain ⟨-, -, rfl⟩ := (write_ok (fresh.counted set counted) c image).mp written
  exact fresh.not_read set counted (positive some) small out read

/-- Without calls the object is written and read; with calls, in an image under four gigabytes,
what was set never comes back. -/
theorem setsyms_back (fresh : Fresh map coff) :
    (calls = [] → SymbolsBack order map coff calls) ∧
      (SymbolsBack order map coff calls → Small order map (setsyms coff calls) → calls = []) := by
  constructor
  · rintro rfl
    obtain ⟨writes, out, read⟩ := @Fresh.read order _ _ fresh
    refine ⟨_, _, out, (write_ok (fresh.counted (.refl coff) fresh.syms_counted) _ _).mpr ⟨writes, rfl, rfl⟩,
      read, ?_, coff.head order map ++ (coff.relocBytes order ++ coff.entBytes order), [], ?_, ?_⟩
    · intro before call after split
      exact absurd split.symm (by simp)
    · have table : coff.strBytes order = pack order [.l 0] := by
        rw [strBytes, fresh.ents, fresh.strsiz, fresh.strtbl]
        simp
      simp [tail, table]
    · intro some
      exact absurd fresh.nsyms (Int.ne_of_gt (by simpa [setsyms, left, fresh.ents, placed] using some))
  · exact fresh.no_calls

/-- One section without data. -/
def oneText : Coff32 :=
  { hdr := ⟨0x14c, 1, 0, 0, 0, 0, 0⟩
    aout := ⟨0, 0, 0, 0, 0, 0, 0, 0⟩
    scns := [⟨nameOf [46, 116], 0, 0, 0, 0, 0, 0, 0, 0, 0x20⟩]
    ents := none
    rels := none
    lines := none
    strtbl := []
    strsiz := 0 }

theorem oneText_fresh : Fresh [] oneText := by
  refine ⟨rfl, rfl, rfl, rfl, rfl, rfl, rfl, rfl, ?_, ?_⟩
  · intro scn member
    rw [List.mem_singleton.mp member]
    exact ⟨rfl, rfl⟩
  · intro scn _ data found
    cases found

/-- `main` at 4 in the first section. -/
def setMain : Setsym :=
  { n := 0, sym := ⟨[109, 97, 105, 110], 0, 4, 0, 0, 'T', 0⟩
    mem := ⟨fun _ => ⟨nameOf [], 0, 0, 0, 0, 0, 0⟩, fun _ => 0⟩ }

theorem setsyms_back_none : SymbolsBack .LITTLE_ENDIAN [] oneText [] :=
  (setsyms_back oneText_fresh).1 rfl

theorem main_not_back :
    ¬∀ (order : Order) (map : Map) (coff : Coff32) (calls : List Setsym), Fresh map coff →
      SymbolsBack order map coff calls := by
  intro h
  exact absurd (oneText_fresh.no_calls (h .LITTLE_ENDIAN [] oneText [setMain] oneText_fresh)
    (by unfold Coff32.Small; decide)) (List.cons_ne_nil _ _)

end Scc.Libmach
