import Scc.Ar.Symdefs

set_option linter.all false

/-! What the index of `ranlib` has, and when it tells of multiple definitions. -/
namespace Scc.Ar

/-- Symbols that `newsymbol` looks at. -/
def Sym.external (sym : Sym) : Bool := sym.type.isUpper && sym.type ≠ 'N'

def Sym.common (sym : Sym) : Bool := sym.type = 'C'

/-- External symbols that are neither common nor only referenced. -/
def Sym.defines (sym : Sym) : Bool := sym.external && sym.type ≠ 'U' && !sym.common

/-- A symbol that is not common and comes after a definition. -/
def stopsAt (seen : List Sym) (sym : Sym) : Bool :=
  sym.external && !sym.common && seen.any fun other => other.defines && other.name = sym.name

/-- What is read of a member after other symbols: up to the first symbol that stops it. -/
def readPart (seen : List Sym) : List Sym → List Sym
  | [] => []
  | sym :: syms => if stopsAt seen sym then [sym] else sym :: readPart (seen ++ [sym]) syms

/-- All symbols read of the members, one after the other. -/
def readAll (seen : List Sym) : List Object → List Sym
  | [] => seen
  | object :: objects => readAll (seen ++ readPart seen object.syms) objects

/-- Some member was stopped. -/
def Stopped (seen : List Sym) : Prop :=
  ∃ before sym after, seen = before ++ sym :: after ∧ stopsAt before sym = true

section
attribute [local simp] Symdefs.walk Symdefs.lookup newsymbol Sym.external Sym.defines stopsAt readPart readAll
end

variable {table : Symdefs} {seen : List Sym} {sym : Sym} {name : Name}

/-- The table after some symbols were read. -/
structure Holds (seen : List Sym) (table : Symdefs) : Prop where
  nodup : (table.syms.map Symdef.name).Nodup
  names : ∀ n, n ∈ table.syms.map Symdef.name ↔ ∃ s ∈ seen, s.external = true ∧ s.name = n
  types : ∀ (i : Nat) dp, table.syms[i]? = some dp →
    (dp.type ≠ 'C' ∧ dp.type ≠ 'U' ↔ ∃ s ∈ seen, s.defines = true ∧ s.name = dp.name)
  chains : ∀ h, table.htab h ≤ table.syms.length
  found : ∀ (i : Nat) dp, table.syms[i]? = some dp → i < table.htab (genhash dp.name % NR_SYMDEF)

theorem walk_some {n i : Nat} (walked : table.walk name n = some i) :
    i < n ∧ ∃ dp, table.syms[i]? = some dp ∧ dp.name = name := by
  induction n with
  | zero => cases walked
  | succ n ih =>
    rw [Symdefs.walk] at walked
    split at walked
    · rename_i here
      cases walked
      obtain ⟨dp, at', same⟩ := Option.map_eq_some_iff.mp here
      exact ⟨Nat.lt_succ_self _, dp, at', same⟩
    · obtain ⟨small, dp⟩ := ih walked
      exact ⟨Nat.lt_succ_of_lt small, dp⟩

theorem walk_none {n i : Nat} {dp : Symdef} (walked : table.walk name n = none) (small : i < n)
    (here : table.syms[i]? = some dp) : dp.name ≠ name := by
  induction n with
  | zero => omega
  | succ n ih =>
    rw [Symdefs.walk] at walked
    split at walked
    · cases walked
    · rename_i other
      by_cases last : i = n
      · subst last
        rintro rfl
        exact other (by rw [here]; rfl)
      · exact ih walked (by omega)

/-- `lookup` gives a table with the symbol, which it makes only if it is not there. -/
theorem lookup_spec (holds : Holds seen table) (name : Name) :
    ∃ dp, (table.lookup name).1.syms[(table.lookup name).2]? = some dp ∧ dp.name = name ∧
      ((table.lookup name).1 = table ∨
        name ∉ table.syms.map Symdef.name ∧ dp.type = 'U' ∧
          (table.lookup name).1.syms = table.syms ++ [dp] ∧
          (table.lookup name).1.htab = fun other =>
            if other = genhash name % NR_SYMDEF then table.syms.length + 1 else table.htab other) := by
  unfold Symdefs.lookup
  dsimp only
  split
  · rename_i i walked
    obtain ⟨-, dp, here, same⟩ := walk_some walked
    exact ⟨dp, here, same, .inl rfl⟩
  · rename_i walked
    refine ⟨⟨name, 'U', -1⟩, by simp, rfl, .inr ⟨?_, rfl, rfl, rfl⟩⟩
    intro member
    obtain ⟨dp, mem, same⟩ := List.mem_map.mp member
    obtain ⟨i, small, rfl⟩ := List.mem_iff_getElem.mp mem
    have here := List.getElem?_eq_getElem small
    refine walk_none walked ?_ here same
    rw [← same]
    exact holds.found i _ here

theorem external_of_defines (defines : sym.defines = true) : sym.external = true := by
  simp only [Sym.defines, Bool.and_eq_true] at defines
  exact defines.1.1

theorem exists_mem_snoc {p : Sym → Prop} :
    (∃ s ∈ seen ++ [sym], p s) ↔ (∃ s ∈ seen, p s) ∨ p sym := by
  simp [or_and_right, exists_or]

/-- A table in which `lookup` found a symbol at `i`. -/
structure Looked (seen : List Sym) (sym : Sym) (table : Symdefs) (i : Nat) (dp : Symdef) : Prop where
  here : table.syms[i]? = some dp
  same : dp.name = sym.name
  nodup : (table.syms.map Symdef.name).Nodup
  names : ∀ n, n ∈ table.syms.map Symdef.name ↔
    (∃ s ∈ seen, s.external = true ∧ s.name = n) ∨ sym.name = n
  types : ∀ (j : Nat) dp, table.syms[j]? = some dp →
    (dp.type ≠ 'C' ∧ dp.type ≠ 'U' ↔ ∃ s ∈ seen, s.defines = true ∧ s.name = dp.name)
  chains : ∀ h, table.htab h ≤ table.syms.length
  found : ∀ (j : Nat) dp, table.syms[j]? = some dp → j < table.htab (genhash dp.name % NR_SYMDEF)

theorem lookup_looked (holds : Holds seen table) (sym : Sym) :
    ∃ dp, Looked seen sym (table.lookup sym.name).1 (table.lookup sym.name).2 dp := by
  obtain ⟨dp, here, same, old | ⟨absent, plain, syms, htab⟩⟩ := lookup_spec holds sym.name
  · rw [old] at here ⊢
    refine ⟨dp, here, same, holds.nodup, ?_, holds.types, holds.chains, holds.found⟩
    intro n
    rw [holds.names]
    constructor
    · exact .inl
    · rintro (seen | rfl)
      · exact seen
      · refine (holds.names _).mp ?_
        rw [← same]
        exact List.mem_map_of_mem (List.mem_of_getElem? here)
  · -- an entry of the longer table is an old one or the new one
    have entry {j : Nat} {other : Symdef} (at' : (table.syms ++ [dp])[j]? = some other) :
        table.syms[j]? = some other ∨ j = table.syms.length ∧ other = dp := by
      rcases Nat.lt_or_ge j table.syms.length with small | large
      · rw [List.getElem?_append_left small] at at'
        exact .inl at'
      · have bound := (List.getElem?_eq_some_iff.mp at').1
        rw [List.getElem?_append_right large] at at'
        rw [List.length_append, List.length_singleton] at bound
        exact .inr ⟨by omega, List.mem_singleton.mp (List.mem_of_getElem? at')⟩
    refine ⟨dp, here, same, ?_, ?_, ?_, ?_, ?_⟩
    · rw [syms, List.map_append, List.map_singleton, same]
      exact List.nodup_append.mpr ⟨holds.nodup, List.nodup_singleton _, by
        intro a ha b hb
        rw [List.mem_singleton.mp hb]
        rintro rfl
        exact absent ha⟩
    · intro n
      rw [syms, List.map_append, List.mem_append, holds.names, List.map_singleton, List.mem_singleton, same,
        eq_comm (a := n)]
    · intro j other at'
      rw [syms] at at'
      rcases entry at' with old | ⟨-, rfl⟩
      · exact holds.types j other old
      · rw [plain, same]
        refine iff_of_false (by simp) ?_
        rintro ⟨s, member, defines, equal⟩
        exact absent ((holds.names _).mpr ⟨s, member, external_of_defines defines, equal⟩)
    · intro h
      rw [syms, htab]
      dsimp only
      rw [List.length_append, List.length_singleton]
      split
      · exact Nat.le_refl _
      · exact Nat.le_succ_of_le (holds.chains h)
    · intro j other at'
      rw [syms] at at'
      rw [htab]
      dsimp only
      rcases entry at' with old | ⟨rfl, rfl⟩
      · have small := (List.getElem?_eq_some_iff.mp old).1
        split
        · omega
        · exact holds.found j other old
      · rw [same, if_pos rfl]
        exact Nat.lt_succ_self _

namespace Looked

variable {i : Nat} {dp : Symdef}

theorem only (looked : Looked seen sym table i dp) {j : Nat} {other : Symdef}
    (at' : table.syms[j]? = some other) (equal : other.name = sym.name) : j = i := by
  have inside := (List.getElem?_eq_some_iff.mp at').1
  refine (List.getElem?_inj (by simpa using inside) looked.nodup).mp ?_
  rw [List.getElem?_map, List.getElem?_map, at', looked.here]
  simp [equal, looked.same]

theorem defined (looked : Looked seen sym table i dp) :
    dp.type ≠ 'C' ∧ dp.type ≠ 'U' ↔ ∃ s ∈ seen, s.defines = true ∧ s.name = sym.name := by
  rw [← looked.same]
  exact looked.types i dp looked.here

theorem names_snoc (looked : Looked seen sym table i dp) (external : sym.external = true) (n : Name) :
    n ∈ table.syms.map Symdef.name ↔ ∃ s ∈ seen ++ [sym], s.external = true ∧ s.name = n := by
  rw [looked.names, exists_mem_snoc, and_iff_right external]

/-- The entry stays as it is. -/
theorem keep (looked : Looked seen sym table i dp) (external : sym.external = true)
    (no : (dp.type ≠ 'C' ∧ dp.type ≠ 'U') ∨ sym.defines = false) : Holds (seen ++ [sym]) table := by
  refine ⟨looked.nodup, looked.names_snoc external, ?_, looked.chains, looked.found⟩
  intro j other at'
  rw [looked.types j other at', exists_mem_snoc]
  refine (or_iff_left_of_imp ?_).symm
  rintro ⟨defines, equal⟩
  rcases no with before | none
  · rw [← equal]
    exact looked.defined.mp before
  · rw [none] at defines
    cases defines

theorem map_name_modify (syms : List Symdef) (i : Nat) (f : Symdef → Symdef)
    (same : ∀ dp, (f dp).name = dp.name) :
    (syms.modify i f).map Symdef.name = syms.map Symdef.name := by
  refine List.ext_getElem? fun j => ?_
  rw [List.getElem?_map, List.getElem?_map, List.getElem?_modify]
  by_cases here : i = j
  · cases syms[j]? with
    | none => rfl
    | some dp => simp [here, same]
  · simp [here]

/-- The entry takes the type of the symbol. -/
theorem set (looked : Looked seen sym table i dp) (external : sym.external = true) (offset : Int)
    (undefined : ¬(dp.type ≠ 'C' ∧ dp.type ≠ 'U')) :
    Holds (seen ++ [sym]) { table with
      syms := table.syms.modify i fun np => { np with type := sym.type, offset := offset } } := by
  have names := map_name_modify table.syms i
    (fun np => { np with type := sym.type, offset := offset }) fun _ => rfl
  have entry {j : Nat} {other : Symdef} (at' : (table.syms.modify i fun np =>
      { np with type := sym.type, offset := offset })[j]? = some other) :
      (other.name = sym.name ∧ other.type = sym.type ∧ table.syms[j]? = some dp) ∨
        (other.name ≠ sym.name ∧ table.syms[j]? = some other) := by
    rw [List.getElem?_modify] at at'
    by_cases this : i = j
    · subst this
      rw [looked.here] at at'
      simp only [if_true, Option.map_eq_map, Option.map_some, Option.some.injEq] at at'
      subst at'
      exact .inl ⟨looked.same, rfl, looked.here⟩
    · simp only [this, if_false, Option.map_eq_map, Option.map_id_fun', id_eq] at at'
      exact .inr ⟨fun equal => this (looked.only at' equal).symm, at'⟩
  refine ⟨?_, ?_, ?_, ?_, ?_⟩
  · rw [names]
    exact looked.nodup
  · intro n
    rw [names]
    exact looked.names_snoc external n
  · intro j other at'
    rw [exists_mem_snoc]
    rcases entry at' with ⟨equal, type, -⟩ | ⟨ne, old⟩
    · rw [type, equal, ← looked.defined]
      simp [undefined, Sym.defines, Sym.common, external, and_comm]
    · rw [looked.types j other old]
      exact (or_iff_left fun both => ne both.2.symm).symm
  · intro h
    rw [List.length_modify]
    exact looked.chains h
  · intro j other at'
    rcases entry at' with ⟨equal, -, old⟩ | ⟨-, old⟩
    · have before := looked.found j dp old
      rwa [looked.same, ← equal] at before
    · exact looked.found j other old

end Looked

/-- A symbol that is not external changes nothing. -/
theorem Holds.skip (holds : Holds seen table) (local_ : sym.external = false) :
    Holds (seen ++ [sym]) table := by
  have silent : sym.defines = false := by
    rw [← Bool.not_eq_true]
    intro defines
    rw [external_of_defines defines] at local_
    cases local_
  refine ⟨holds.nodup, ?_, ?_, holds.chains, holds.found⟩
  · intro n
    rw [holds.names, exists_mem_snoc, local_]
    simp
  · intro i dp here
    rw [holds.types i dp here, exists_mem_snoc, silent]
    simp

/-- Reading one more symbol: it is taken unless it stops its member. -/
theorem newsymbol_holds (offset : Int) (holds : Holds seen table) (sym : Sym) :
    Holds (seen ++ [sym]) (newsymbol offset table sym).1 ∧
      (newsymbol offset table sym).2 = !stopsAt seen sym := by
  have skips : (!sym.type.isUpper || sym.type = 'N') = !sym.external := by
    simp [Sym.external, Bool.not_and]
  unfold newsymbol
  rw [skips]
  cases external : sym.external with
  | false =>
    refine ⟨holds.skip external, ?_⟩
    simp [stopsAt, external]
  | true =>
    obtain ⟨dp, looked⟩ := lookup_looked holds sym
    have stops : stopsAt seen sym = true ↔ sym.common = false ∧ dp.type ≠ 'C' ∧ dp.type ≠ 'U' := by
      rw [looked.defined]
      simp [stopsAt, external]
    have goes (open_ : ¬(dp.type ≠ 'C' ∧ dp.type ≠ 'U')) : (!stopsAt seen sym) = true := by
      rw [Bool.not_eq_true', ← Bool.not_eq_true, stops]
      exact fun both => open_ both.2
    have quiet (common : sym.type = 'C') : sym.defines = false := by
      simp [Sym.defines, Sym.common, common]
    rw [if_neg (by simp)]
    simp only [looked.here, Option.map_some]
    split
    · rename_i type
      have undefined : ¬(dp.type ≠ 'C' ∧ dp.type ≠ 'U') := fun both => both.1 (Option.some.inj type)
      split
      · rename_i common
        exact ⟨looked.keep external (.inr (quiet common)), (goes undefined).symm⟩
      · exact ⟨looked.set external offset undefined, (goes undefined).symm⟩
    · rename_i type
      have undefined : ¬(dp.type ≠ 'C' ∧ dp.type ≠ 'U') := fun both => both.2 (Option.some.inj type)
      exact ⟨looked.set external offset undefined, (goes undefined).symm⟩
    · rename_i notC notU
      have isDefined : dp.type ≠ 'C' ∧ dp.type ≠ 'U' :=
        ⟨fun h => notC (congrArg some h), fun h => notU (congrArg some h)⟩
      split
      · rename_i other
        refine ⟨looked.keep external (.inl isDefined), ?_⟩
        rw [stops.mpr ⟨by simp [Sym.common, other], isDefined⟩]
        rfl
      · rename_i common
        refine ⟨looked.keep external (.inl isDefined), ?_⟩
        have no : ¬stopsAt seen sym = true := by
          rw [stops]
          simpa [Sym.common] using fun h => absurd (not_not.mp common) h
        simpa using no

end Scc.Ar
