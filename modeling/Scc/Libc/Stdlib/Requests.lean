import Scc.Libc.Stdlib.HeapRuns

set_option linter.all false

/-! Which requests `malloc` and `realloc` compute the size of: `sbrk` and the number of units (stdlib/malloc.c). -/
namespace Scc.Libc.Stdlib
open Memory

/-- `(char *)-1` -/
def MAXADDR : Nat := SIZE_MAX

/-- `sbrk`, with what `_brk` says of the new end of the heap. -/
def sbrk (brk : Nat → Bool) : Sbrk := fun old inc =>
  if old ≥ MAXADDR - inc then none
  else if brk (old + inc) then some old
  else none

/-- A system that refuses to grant less than so many bytes. -/
def Sbrk.atLeast (bytes : Nat) (grants : Sbrk) : Sbrk := fun heap inc => if bytes ≤ inc then grants heap inc else none

/-- There is an error, or a block on the heap that has a header and the bytes of the request. -/
def Serves (nbytes : Nat) (s : State) (result : Option (Nat × State)) : Prop :=
  result = some (0, s) ∨
    ∃ new t, result = some (new, t) ∧ new ≠ 0 ∧
      nbytes + sizeofHeader ≤ units nbytes * sizeofHeader ∧ units nbytes * sizeofHeader < space ∧
      nbytes + sizeofHeader ≤ size t.mem (new - sizeofHeader) * sizeofHeader ∧
      new - sizeofHeader + size t.mem (new - sizeofHeader) * sizeofHeader ≤ t.heap ∧ t.heap < space

/-- The request is served by either function, and the system is asked for no less than its units. -/
structure Served (brk : Nat → Bool) (nbytes : Nat) (s : State) : Prop where
  fresh : Serves nbytes s (malloc (sbrk brk) nbytes s)
  moved : ∀ ptr, ptr = 0 ∨ Held s ptr → Serves nbytes s (realloc (sbrk brk) ptr nbytes s)
  asks : malloc ((sbrk brk).atLeast (units nbytes * sizeofHeader)) nbytes s = malloc (sbrk brk) nbytes s
  asksMoved : ∀ ptr, realloc ((sbrk brk).atLeast (units nbytes * sizeofHeader)) ptr nbytes s = realloc (sbrk brk) ptr nbytes s

/-- The requests whose units are counted in bytes as 0. -/
def Wraps (nbytes : Nat) : Prop := SIZE_MAX - 30 ≤ nbytes ∧ nbytes ≤ SIZE_MAX - sizeofHeader - 1

variable {base nbytes ptr : Nat} {frees : List Block} {m : Mem} {s t : State} {brk : Nat → Bool} {grants : Sbrk}

theorem sbrk_valid (brk : Nat → Bool) : (sbrk brk).Valid := by
  intro heap inc hp granted
  rw [sbrk] at granted
  split at granted
  · cases granted
  rename_i room
  split at granted
  · cases granted
    rw [MAXADDR, SIZE_MAX] at room
    exact ⟨Nat.le_refl _, by omega⟩
  · cases granted

theorem fits_iff (nbytes : Nat) (accepted : nbytes ≤ SIZE_MAX - sizeofHeader - 1) : Fits nbytes ↔ ¬Wraps nbytes := by
  have all : space = 2 ^ 64 := rfl
  simp only [Fits, Wraps, units, SIZE_MAX, sizeofHeader] at *
  omega

/-! ## What is asked of the system -/

theorem morecore_asks {nunits : Nat} (fits : nunits * sizeofHeader < space) :
    morecore (grants.atLeast (nunits * sizeofHeader)) nunits s = morecore grants nunits s := by
  have least : NALLOC * sizeofHeader < space := by decide
  unfold morecore
  dsimp only
  have enough : nunits * sizeofHeader ≤ (if nunits < NALLOC then NALLOC else nunits) * sizeofHeader % space := by
    split
    · rename_i less
      rw [Nat.mod_eq_of_lt least]
      exact Nat.mul_le_mul_right _ (Nat.le_of_lt less)
    · exact Nat.le_of_eq (Nat.mod_eq_of_lt fits).symm
  rw [Sbrk.atLeast, if_pos enough]

theorem findfit_asks {nunits : Nat} (fits : nunits * sizeofHeader < space) (n prev : Nat) (s : State) :
    findfit (grants.atLeast (nunits * sizeofHeader)) nunits n prev s = findfit grants nunits n prev s := by
  induction n generalizing prev s with
  | zero => rfl
  | succ n ih =>
    unfold findfit
    simp only [morecore_asks fits, ih]

theorem malloc_asks (fits : Fits nbytes) (s : State) :
    malloc (grants.atLeast (units nbytes * sizeofHeader)) nbytes s = malloc grants nbytes s := by
  unfold malloc
  rw [findfit_asks fits]

theorem realloc_asks (fits : Fits nbytes) (ptr : Nat) (s : State) :
    realloc (grants.atLeast (units nbytes * sizeofHeader)) ptr nbytes s = realloc grants ptr nbytes s := by
  unfold realloc move
  simp only [malloc_asks fits]

/-! ## What is returned -/

/-- A block that is held after the call. -/
theorem Serves.block {new : Nat} {result : Option (Nat × State)} {rest : List (Nat × Nat)} (ran : result = some (new, t)) (other : new ≠ 0)
    (fits : Fits nbytes) (some : nbytes ≠ 0) (after : Sound base { t with live := (new, nbytes) :: rest } frees) : Serves nbytes s result := by
  have enough : nbytes + sizeofHeader ≤ sizeofHeader * size t.mem (new - sizeofHeader) :=
    (after.holds.enough _ List.mem_cons_self).2
  have inside : new - sizeofHeader + 16 * size t.mem (new - sizeofHeader) ≤ t.heap :=
    (after.heap.layout.inside _ (.inr List.mem_cons_self)).2.2
  have counted := ((units_enough nbytes).resolve_right some).1
  obtain ⟨bytes, header⟩ : ∃ bytes, bytes = size t.mem (new - sizeofHeader) := ⟨_, rfl⟩
  have top : t.heap < space := after.heap.bounds.2.2
  rw [← header] at enough inside
  refine .inr ⟨new, t, ran, other, ?_, fits, ?_, ?_, top⟩
  · exact Nat.mul_comm _ _ ▸ counted
  · exact header ▸ (Nat.mul_comm sizeofHeader bytes ▸ enough)
  · exact header ▸ (Nat.mul_comm 16 bytes ▸ inside)

theorem malloc_serves (sound : Sound base s frees) (valid : grants.Valid) (fits : Fits nbytes) (some : nbytes ≠ 0) :
    Serves nbytes s (malloc grants nbytes s) := by
  rcases malloc_sound sound valid fits 0 with failed | ⟨new, t, frees', ran, other, -, after⟩
  · exact .inl failed
  · exact .block ran other fits some after

theorem realloc_serves (sound : Sound base s frees) (valid : grants.Valid) (fits : Fits nbytes) (some : nbytes ≠ 0)
    (holds : ptr = 0 ∨ Held s ptr) : Serves nbytes s (realloc grants ptr nbytes s) := by
  rcases holds with rfl | ⟨old, mem⟩
  · rcases realloc_null sound valid fits with failed | ⟨new, t, frees', ran, other, -, after⟩
    · exact .inl failed
    · exact .block ran other fits some after
  · rcases realloc_sound sound mem valid fits with failed | ⟨new, t, frees', ran, other, -, after, -⟩
    · exact .inl failed
    · exact .block ran other fits some after

theorem Served.refused (request : nbytes = 0 ∨ nbytes > SIZE_MAX - sizeofHeader - 1) : Served brk nbytes s := by
  have refused : ∀ grants : Sbrk, malloc grants nbytes s = some (0, s) := by
    intro grants
    rw [malloc, if_pos request]
  have refusedMoved : ∀ (grants : Sbrk) (ptr : Nat), realloc grants ptr nbytes s = some (0, s) := by
    intro grants ptr
    rw [realloc, if_pos request]
  constructor
  · exact .inl (refused _)
  · exact fun ptr _ => .inl (refusedMoved _ ptr)
  · exact (refused _).trans (refused _).symm
  · exact fun ptr => (refusedMoved _ ptr).trans (refusedMoved _ ptr).symm

theorem Served.sound (sound : Sound base s frees) (brk : Nat → Bool) (apart : ¬Wraps nbytes) : Served brk nbytes s := by
  by_cases request : nbytes = 0 ∨ nbytes > SIZE_MAX - sizeofHeader - 1
  · exact .refused request
  · obtain ⟨some, accepted⟩ := not_or.mp request
    have fits := (fits_iff nbytes (Nat.not_lt.mp accepted)).mpr apart
    have valid := sbrk_valid brk
    constructor
    · exact malloc_serves sound valid fits some
    · exact fun ptr => realloc_serves sound valid fits some
    · exact malloc_asks fits s
    · exact fun ptr => realloc_asks fits ptr s

/-! ## The requests that wrap -/

theorem units_wraps (wraps : Wraps nbytes) : units nbytes = 2 ^ 60 := by
  have all : space = 2 ^ 64 := rfl
  simp only [Wraps, units, SIZE_MAX, sizeofHeader] at *
  omega

set_option maxRecDepth 4000 in
theorem malloc_wraps (wraps : Wraps nbytes) :
    ∃ t, malloc (sbrk fun _ => true) nbytes (initial 16 fun _ => 0) = some (48, t) := by
  have some : ¬(nbytes = 0 ∨ nbytes > SIZE_MAX - sizeofHeader - 1) := by
    obtain ⟨low, high⟩ := wraps
    have positive : 0 < SIZE_MAX - 30 := by decide
    omega
  rw [malloc, if_neg some, units_wraps wraps]
  exact ⟨_, rfl⟩

/-- Every request is served, in every run, but those near the end of the address space whose units are counted in
bytes as 0. -/
theorem served_iff (nbytes : Nat) :
    (∀ base m s, 0 < base → base + sizeofHeader < space → Run (initial base m) s → ∀ brk, Served brk nbytes s) ↔ ¬Wraps nbytes := by
  constructor
  · intro served wraps
    have first := (served 16 (fun _ => 0) _ (by decide) (by decide) (.refl _) fun _ => true).fresh
    obtain ⟨t, ran⟩ := malloc_wraps wraps
    rcases first with failed | ⟨new, t', -, -, -, fits, -⟩
    · cases ran.symm.trans failed
    · rw [units_wraps wraps] at fits
      exact absurd fits (by decide)
  · intro apart base m s low high run brk
    obtain ⟨frees, sound⟩ := run_sound run (initial_sound low high m)
    exact .sound sound brk apart

theorem malloc_short : ¬Served (fun _ => true) (SIZE_MAX - 30) (initial 16 fun _ => 0) := by
  intro served
  obtain ⟨t, ran⟩ := malloc_wraps (show Wraps (SIZE_MAX - 30) from ⟨Nat.le_refl _, by decide⟩)
  rcases served.fresh with failed | ⟨new, t', -, -, -, fits, -⟩
  · cases ran.symm.trans failed
  · exact absurd fits (by decide)

end Scc.Libc.Stdlib
