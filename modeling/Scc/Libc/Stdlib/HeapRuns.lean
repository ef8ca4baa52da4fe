import Scc.Libc.Stdlib.ReallocProofs

set_option linter.all false

/-! What callers hold in every run. -/
namespace Scc.Libc.Stdlib
open Memory

variable {base nbytes ptr : Nat} {frees frees' : List Block} {g : Block} {m : Mem} {s t : State}
  {sbrk : Sbrk} {e : Nat × Nat} {rest : List (Nat × Nat)}

/-- The block of a pointer, whose size is in its header. -/
def held (s : State) (e : Nat × Nat) : Block := ⟨e.1 - sizeofHeader, size s.mem (e.1 - sizeofHeader)⟩

/-- The blocks that callers hold are apart from each other, and have the bytes asked for. -/
structure Holds (s : State) (rest : List (Nat × Nat)) : Prop where
  apart : rest.Pairwise fun e f => (held s e).Apart (held s f)
  enough : ∀ e ∈ rest, sizeofHeader ≤ e.1 ∧ e.2 + sizeofHeader ≤ sizeofHeader * (held s e).size

/-- The invariant of a run: the heap has the free blocks in the ring and those that are held. -/
structure Sound (base : Nat) (s : State) (frees : List Block) : Prop where
  heap : Heap base frees (s.live.map (held s)) s
  holds : Holds s s.live

theorem Holds.sublist {all : List (Nat × Nat)} (holds : Holds s all) (less : rest.Sublist all) :
    Holds s rest where
  apart := holds.apart.sublist less
  enough e mem := holds.enough e (less.subset mem)

theorem Heap.owner {live : List Block} (heap : Heap base frees live t) (l : List (Nat × Nat)) :
    Heap base frees live { t with live := l } :=
  ⟨heap.layout, heap.shown, heap.freep, heap.bounds⟩

theorem held_eq {live : List Block} (heap : Heap base frees live s)
    (kept : Kept live s.mem t.mem) (used : held s e ∈ live) : held t e = held s e := by
  have same := kept.header used (heap.layout.inside _ (.inr used)).2.1
  rw [held, held, Block.mk.injEq]
  exact ⟨rfl, same⟩

/-- Blocks that stay as they are stay held. -/
theorem Holds.kept (holds : Holds s rest) (same : ∀ e ∈ rest, held t e = held s e) :
    Holds t rest := by
  constructor
  · refine holds.apart.imp_of_mem ?_
    intro e f mem mem' apart
    rw [same e mem, same f mem']
    exact apart
  · intro e mem
    rw [same e mem]
    exact holds.enough e mem

theorem sound_rest (old : Heap base frees' (rest.map (held s)) s) (holds : Holds s rest)
    (heap : Heap base frees (rest.map (held s)) t) (kept : Kept (rest.map (held s)) s.mem t.mem) :
    Sound base { t with live := rest } frees := by
  have same : ∀ e ∈ rest, held { t with live := rest } e = held s e :=
    fun e mem => @held_eq _ _ _ { t with live := rest } _ _ old kept (List.mem_map_of_mem mem)
  constructor
  · dsimp only
    rw [List.map_congr_left same]
    exact heap.owner rest
  · exact holds.kept same

/-- A new block next to those that stay. -/
theorem sound_cons (old : Heap base frees' (rest.map (held s)) s) (holds : Holds s rest)
    (heap : Heap base frees (g :: rest.map (held s)) t) (apart : ∀ x ∈ rest.map (held s), x.Apart g)
    (kept : Kept (rest.map (held s)) s.mem t.mem)
    (enough : nbytes + sizeofHeader ≤ sizeofHeader * g.size) :
    Sound base { t with live := (g.addr + sizeofHeader, nbytes) :: rest } frees := by
  obtain ⟨u, new⟩ : ∃ u, u = { t with live := (g.addr + sizeofHeader, nbytes) :: rest } := ⟨_, rfl⟩
  have memory : u.mem = t.mem := by rw [new]
  have same : ∀ e ∈ rest, held u e = held s e := by
    intro e mem
    exact held_eq old (memory ▸ kept) (List.mem_map_of_mem mem)
  have here : held u (g.addr + sizeofHeader, nbytes) = g := by
    rw [held, Nat.add_sub_cancel, memory, heap.shown.sizes g (.inr List.mem_cons_self)]
  have owned : u.live = (g.addr + sizeofHeader, nbytes) :: rest := by rw [new]
  rw [← new]
  have holds' := holds.kept same
  constructor
  · rw [owned, List.map_cons, here, List.map_congr_left same, new]
    exact heap.owner _
  · rw [owned]
    constructor
    · refine List.pairwise_cons.mpr ⟨?_, holds'.apart⟩
      intro e mem
      rw [here, same e mem]
      exact (apart _ (List.mem_map_of_mem mem)).symm
    · intro e mem
      rcases List.mem_cons.mp mem with rfl | mem
      · rw [here]
        exact ⟨Nat.le_add_left _ _, enough⟩
      · exact holds'.enough e mem

/-! ## One call -/

/-- The other blocks that are held. -/
def othersOf (s : State) (ptr : Nat) : List (Nat × Nat) := s.live.filter (·.1 ≠ ptr)

section
variable (sound : Sound base s frees)
include sound

theorem others_heap (ptr : Nat) : Heap base frees ((othersOf s ptr).map (held s)) s :=
  sound.heap.fewer (List.map_subset _ (List.filter_subset_self _))

theorem others_holds (ptr : Nat) : Holds s (othersOf s ptr) :=
  sound.holds.sublist List.filter_sublist

/-- A block that is held, in front of the others. -/
theorem split_held (mem : e ∈ s.live) :
    Heap base frees (held s e :: (othersOf s e.1).map (held s)) s ∧
      ∀ x ∈ (othersOf s e.1).map (held s), x.Apart (held s e) := by
  have used : held s e ∈ s.live.map (held s) := List.mem_map_of_mem mem
  have sub : (othersOf s e.1).map (held s) ⊆ s.live.map (held s) :=
    List.map_subset _ (List.filter_subset_self _)
  constructor
  · apply sound.heap.fewer
    intro x mem
    rcases List.mem_cons.mp mem with rfl | mem
    · exact used
    · exact sub mem
  · intro x other
    apply sound.heap.layout.apart x (sub other) _ used
    obtain ⟨f, member, rfl⟩ := List.mem_map.mp other
    obtain ⟨mem', differ⟩ := List.mem_filter.mp member
    have low := (sound.holds.enough e mem).1
    have low' := (sound.holds.enough f mem').1
    have differ : f.1 ≠ e.1 := of_decide_eq_true differ
    simp only [held]
    omega

theorem held_fin (mem : e ∈ s.live) : (held s e).addr + sizeofHeader = e.1 := by
  have low := (sound.holds.enough e mem).1
  simp only [held]
  omega

theorem malloc_sound (valid : sbrk.Valid) (fits : Fits nbytes) (ptr : Nat) :
    malloc sbrk nbytes s = some (0, s) ∨
      ∃ new t frees', malloc sbrk nbytes s = some (new, t) ∧ new ≠ 0 ∧ t.live = s.live ∧
        Sound base { t with live := (new, nbytes) :: othersOf s ptr } frees' := by
  by_cases some : nbytes = 0
  · left
    rw [malloc, if_pos (.inl some)]
  · rcases malloc_spec (others_heap sound ptr) valid fits with failed | ⟨b, t, frees', ran, taken⟩
    · exact .inl failed
    · right
      refine ⟨_, t, frees', ran, by rw [sizeofHeader]; omega, taken.owned, ?_⟩
      apply sound_cons (others_heap sound ptr) (others_holds sound ptr) taken.heap taken.apart
        taken.kept
      rw [taken.size]
      exact ((units_enough nbytes).resolve_right some).1

theorem realloc_sound (mem : e ∈ s.live) (valid : sbrk.Valid) (fits : Fits nbytes) :
    realloc sbrk e.1 nbytes s = some (0, s) ∨
      ∃ new t frees', realloc sbrk e.1 nbytes s = some (new, t) ∧ new ≠ 0 ∧ t.live = s.live ∧
        Sound base { t with live := (new, nbytes) :: othersOf s e.1 } frees' ∧
        ∀ i < min e.2 nbytes, t.mem (new + i) = s.mem (e.1 + i) := by
  obtain ⟨heap, apart⟩ := split_held sound mem
  have place := held_fin sound mem
  have room := (sound.holds.enough e mem).2
  rcases realloc_spec heap apart valid fits with failed | ⟨g, t, frees', ran, moved⟩
  · rw [place] at failed
    exact .inl failed
  · rw [place] at ran
    right
    refine ⟨_, t, frees', ran, by rw [sizeofHeader]; omega, moved.owned, ?_, ?_⟩
    · exact sound_cons (others_heap sound e.1) (others_holds sound e.1) moved.heap moved.apart
        moved.kept moved.enough
    · intro i less
      rw [← place]
      apply moved.contents i (by omega)
      omega

theorem free_sound (mem : e ∈ s.live) :
    ∃ t frees', free e.1 s = some t ∧ t.live = s.live ∧
      Sound base { t with live := othersOf s e.1 } frees' := by
  obtain ⟨heap, apart⟩ := split_held sound mem
  have spare : Spare base s.heap frees ((othersOf s e.1).map (held s)) (held s e) := by
    constructor
    · exact fun x used => (apart x used).symm
    · exact heap.layout.separate _ List.mem_cons_self
    · exact heap.layout.inside _ (.inr List.mem_cons_self)
  obtain ⟨t, frees', ran, after, -, owned, kept, -⟩ :=
    free_spec (others_heap sound e.1) spare (heap.shown.sizes _ (.inr List.mem_cons_self))
  rw [held_fin sound mem] at ran
  exact ⟨t, frees', ran, owned, sound_rest (others_heap sound e.1) (others_holds sound e.1) after kept⟩

/-- Callers write in the bytes of a block that they hold. -/
theorem write_sound (mem : e ∈ s.live) {addr : Nat} (low : e.1 ≤ addr) (high : addr < e.1 + e.2)
    (byte : UInt8) : Sound base { s with mem := Function.update s.mem addr byte } frees := by
  obtain ⟨heap, apart⟩ := split_held sound mem
  have place := held_fin sound mem
  have room := (sound.holds.enough e mem).2
  obtain ⟨m, same⟩ : ∃ m, m = Function.update s.mem addr byte := ⟨_, rfl⟩
  rw [← same]
  simp only [sizeofHeader] at place room
  have outside {x y : Nat} (out : y ≤ addr ∨ addr < x) : Same x y s.mem m := by
    intro z low' high'
    rw [same, Function.update_of_ne (by omega)]
  have written : Within (held s e) s.mem m := by
    intro x y out
    apply outside
    rw [Block.fin] at out
    omega
  have header : size m (held s e).addr = (held s e).size :=
    size_same (outside (by omega))
  have some := heap.layout.inside _ (.inr List.mem_cons_self)
  have after := heap.within apart written rfl ⟨some.2.1, Nat.le_refl _⟩ header
  have heads : ∀ f ∈ s.live, held { s with mem := m } f = held s f := by
    intro f mem'
    by_cases here : f.1 = e.1
    · rw [held, held, here]
      exact congrArg _ header
    · have other : held s f ∈ (othersOf s e.1).map (held s) :=
        List.mem_map_of_mem (List.mem_filter.mpr ⟨mem', decide_eq_true here⟩)
      exact @held_eq _ _ _ { s with mem := m } _ _ (others_heap sound e.1) (written.kept apart) other
  constructor
  · dsimp only
    rw [List.map_congr_left heads]
    apply after.fewer
    intro x used
    obtain ⟨f, mem', rfl⟩ := List.mem_map.mp used
    by_cases here : f.1 = e.1
    · have same : held s f = held s e := by rw [held, held, here]
      rw [same]
      exact List.mem_cons_self
    · apply List.mem_cons_of_mem
      exact List.mem_map_of_mem (List.mem_filter.mpr ⟨mem', decide_eq_true here⟩)
  · exact sound.holds.kept heads

end

theorem othersOf_null (sound : Sound base s frees) : othersOf s 0 = s.live := by
  apply List.filter_eq_self.mpr
  intro e mem
  have low := (sound.holds.enough e mem).1
  rw [sizeofHeader] at low
  exact decide_eq_true (by omega)

theorem Sound.same (sound : Sound base s frees) : Sound base { s with live := s.live } frees := sound

theorem realloc_null (sound : Sound base s frees) (valid : sbrk.Valid) (fits : Fits nbytes) :
    realloc sbrk 0 nbytes s = some (0, s) ∨
      ∃ new t frees', realloc sbrk 0 nbytes s = some (new, t) ∧ new ≠ 0 ∧ t.live = s.live ∧
        Sound base { t with live := (new, nbytes) :: othersOf s 0 } frees' := by
  rw [realloc]
  split
  · exact .inl rfl
  · rw [if_pos rfl]
    exact malloc_sound sound valid fits 0

/-- Every call returns, and keeps the invariant. -/
theorem step_sound {c : Call} (sound : Sound base s frees) (valid : c.Valid s) :
    ∃ t frees', step c s = some t ∧ Sound base t frees' := by
  cases c with
  | malloc nbytes sbrk =>
    obtain ⟨fits, fresh⟩ := valid
    rcases malloc_sound sound fresh fits 0 with failed | ⟨new, t, frees', ran, other, owned, after⟩
    · refine ⟨s, frees, ?_, sound⟩
      rw [step, failed]
      rfl
    · refine ⟨_, frees', ?_, after⟩
      rw [step, ran, othersOf_null sound, ← owned]
      simp only [Option.bind_eq_bind, Option.bind_some, if_neg other]
  | free ptr =>
    rcases valid with rfl | ⟨nbytes, mem⟩
    · refine ⟨s, frees, ?_, sound⟩
      have same : s.live.filter (·.1 ≠ 0) = s.live := othersOf_null sound
      rw [step, free, if_pos rfl]
      simp only [Option.bind_eq_bind, Option.bind_some, same]
    · obtain ⟨t, frees', ran, owned, after⟩ := free_sound sound mem
      refine ⟨_, frees', ?_, after⟩
      rw [step, ran, othersOf, ← owned]
      rfl
  | realloc ptr nbytes sbrk =>
    obtain ⟨holds, fits, fresh⟩ := valid
    have result : realloc sbrk ptr nbytes s = some (0, s) ∨
        ∃ new t frees', realloc sbrk ptr nbytes s = some (new, t) ∧ new ≠ 0 ∧ t.live = s.live ∧
          Sound base { t with live := (new, nbytes) :: othersOf s ptr } frees' := by
      rcases holds with rfl | ⟨old, mem⟩
      · exact realloc_null sound fresh fits
      · rcases realloc_sound sound mem fresh fits with failed | ⟨new, t, frees', ran, other, owned,
          after, -⟩
        · exact .inl failed
        · exact .inr ⟨new, t, frees', ran, other, owned, after⟩
    rcases result with failed | ⟨new, t, frees', ran, other, owned, after⟩
    · refine ⟨s, frees, ?_, sound⟩
      rw [step, failed]
      rfl
    · refine ⟨_, frees', ?_, after⟩
      rw [step, ran, othersOf, ← owned]
      simp only [Option.bind_eq_bind, Option.bind_some, if_neg other]
  | write addr byte =>
    obtain ⟨e, mem, low, high⟩ := valid
    exact ⟨_, frees, rfl, write_sound sound mem low high byte⟩

/-! ## Runs -/

theorem initial_sound (low : 0 < base) (high : base + sizeofHeader < space) (m : Mem) :
    Sound base (initial base m) [] := by
  have link : next (initial base m).mem base = base := by
    rw [initial, next_setSize (.inl rfl), next_setNext (by omega)]
  constructor
  · constructor
    · constructor
      · exact .nil
      · intro b used
        cases used
      · intro b used
        cases used
      · rintro b (free | used)
        · cases free
        · cases used
    · constructor
      · exact ⟨rfl, link⟩
      · exact size_setSize (by decide)
      · rintro b (free | used)
        · cases free
        · cases used
    · exact List.mem_cons_self
    · exact ⟨low, Nat.le_refl _, high⟩
  · constructor
    · exact .nil
    · intro e mem
      cases mem

theorem run_sound (run : Run s t) (sound : Sound base s frees) : ∃ frees', Sound base t frees' := by
  induction run generalizing frees with
  | refl s => exact ⟨frees, sound⟩
  | next valid stepped _ ih =>
    obtain ⟨u, frees', stepped', after⟩ := step_sound sound valid
    cases Option.some.inj (stepped.symm.trans stepped')
    exact ih after

/-- In every run the free blocks are in a ring in the order of their addresses, none next to another;
the blocks that callers hold are apart from them and from each other and have the bytes asked for;
every call returns; and `realloc` keeps the contents, or leaves all as it is. -/
theorem heap_sound (low : 0 < base) (high : base + sizeofHeader < space)
    (run : Run (initial base m) s) :
    (∃ frees, Heap base frees (s.live.map (held s)) s) ∧
      (s.live.Pairwise fun e f => (held s e).Apart (held s f)) ∧
      (∀ e ∈ s.live, e.1 = (held s e).addr + sizeofHeader ∧
        e.2 + sizeofHeader ≤ sizeofHeader * (held s e).size) ∧
      (∀ c : Call, c.Valid s → ∃ t, step c s = some t) ∧
      ∀ e ∈ s.live, ∀ nbytes sbrk, Fits nbytes → sbrk.Valid →
        realloc sbrk e.1 nbytes s = some (0, s) ∨
          ∃ new t, realloc sbrk e.1 nbytes s = some (new, t) ∧ new ≠ 0 ∧
            ∀ i < min e.2 nbytes, t.mem (new + i) = s.mem (e.1 + i) := by
  obtain ⟨frees, sound⟩ := run_sound run (initial_sound low high m)
  refine ⟨⟨frees, sound.heap⟩, sound.holds.apart, ?_, ?_, ?_⟩
  · intro e mem
    exact ⟨(held_fin sound mem).symm, (sound.holds.enough e mem).2⟩
  · intro c valid
    obtain ⟨t, frees', stepped, -⟩ := step_sound sound valid
    exact ⟨t, stepped⟩
  · intro e mem nbytes sbrk fits valid
    rcases realloc_sound sound mem valid fits with failed | ⟨new, t, -, ran, other, -, -, contents⟩
    · exact .inl failed
    · exact .inr ⟨new, t, ran, other, contents⟩

/-- A system that grants what is asked for at the end of the heap. -/
def growing : Sbrk := fun heap inc => if heap + inc < space then some heap else none

theorem growing_valid : growing.Valid := by
  intro heap inc hp granted
  rw [growing] at granted
  split at granted
  · cases granted
    exact ⟨Nat.le_refl _, by assumption⟩
  · cases granted

set_option maxRecDepth 4000 in
theorem heap_sound_malloc : ∃ s, Run (initial 16 fun _ => 0) s ∧ s.live = [(272, 5)] ∧
    ∀ c : Call, c.Valid s → ∃ t, step c s = some t := by
  have fits : units 5 * sizeofHeader < space := by decide
  have run : Run (initial 16 fun _ => 0) _ :=
    .next (c := .malloc 5 growing) ⟨fits, growing_valid⟩ rfl (.refl _)
  exact ⟨_, run, rfl, (heap_sound (by decide) (by decide) run).2.2.2.1⟩

end Scc.Libc.Stdlib
