import Scc.Libc.Stdlib.TakeProofs

set_option linter.all false

/-! `realloc` keeps the contents of a block, where it is or in a new block. -/
namespace Scc.Libc.Stdlib
open Memory

variable {base nbytes nunits : Nat} {frees live rest A B : List Block} {b c g : Block} {m : Mem}
  {s : State} {sbrk : Sbrk}

/-! ## Blocks in use -/

theorem Heap.fewer (heap : Heap base frees live s) (less : rest ⊆ live) :
    Heap base frees rest s where
  layout :=
    { order := heap.layout.order
      separate := fun b used => heap.layout.separate b (less used)
      apart := fun b used c used' => heap.layout.apart b (less used) c (less used')
      inside := fun b mem => heap.layout.inside b (mem.imp_right fun used => less used) }
  shown :=
    { ring := heap.shown.ring
      head := heap.shown.head
      sizes := fun b mem => heap.shown.sizes b (mem.imp_right fun used => less used) }
  freep := heap.freep
  bounds := heap.bounds

/-- Only a block in use is written. -/
def Within (b : Block) (m m' : Mem) : Prop :=
  ∀ x y, (y ≤ b.addr ∨ b.fin ≤ x) → Same x y m m'

theorem Within.kept (written : Within b s.mem m) (apart : ∀ c ∈ rest, c.Apart b) :
    Kept rest s.mem m :=
  fun c used => written c.addr c.fin (apart c used)

/-- A block in use with a header of its own for a part of it. -/
theorem Heap.within (heap : Heap base frees (b :: rest) s) (apart : ∀ c ∈ rest, c.Apart b)
    (written : Within b s.mem m) (start : g.addr = b.addr) (less : 0 < g.size ∧ g.size ≤ b.size)
    (shown : size m g.addr = g.size) : Heap base frees (g :: rest) { s with mem := m } := by
  have inside := heap.layout.inside b (.inr List.mem_cons_self)
  have part : g.fin ≤ b.fin := by
    simp only [Block.fin]
    omega
  have away {x : Block} (other : b.Apart x) : g.Apart x := by
    simp only [Block.Apart] at *
    omega
  have node {x : Nat} (mem : x ∈ nodes base frees) : Same x (x + 16) s.mem m := by
    have beside := heap.layout.beside_live List.mem_cons_self mem
    exact written x (x + 16) (by omega)
  have old := heap.fewer (List.subset_cons_self b rest)
  constructor
  · apply old.layout.use
    · exact fun x free => away (heap.layout.separate b List.mem_cons_self x free)
    · exact fun x used => (away (apart x used).symm).symm
    · rw [start]
      exact ⟨inside.1, less.1, Nat.le_trans part inside.2.2⟩
  · constructor
    · exact heap.shown.ring.congr fun x mem => next_same (node mem)
    · exact (size_same (node List.mem_cons_self)).trans heap.shown.head
    · rintro x (free | used)
      · rw [size_same (node (List.mem_cons_of_mem _ (List.mem_map_of_mem free)))]
        exact heap.shown.sizes x (.inl free)
      · rcases List.mem_cons.mp used with rfl | used
        · exact shown
        · rw [(written.kept apart).header used (old.layout.inside x (.inr used)).2.1]
          exact old.shown.sizes x (.inr used)
  · exact heap.freep
  · exact heap.bounds

/-- The block that `realloc` returns, with the contents of the old one. -/
structure Moved (base : Nat) (rest : List Block) (nbytes : Nat) (b : Block) (s : State) (g : Block)
    (t : State) (frees : List Block) : Prop where
  enough : nbytes + sizeofHeader ≤ sizeofHeader * g.size
  heap : Heap base frees (g :: rest) t
  apart : ∀ c ∈ rest, c.Apart g
  top : s.heap ≤ t.heap
  owned : t.live = s.live
  kept : Kept rest s.mem t.mem
  contents : ∀ i < nbytes, i + sizeofHeader < sizeofHeader * b.size →
    t.mem (g.addr + sizeofHeader + i) = s.mem (b.addr + sizeofHeader + i)

theorem units_enough (nbytes : Nat) :
    nbytes + sizeofHeader ≤ sizeofHeader * units nbytes ∧ 1 < units nbytes ∨ nbytes = 0 := by
  simp only [units, sizeofHeader]
  omega

/-! ## Where the block is -/

/-- The units at the end of the block are freed. -/
theorem shrink_spec (heap : Heap base frees (b :: rest) s) (apart : ∀ c ∈ rest, c.Apart b)
    (enough : nbytes + sizeofHeader ≤ sizeofHeader * nunits) (less : nunits < b.size) :
    ∃ t frees', free (b.addr + sizeofHeader * nunits + sizeofHeader)
        { s with mem := setSize (setSize s.mem (b.addr + sizeofHeader * nunits) (b.size - nunits))
                  b.addr nunits } = some t ∧
      Moved base rest nbytes b s ⟨b.addr, nunits⟩ t frees' := by
  have inside := heap.layout.inside b (.inr List.mem_cons_self)
  have bound := heap.bounds
  rw [sizeofHeader] at enough
  simp only [Block.fin] at inside
  obtain ⟨new, place⟩ : ∃ new, new = b.addr + sizeofHeader * nunits := ⟨_, rfl⟩
  rw [← place]
  rw [sizeofHeader] at place
  obtain ⟨m, same⟩ : ∃ m, m = setSize (setSize s.mem new (b.size - nunits)) b.addr nunits := ⟨_, rfl⟩
  rw [← same]
  have written : Within b s.mem m := by
    intro x y out
    rw [Block.fin] at out
    rw [same]
    exact (setSize_same (by omega)).trans (setSize_same (by omega))
  have shown : size m b.addr = nunits := by
    rw [same, size_setSize (by omega)]
  have shown' : size m new = b.size - nunits := by
    rw [same, size_setSize_ne (by omega), size_setSize (by omega)]
  have cut : Heap base frees (⟨b.addr, nunits⟩ :: rest) { s with mem := m } := by
    have part : 0 < nunits ∧ nunits ≤ b.size := by omega
    exact @Heap.within _ _ _ _ ⟨b.addr, nunits⟩ _ _ heap apart written rfl part shown
  have spare : Spare base s.heap frees (⟨b.addr, nunits⟩ :: rest) ⟨new, b.size - nunits⟩ := by
    constructor
    · intro x used
      rcases List.mem_cons.mp used with rfl | used
      · simp only [Block.Apart, Block.fin]
        omega
      · have := apart x used
        simp only [Block.Apart, Block.fin] at *
        omega
    · intro x free
      have := heap.layout.separate b List.mem_cons_self x free
      simp only [Block.Apart, Block.fin] at *
      omega
    · simp only [Block.fin]
      omega
  obtain ⟨t, frees', ran, after, top, owned, kept, -⟩ := free_spec cut spare shown'
  refine ⟨t, frees', ran, ?_⟩
  constructor
  · exact enough
  · exact after
  · intro x used
    have := apart x used
    simp only [Block.Apart, Block.fin] at *
    omega
  · exact Nat.le_of_eq top.symm
  · exact owned
  · intro x used
    exact (written.kept apart x used).trans (kept x (List.mem_cons_of_mem _ used))
  · intro i few old
    have payload : Same (b.addr + 16) new s.mem m := by
      rw [same]
      exact (setSize_same (.inl (by omega))).trans (setSize_same (.inr (by omega)))
    have whole := (kept _ List.mem_cons_self).within (Nat.le_add_right b.addr 16)
      (Nat.le_of_eq place)
    exact (payload.trans whole) _ (by simp only [sizeofHeader]; omega)
      (by simp only [sizeofHeader]; omega)

section
variable (heap : Heap base (A ++ c :: B) (b :: rest) s) (apart : ∀ x ∈ rest, x.Apart b)
  (row : b.fin = c.addr)
include heap apart row

/-- The block and the free one behind it, apart from all others. -/
theorem joined_apart : (∀ x ∈ rest, x.Apart ⟨b.addr, b.size + c.size⟩) ∧
    ∀ x ∈ A ++ B, Block.Apart ⟨b.addr, b.size + c.size⟩ x := by
  have layout := heap.layout
  constructor
  · intro x used
    have some := (layout.inside x (.inr (List.mem_cons_of_mem _ used))).2.1
    have away := layout.separate x (List.mem_cons_of_mem _ used) c (by simp)
    exact (apart x used).join away row some
  · intro x free
    have old : x ∈ A ++ c :: B := by
      rcases List.mem_append.mp free with free | free
      · exact List.mem_append_left _ free
      · exact List.mem_append_right _ (List.mem_cons_of_mem _ free)
    have some := (layout.inside x (.inl old)).2.1
    have away := layout.separate b List.mem_cons_self x old
    exact (away.symm.join (order_apart layout x free).symm row some).symm

/-- What `realloc` returns where the free block is replaced by `N`. -/
theorem grow_moved {N : List Block} {freep : Nat}
    (written : Local ⟨b.addr, b.size + c.size⟩ (lastNode base A) s.mem m)
    (front : size m (lastNode base A) = size s.mem (lastNode base A))
    (layout : Layout base s.heap (A ++ (N ++ B)) (⟨b.addr, nunits⟩ :: rest))
    (links : Walk (next m) (next m (lastNode base A)) (N.map Block.addr) (firstNode base B))
    (sizes : ∀ x ∈ N, size m x.addr = x.size) (shown : size m b.addr = nunits)
    (payload : Same (b.addr + sizeofHeader) b.fin s.mem m)
    (enough : nbytes + sizeofHeader ≤ sizeofHeader * nunits)
    (place : freep ∈ nodes base (A ++ (N ++ B))) :
    Moved base rest nbytes b s ⟨b.addr, nunits⟩ { s with mem := m, freep := freep }
      (A ++ (N ++ B)) := by
  obtain ⟨apartJ, freesJ⟩ := joined_apart heap apart row
  have old := heap.fewer (List.subset_cons_self b rest)
  have inside := heap.layout.inside b (.inr List.mem_cons_self)
  have kept : Kept rest s.mem m := written.kept old.unlinked apartJ
  constructor
  · exact enough
  · constructor
    · exact layout
    · apply heap.shown.splice (M := [c]) written heap.unlinked inside.1 freesJ (.inl ⟨rfl, front⟩)
        links
      rintro x (mem | used)
      · exact sizes x mem
      · rcases List.mem_cons.mp used with rfl | used
        · exact shown
        · rw [kept.header used (old.layout.inside x (.inr used)).2.1]
          exact old.shown.sizes x (.inr used)
    · exact place
    · exact heap.bounds
  · intro x used
    exact (layout.apart x (List.mem_cons_of_mem _ used) _ List.mem_cons_self fun same => by
      have := apart x used
      have := (old.layout.inside x (.inr used)).2.1
      simp only [Block.Apart, Block.fin] at *
      omega)
  · exact Nat.le_refl _
  · rfl
  · exact kept
  · intro i few end'
    apply payload
    · dsimp only
      omega
    · simp only [Block.fin, sizeofHeader] at end' ⊢
      omega

theorem joined_beside :
    b.addr + 16 * (b.size + c.size) ≤ lastNode base A ∨ lastNode base A + 16 ≤ b.addr := by
  have inside := heap.layout.inside b (.inr List.mem_cons_self)
  apply heap.unlinked.beside (b := ⟨b.addr, b.size + c.size⟩) inside.1
  · exact (joined_apart heap apart row).2
  · rw [nodes_append]
    exact List.mem_append_left _ (lastNode_mem base A)

/-- The free block is used up. -/
theorem grow_whole (all : b.size + c.size = nunits)
    (enough : nbytes + sizeofHeader ≤ sizeofHeader * nunits) :
    Moved base rest nbytes b s ⟨b.addr, nunits⟩
      { s with
        mem := setNext (setSize s.mem b.addr nunits) (lastNode base A)
          (next (setSize s.mem b.addr nunits) c.addr)
        freep := lastNode base A }
      (A ++ ([] ++ B)) := by
  have insideB := heap.layout.inside b (.inr List.mem_cons_self)
  have insideC := heap.layout.inside c (.inl (by simp))
  have beside := joined_beside heap apart row
  obtain ⟨apartJ, freesJ⟩ := joined_apart heap apart row
  have bound := heap.bounds
  simp only [Block.fin] at insideB insideC row
  have nextC : next (setSize s.mem b.addr nunits) c.addr = firstNode base B := by
    rw [next_setSize (by omega)]
    exact heap.next_taken.1
  rw [nextC]
  obtain ⟨m, same⟩ : ∃ m, m = setNext (setSize s.mem b.addr nunits) (lastNode base A) (firstNode base B) :=
    ⟨_, rfl⟩
  rw [← same]
  apply grow_moved heap apart row
  · intro x y out out'
    simp only [Block.fin] at out
    rw [same]
    exact (setSize_same (by omega)).trans (setNext_same out')
  · rw [same, size_setNext (.inl rfl), size_setSize_ne (by omega)]
  · rw [← all]
    apply (heap.fewer (List.subset_cons_self b rest)).unlinked.use freesJ apartJ
    simp only [Block.fin]
    omega
  · rw [same, next_setNext (firstNode_lt heap.unlinked bound.2)]
    rfl
  · intro x mem
    cases mem
  · rw [same, size_setNext (by omega), size_setSize (by omega)]
  · rw [same]
    simp only [sizeofHeader, Block.fin]
    exact (setSize_same (by omega)).trans (setNext_same (by omega))
  · exact enough
  · rw [nodes_append]
    exact List.mem_append_left _ (lastNode_mem base A)

/-- The rest of the free block stays free. -/
theorem grow_part (more : b.size < nunits) (less : nunits < b.size + c.size)
    (enough : nbytes + sizeofHeader ≤ sizeofHeader * nunits) {new : Nat}
    (place : new = b.addr + sizeofHeader * nunits) :
    Moved base rest nbytes b s ⟨b.addr, nunits⟩
      { s with
        mem := setSize (setNext (setNext (setSize s.mem b.addr nunits) (lastNode base A) new) new
          (next (setNext (setSize s.mem b.addr nunits) (lastNode base A) new) c.addr)) new
          (b.size + c.size - nunits)
        freep := new }
      (A ++ ([⟨new, b.size + c.size - nunits⟩] ++ B)) := by
  have insideB := heap.layout.inside b (.inr List.mem_cons_self)
  have insideC := heap.layout.inside c (.inl (by simp))
  have beside := joined_beside heap apart row
  obtain ⟨apartJ, freesJ⟩ := joined_apart heap apart row
  have bound := heap.bounds
  rw [sizeofHeader] at place
  simp only [Block.fin] at insideB insideC row
  have nextC : next (setNext (setSize s.mem b.addr nunits) (lastNode base A) new) c.addr =
      firstNode base B := by
    rw [next_setNext_ne (by omega), next_setSize (by omega)]
    exact heap.next_taken.1
  rw [nextC]
  obtain ⟨m, same⟩ : ∃ m, m = setSize (setNext (setNext (setSize s.mem b.addr nunits)
      (lastNode base A) new) new (firstNode base B)) new (b.size + c.size - nunits) := ⟨_, rfl⟩
  rw [← same]
  have low := firstNode_lt heap.unlinked bound.2
  have links : next m (lastNode base A) = new := by
    rw [same, next_setSize (by omega), next_setNext_ne (by omega), next_setNext (by omega)]
  have links' : next m new = firstNode base B := by
    rw [same, next_setSize (.inl rfl), next_setNext low]
  apply grow_moved heap apart row
  · intro x y out out'
    simp only [Block.fin] at out
    rw [same]
    exact (((setSize_same (by omega)).trans (setNext_same out')).trans
      (setNext_same (by omega))).trans (setSize_same (by omega))
  · rw [same, size_setSize_ne (by omega), size_setNext (by omega), size_setNext (.inl rfl),
      size_setSize_ne (by omega)]
  · have old := heap.fewer (List.subset_cons_self b rest)
    have order := List.pairwise_append.mp heap.layout.order
    apply Layout.use
    · apply old.unlinked.insert (List.Sublist.refl _)
      · intro a mem
        have := order.2.2 a mem c List.mem_cons_self
        have := heap.layout.separate b List.mem_cons_self a (by simp [mem])
        have := (heap.layout.inside a (.inl (by simp [mem]))).2.1
        simp only [Block.Apart, Block.fin] at *
        omega
      · intro x mem
        have := (List.pairwise_cons.mp order.2.1).1 x mem
        simp only [Block.fin] at *
        omega
      · intro x used
        have := apartJ x used
        simp only [Block.Apart, Block.fin] at *
        omega
      · simp only [Block.fin]
        omega
    · intro x mem
      have parts : x = ⟨new, b.size + c.size - nunits⟩ ∨ Block.Apart ⟨b.addr, b.size + c.size⟩ x := by
        rcases List.mem_append.mp mem with mem | mem
        · exact .inr (freesJ x (List.mem_append_left _ mem))
        · rcases List.mem_cons.mp mem with rfl | mem
          · exact .inl rfl
          · exact .inr (freesJ x (List.mem_append_right _ mem))
      rcases parts with rfl | away
      · simp only [Block.Apart, Block.fin]
        omega
      · simp only [Block.Apart, Block.fin] at *
        omega
    · intro x used
      have := apartJ x used
      simp only [Block.Apart, Block.fin] at *
      omega
    · simp only [Block.fin]
      omega
  · rw [links]
    exact ⟨rfl, links'⟩
  · intro x mem
    rw [List.mem_singleton.mp mem, same]
    exact size_setSize (by omega)
  · rw [same, size_setSize_ne (by omega), size_setNext (by omega), size_setNext (by omega),
      size_setSize (by omega)]
  · rw [same]
    simp only [sizeofHeader, Block.fin]
    exact (((setSize_same (by omega)).trans (setNext_same (by omega))).trans
      (setNext_same (by omega))).trans (setSize_same (by omega))
  · exact enough
  · simp [nodes]

end

/-- Free space behind the block is enough for it, or `grow` fails. -/
theorem grow_spec (heap : Heap base (A ++ B) (b :: rest) s) (apart : ∀ x ∈ rest, x.Apart b)
    (enough : nbytes + sizeofHeader ≤ sizeofHeader * nunits) (more : b.size < nunits) :
    grow nunits b.addr (lastNode base A) (firstNode base B) s = none ∨
      ∃ t frees', grow nunits b.addr (lastNode base A) (firstNode base B) s = some t ∧
        Moved base rest nbytes b s ⟨b.addr, nunits⟩ t frees' := by
  have inside := heap.layout.inside b (.inr List.mem_cons_self)
  have sizeB := heap.shown.sizes b (.inr List.mem_cons_self)
  rw [grow, sizeB]
  split
  · rename_i row
    cases B with
    | nil =>
      rw [firstNode] at row
      omega
    | cons c B =>
      rw [firstNode] at row ⊢
      rw [heap.shown.sizes c (.inl (by simp))]
      dsimp only
      split
      · rename_i all
        exact .inr ⟨_, _, rfl, grow_whole heap apart row all enough⟩
      · split
        · rename_i less
          exact .inr ⟨_, _, rfl, grow_part heap apart row more less enough rfl⟩
        · exact .inl rfl
  · exact .inl rfl

/-! ## A new block -/

/-- The contents are copied, and the old block is freed. -/
theorem move_spec (heap : Heap base frees (b :: rest) s) (apart : ∀ x ∈ rest, x.Apart b)
    (valid : sbrk.Valid) (fits : Fits nbytes) (some : nbytes ≠ 0) :
    move sbrk (b.addr + sizeofHeader) nbytes s = .some (0, s) ∨
      ∃ g t frees', move sbrk (b.addr + sizeofHeader) nbytes s = .some (g.addr + sizeofHeader, t) ∧
        Moved base rest nbytes b s g t frees' := by
  rw [move]
  rcases malloc_spec heap valid fits with failed | ⟨g, t, frees', ran, taken⟩
  · rw [failed]
    exact .inl rfl
  · right
    have insideB := heap.layout.inside b (.inr List.mem_cons_self)
    have insideG := taken.heap.layout.inside g (.inr List.mem_cons_self)
    have sizeB : size t.mem b.addr = b.size := by
      rw [taken.kept.header List.mem_cons_self insideB.2.1]
      exact heap.shown.sizes b (.inr List.mem_cons_self)
    have enough : nbytes + sizeofHeader ≤ sizeofHeader * g.size := by
      rw [taken.size]
      exact ((units_enough nbytes).resolve_right some).1
    obtain ⟨n, count⟩ : ∃ n, n = if (b.size - 1) * sizeofHeader > nbytes then nbytes else
      (b.size - 1) * sizeofHeader := ⟨_, rfl⟩
    have few : n ≤ nbytes := by
      rw [count]
      split
      · exact Nat.le_refl _
      · omega
    obtain ⟨m, same⟩ : ∃ m, m = copy t.mem (g.addr + sizeofHeader) (b.addr + sizeofHeader) n :=
      ⟨_, rfl⟩
    simp only [Block.fin] at insideB insideG
    rw [sizeofHeader] at enough
    have written : Within g t.mem m := by
      intro x y out z low high
      rw [Block.fin] at out
      rw [same]
      apply copy_outside
      rw [sizeofHeader]
      omega
    have apartG : ∀ x ∈ rest, x.Apart g := fun x used => taken.apart x (List.mem_cons_of_mem _ used)
    have header : size m g.addr = g.size := by
      have front : Same g.addr (g.addr + 16) t.mem m := by
        intro z low high
        rw [same]
        apply copy_outside
        rw [sizeofHeader]
        omega
      rw [size_same front]
      exact taken.heap.shown.sizes g (.inr List.mem_cons_self)
    have heap' : Heap base frees' (g :: rest) { t with mem := m } := by
      have fewer : g :: rest ⊆ g :: b :: rest := List.cons_subset_cons g (List.subset_cons_self b rest)
      exact (taken.heap.fewer fewer).within apartG written rfl ⟨insideG.2.1, Nat.le_refl _⟩ header
    have apartB : ∀ x ∈ g :: rest, b.Apart x := by
      intro x used
      rcases List.mem_cons.mp used with rfl | used
      · exact taken.apart b List.mem_cons_self
      · exact (apart x used).symm
    have spare : Spare base t.heap frees' (g :: rest) b := by
      constructor
      · exact apartB
      · exact taken.heap.layout.separate b (by simp)
      · exact taken.heap.layout.inside b (.inr (by simp))
    have shown : size m b.addr = b.size := by
      have unchanged : Kept [b] t.mem m := written.kept (by simpa using taken.apart b List.mem_cons_self)
      rw [unchanged.header List.mem_cons_self insideB.2.1, sizeB]
    obtain ⟨u, frees'', freed, after, top, owned, kept, -⟩ := free_spec heap' spare shown
    refine ⟨g, u, frees'', ?_, ?_⟩
    · have other : g.addr + sizeofHeader ≠ 0 := by
        rw [sizeofHeader]
        omega
      rw [ran]
      dsimp only [Option.bind_eq_bind, Option.bind_some]
      rw [if_neg other, Nat.add_sub_cancel, sizeB, ← count, ← same, freed]
      rfl
    · constructor
      · exact enough
      · exact after
      · exact apartG
      · exact Nat.le_trans taken.top (Nat.le_of_eq top.symm)
      · exact owned.trans taken.owned
      · intro x used
        have first := taken.kept x (List.mem_cons_of_mem _ used)
        have second := written.kept apartG x used
        exact (first.trans second).trans (kept x (List.mem_cons_of_mem _ used))
      · intro i less end'
        rw [sizeofHeader] at end' ⊢
        have copied : i < n := by
          rw [count, sizeofHeader]
          split
          · exact less
          · omega
        have inG := kept g List.mem_cons_self (g.addr + 16 + i) (by omega) (by rw [Block.fin]; omega)
        have inB := taken.kept b List.mem_cons_self (b.addr + 16 + i) (by omega)
          (by rw [Block.fin]; omega)
        rw [inG, ← inB]
        dsimp only
        rw [same]
        exact copy_inside copied

theorem realloc_spec (heap : Heap base frees (b :: rest) s) (apart : ∀ x ∈ rest, x.Apart b)
    (valid : sbrk.Valid) (fits : Fits nbytes) :
    realloc sbrk (b.addr + sizeofHeader) nbytes s = some (0, s) ∨
      ∃ g t frees', realloc sbrk (b.addr + sizeofHeader) nbytes s =
          some (g.addr + sizeofHeader, t) ∧ Moved base rest nbytes b s g t frees' := by
  have inside := heap.layout.inside b (.inr List.mem_cons_self)
  have sizeB := heap.shown.sizes b (.inr List.mem_cons_self)
  rw [realloc]
  split
  · exact .inl rfl
  · rename_i request
    have some : nbytes ≠ 0 := fun zero => request (.inl zero)
    have enough := ((units_enough nbytes).resolve_right some).1
    have other : b.addr + sizeofHeader ≠ 0 := by
      rw [sizeofHeader]
      omega
    rw [if_neg other]
    dsimp only
    rw [Nat.add_sub_cancel, sizeB]
    split
    · rename_i fit
      refine .inr ⟨b, s, frees, rfl, ?_⟩
      constructor
      · rw [fit]
        exact enough
      · exact heap
      · exact apart
      · exact Nat.le_refl _
      · rfl
      · exact fun x _ => Same.refl _ _ _
      · exact fun i _ _ => rfl
    · split
      · rename_i less
        obtain ⟨t, frees', ran, moved⟩ := shrink_spec heap apart enough less
        rw [ran]
        exact .inr ⟨⟨b.addr, units nbytes⟩, t, frees', rfl, moved⟩
      · have more : b.size < units nbytes := by omega
        have differ : ∀ x ∈ frees, x.addr ≠ b.addr := by
          intro x free
          have := heap.layout.separate b List.mem_cons_self x free
          have := (heap.layout.inside x (.inl free)).2.1
          simp only [Block.Apart, Block.fin] at *
          omega
        obtain ⟨A, B, rfl, -, -, found⟩ := prevchunk_spec heap (by omega) differ
        rw [found]
        dsimp only [Option.bind_eq_bind, Option.bind_some]
        rw [next_lastNode heap.shown.ring]
        rcases grow_spec heap apart enough more with failed | ⟨t, frees', ran, moved⟩
        · rw [failed]
          exact move_spec heap apart valid fits some
        · rw [ran]
          exact .inr ⟨⟨b.addr, units nbytes⟩, t, frees', rfl, moved⟩

end Scc.Libc.Stdlib
