import Scc.Libc.Stdlib.FreeProofs

set_option linter.all false

/-! `malloc` finds a block in the ring, or asks for more. -/
namespace Scc.Libc.Stdlib
open Memory

variable {base n : Nat} {frees live A B : List Block} {b c h : Block} {m m' : Mem} {s : State}
  {sbrk : Sbrk}

/-! ## Taking -/

/-- A block in use. -/
theorem Layout.use {top : Nat} (layout : Layout base top frees live)
    (separate : ∀ c ∈ frees, b.Apart c) (apart : ∀ c ∈ live, c.Apart b)
    (inside : base + 16 ≤ b.addr ∧ 0 < b.size ∧ b.fin ≤ top) :
    Layout base top frees (b :: live) where
  order := layout.order
  separate x used c free := by
    rcases List.mem_cons.mp used with rfl | used
    · exact separate c free
    · exact layout.separate x used c free
  apart x used y used' differ := by
    rcases List.mem_cons.mp used with rfl | older
    · rcases List.mem_cons.mp used' with rfl | older'
      · exact absurd rfl differ
      · exact (apart y older').symm
    · rcases List.mem_cons.mp used' with rfl | older'
      · exact apart x older
      · exact layout.apart x older y older' differ
  inside := by
    rintro x (free | used)
    · exact layout.inside x (.inl free)
    · rcases List.mem_cons.mp used with rfl | used
      · exact inside
      · exact layout.inside x (.inr used)

theorem order_apart (layout : Layout base s.heap (A ++ c :: B) live) :
    ∀ x ∈ A ++ B, c.Apart x := by
  obtain ⟨-, second, across⟩ := List.pairwise_append.mp layout.order
  intro x mem
  rcases List.mem_append.mp mem with mem | mem
  · exact .inr (Nat.le_of_lt (across x mem c List.mem_cons_self))
  · exact .inl (Nat.le_of_lt ((List.pairwise_cons.mp second).1 x mem))

/-- A block that `malloc` has taken out of the free ones. -/
structure Taken (base : Nat) (live : List Block) (n : Nat) (s : State) (b : Block) (t : State)
    (frees : List Block) : Prop where
  size : b.size = n
  heap : Heap base frees (b :: live) t
  apart : ∀ c ∈ live, c.Apart b
  top : s.heap ≤ t.heap
  owned : t.live = s.live
  kept : Kept live s.mem t.mem

section
variable (heap : Heap base (A ++ c :: B) live s)
include heap

theorem Heap.next_taken : next s.mem c.addr = firstNode base B ∧ next s.mem (lastNode base A) = c.addr := by
  have ring : Walk (next s.mem) base (nodes base ((A ++ [c]) ++ B)) base := by
    rw [List.append_assoc]
    exact heap.shown.ring
  have links := next_lastNode ring
  rw [lastNode_concat] at links
  exact ⟨links, next_lastNode heap.shown.ring⟩

theorem Heap.unlinked : Layout base s.heap (A ++ B) live :=
  heap.layout.sublist ((List.sublist_cons_self c B).append_left A)

theorem Heap.beside_taken : c.fin ≤ lastNode base A ∨ lastNode base A + 16 ≤ c.addr := by
  have inside := heap.layout.inside c (.inl (by simp))
  apply heap.unlinked.beside inside.1 (order_apart heap.layout)
  rw [nodes_append]
  exact List.mem_append_left _ (lastNode_mem base A)

theorem Heap.sizes_taken (written : Local c (lastNode base A) s.mem m) :
    ∀ x ∈ live, size m x.addr = x.size := by
  intro x used
  have kept := written.kept heap.unlinked fun x used => heap.layout.separate x used c (by simp)
  rw [kept.header used (heap.layout.inside x (.inr used)).2.1]
  exact heap.shown.sizes x (.inr used)

/-- A block that fits is unlinked. -/
theorem take_whole : ∃ t, take c.size (lastNode base A) c.addr s = (c.addr + sizeofHeader, t) ∧
    Taken base live c.size s c t (A ++ B) := by
  have inside := heap.layout.inside c (.inl (by simp))
  have bound := heap.bounds
  obtain ⟨nextC, -⟩ := heap.next_taken
  have layout := heap.unlinked
  have apart := order_apart heap.layout
  have beside := heap.beside_taken
  have sizeC := heap.shown.sizes c (.inl (by simp))
  have away : c.addr + 16 ≤ lastNode base A ∨ lastNode base A + 16 ≤ c.addr := by
    rw [Block.fin] at beside
    omega
  obtain ⟨m, same⟩ : ∃ m, m = setNext (setNext s.mem (lastNode base A) (firstNode base B)) c.addr 0 :=
    ⟨_, rfl⟩
  have ran : take c.size (lastNode base A) c.addr s =
      (c.addr + sizeofHeader, { s with mem := m, freep := lastNode base A }) := by
    rw [take, if_pos sizeC, nextC, same]
  have written : Local c (lastNode base A) s.mem m := by
    intro x y out out'
    rw [same]
    refine (setNext_same out').trans (setNext_same ?_)
    rw [Block.fin] at out
    omega
  have separate : ∀ x ∈ live, x.Apart c := fun x used => heap.layout.separate x used c (by simp)
  refine ⟨_, ran, rfl, ?_, separate, Nat.le_refl _, rfl, written.kept layout separate⟩
  constructor
  · exact layout.use apart separate inside
  · have front : Front base s.mem m A A := by
      refine .inl ⟨rfl, ?_⟩
      rw [same, size_setNext (.inr away), size_setNext (.inl rfl)]
    apply heap.shown.splice (M := [c]) (N := []) written layout inside.1 apart front
    · rw [same, next_setNext_ne away, next_setNext (firstNode_lt layout bound.2)]
      rfl
    · rintro x (mem | used)
      · cases mem
      · rcases List.mem_cons.mp used with rfl | used
        · rw [same, size_setNext (.inl rfl), size_setNext (.inr away.symm), sizeC]
        · exact heap.sizes_taken written x used
  · rw [nodes_append]
    exact List.mem_append_left _ (lastNode_mem base A)
  · exact bound

/-- The last units of a larger block are taken. -/
theorem take_part (some : 0 < n) (more : n < c.size) :
    ∃ t, take n (lastNode base A) c.addr s =
        (c.addr + sizeofHeader * (c.size - n) + sizeofHeader, t) ∧
      Taken base live n s ⟨c.addr + sizeofHeader * (c.size - n), n⟩ t
        (A ++ ⟨c.addr, c.size - n⟩ :: B) := by
  have inside := heap.layout.inside c (.inl (by simp))
  have bound := heap.bounds
  obtain ⟨nextC, nextA⟩ := heap.next_taken
  have layout := heap.unlinked
  have apart := order_apart heap.layout
  have beside := heap.beside_taken
  have sizeC := heap.shown.sizes c (.inl (by simp))
  simp only [Block.fin] at inside beside
  obtain ⟨cur, place⟩ : ∃ cur, cur = c.addr + sizeofHeader * (c.size - n) := ⟨_, rfl⟩
  rw [← place]
  rw [sizeofHeader] at place
  obtain ⟨m, same⟩ : ∃ m, m = setNext (setSize (setSize s.mem c.addr (c.size - n)) cur n) cur 0 :=
    ⟨_, rfl⟩
  have fits : c.size - n < space := by omega
  have ran : take n (lastNode base A) c.addr s =
      (cur + sizeofHeader, { s with mem := m, freep := lastNode base A }) := by
    have differs : ¬c.size = n := by omega
    rw [take, sizeC, if_neg differs]
    dsimp only
    rw [size_setSize fits, same, place]
    rfl
  have written : Local c (lastNode base A) s.mem m := by
    intro x y out out'
    rw [Block.fin] at out
    rw [same]
    refine ((setSize_same ?_).trans (setSize_same ?_)).trans (setNext_same ?_)
    · omega
    · omega
    · omega
  have separate : ∀ x ∈ live, x.Apart c := fun x used => heap.layout.separate x used c (by simp)
  have separate' : ∀ x ∈ live, x.Apart ⟨cur, n⟩ := by
    intro x used
    have := separate x used
    simp only [Block.Apart, Block.fin] at *
    omega
  refine ⟨_, ran, rfl, ?_, separate', Nat.le_refl _, rfl, written.kept layout separate⟩
  constructor
  · apply Layout.use
    · apply layout.insert (List.Sublist.refl _)
      · intro a mem
        exact (List.pairwise_append.mp heap.layout.order).2.2 a mem c List.mem_cons_self
      · intro b mem
        have order := (List.pairwise_append.mp heap.layout.order).2.1
        have := (List.pairwise_cons.mp order).1 b mem
        simp only [Block.fin] at *
        omega
      · intro b used
        have := separate b used
        simp only [Block.Apart, Block.fin] at *
        omega
      · simp only [Block.fin]
        omega
    · intro x mem
      have parts : x = ⟨c.addr, c.size - n⟩ ∨ c.Apart x := by
        rcases List.mem_append.mp mem with mem | mem
        · exact .inr (apart x (List.mem_append_left _ mem))
        · rcases List.mem_cons.mp mem with rfl | mem
          · exact .inl rfl
          · exact .inr (apart x (List.mem_append_right _ mem))
      rcases parts with rfl | away
      · simp only [Block.Apart, Block.fin]
        omega
      · simp only [Block.Apart, Block.fin] at *
        omega
    · exact separate'
    · simp only [Block.fin]
      omega
  · have front : Front base s.mem m A A := by
      refine .inl ⟨rfl, ?_⟩
      rw [same, size_setNext (by omega), size_setSize_ne (by omega), size_setSize_ne (by omega)]
    apply heap.shown.splice (M := [c]) (N := [⟨c.addr, c.size - n⟩]) written layout inside.1 apart
      front
    · have links : next m (lastNode base A) = c.addr := by
        rw [same, next_setNext_ne (by omega), next_setSize (by omega), next_setSize (by omega), nextA]
      have links' : next m c.addr = firstNode base B := by
        rw [same, next_setNext_ne (by omega), next_setSize (by omega), next_setSize (by omega), nextC]
      rw [links]
      exact ⟨rfl, links'⟩
    · rintro x (mem | used)
      · rw [List.mem_singleton.mp mem]
        dsimp only
        rw [same, size_setNext (by omega), size_setSize_ne (by omega), size_setSize fits]
      · rcases List.mem_cons.mp used with rfl | used
        · dsimp only
          rw [same, size_setNext (.inl rfl), size_setSize (by omega)]
        · exact heap.sizes_taken written x used
  · rw [nodes_append]
    exact List.mem_append_left _ (lastNode_mem base A)
  · exact bound

theorem take_spec (some : 0 < n) (fits : n ≤ c.size) :
    ∃ b t frees', take n (lastNode base A) c.addr s = (b.addr + sizeofHeader, t) ∧
      Taken base live n s b t frees' := by
  rcases Nat.lt_or_eq_of_le fits with more | rfl
  · obtain ⟨t, ran, taken⟩ := take_part heap some more
    exact ⟨_, t, _, ran, taken⟩
  · obtain ⟨t, ran, taken⟩ := take_whole heap
    exact ⟨c, t, _, ran, taken⟩

end

/-! ## More of the system -/

/-- The heap with a new end. -/
theorem Heap.extend (heap : Heap base frees live s) {top : Nat} (low : s.heap ≤ top)
    (high : top < space) (same : Same 0 s.heap s.mem m) :
    Heap base frees live { s with mem := m, heap := top } := by
  have header {x : Nat} (end' : x + 16 ≤ s.heap) : Same x (x + 16) s.mem m :=
    same.within (Nat.zero_le x) end'
  have bound := heap.bounds
  have below : ∀ b, b ∈ frees ∨ b ∈ live → b.addr + 16 ≤ s.heap := by
    intro b mem
    have := heap.layout.inside b mem
    simp only [Block.fin] at this
    omega
  constructor
  · refine ⟨heap.layout.order, heap.layout.separate, heap.layout.apart, ?_⟩
    intro b mem
    obtain ⟨start, some, fin⟩ := heap.layout.inside b mem
    exact ⟨start, some, Nat.le_trans fin low⟩
  · constructor
    · apply heap.shown.ring.congr
      intro x mem
      rcases List.mem_cons.mp mem with rfl | mem
      · exact next_same (header bound.2.1)
      · obtain ⟨b, free, rfl⟩ := List.mem_map.mp mem
        exact next_same (header (below b (.inl free)))
    · exact (size_same (header bound.2.1)).trans heap.shown.head
    · intro b mem
      exact (size_same (header (below b mem))).trans (heap.shown.sizes b mem)
  · exact heap.freep
  · exact ⟨bound.1, Nat.le_trans bound.2.1 low, high⟩

/-- What `morecore` gives is free, and large enough. -/
theorem morecore_spec (heap : Heap base frees live s) (valid : sbrk.Valid)
    (fits : n * sizeofHeader < space) :
    morecore sbrk n s = some (0, s) ∨
      ∃ t frees', morecore sbrk n s = some (t.freep, t) ∧ t.freep ≠ 0 ∧ Heap base frees' live t ∧
        s.heap ≤ t.heap ∧ t.live = s.live ∧ Kept live s.mem t.mem ∧ (∃ c ∈ frees', n ≤ c.size) ∧
        frees'.length ≤ frees.length + 1 := by
  obtain ⟨nunits, more⟩ : ∃ k, k = if n < NALLOC then NALLOC else n := ⟨_, rfl⟩
  have enough : n ≤ nunits ∧ 0 < nunits ∧ nunits * sizeofHeader < space := by
    have least : NALLOC * sizeofHeader < space := by decide
    rw [NALLOC] at more least
    split at more
    · rw [more]
      omega
    · rw [more]
      omega
  have whole : nunits * sizeofHeader % space = nunits * sizeofHeader := Nat.mod_eq_of_lt enough.2.2
  rw [morecore, ← more, whole]
  cases granted : sbrk s.heap (nunits * sizeofHeader) with
  | none => exact .inl rfl
  | some hp =>
    right
    obtain ⟨fresh, high⟩ := valid _ _ _ granted
    rw [sizeofHeader] at high enough
    have bound := heap.bounds
    have untouched : Same 0 s.heap s.mem (setSize s.mem hp nunits) := setSize_same (.inl fresh)
    have low : s.heap ≤ hp + nunits * sizeofHeader := Nat.le_trans fresh (Nat.le_add_right _ _)
    have heap' := heap.extend low high untouched
    have above {b : Block} (mem : b ∈ frees ∨ b ∈ live) : b.fin ≤ hp :=
      Nat.le_trans (heap.layout.inside b mem).2.2 fresh
    have spare : Spare base (hp + nunits * sizeofHeader) frees live ⟨hp, nunits⟩ := by
      constructor
      · exact fun b used => .inr (above (.inr used))
      · exact fun b free => .inr (above (.inl free))
      · simp only [Block.fin, sizeofHeader]
        omega
    obtain ⟨t, frees', ran, after, top, owned, kept, big, count⟩ :=
      free_spec heap' spare (size_setSize (by omega))
    refine ⟨t, frees', ?_, ?_, after, ?_, owned, ?_, ?_, count⟩
    · dsimp only
      rw [ran]
      rfl
    · have node := after.freep
      intro zero
      rw [zero] at node
      rcases List.mem_cons.mp node with zero | node
      · omega
      · obtain ⟨b, free, zero⟩ := List.mem_map.mp node
        have := (after.layout.inside b (.inl free)).1
        omega
    · rw [top]
      dsimp only
      omega
    · intro b used
      refine Same.trans ?_ (kept b used)
      exact untouched.within (Nat.zero_le _) (heap.layout.inside b (.inr used)).2.2
    · obtain ⟨c, free, le⟩ := big
      exact ⟨c, free, Nat.le_trans enough.1 le⟩

/-! ## The loop -/

/-- The loop goes over nodes that are too small, up to the one where it started. -/
theorem findfit_skip (sbrk : Sbrk) {k prev cur d : Nat} {l rest : List Nat}
    (walk : Walk (next s.mem) (next s.mem prev) (l ++ cur :: rest) d)
    (small : ∀ x ∈ l, size s.mem x < n ∧ x ≠ s.freep) :
    ∃ prev', findfit sbrk n (k + l.length) prev s = findfit sbrk n k prev' s ∧
      next s.mem prev' = cur ∧ prev' ∈ prev :: l := by
  induction l generalizing prev with
  | nil => exact ⟨prev, rfl, walk.1, List.mem_cons_self⟩
  | cons x l ih =>
    obtain ⟨here, walk⟩ := walk
    obtain ⟨less, other⟩ := small x List.mem_cons_self
    obtain ⟨prev', ran, link, mem⟩ := ih walk fun y mem => small y (List.mem_cons_of_mem x mem)
    refine ⟨prev', ?_, link, List.mem_cons_of_mem prev mem⟩
    rw [List.length_cons, ← Nat.add_assoc, findfit, here, if_neg (Nat.not_le.mpr less), if_neg other]
    exact ran

/-- All nodes in the order in which the loop comes to them, the one where it started last. -/
theorem Heap.round (heap : Heap base frees live s) :
    ∃ l, Walk (next s.mem) (next s.mem s.freep) (l ++ [s.freep]) (next s.mem s.freep) ∧
      s.freep ∉ l ∧ (∀ x, x ∈ l ++ [s.freep] ↔ x ∈ nodes base frees) ∧
      (l ++ [s.freep]).length = (nodes base frees).length := by
  obtain ⟨before, after, split⟩ := List.append_of_mem heap.freep
  have ring := heap.shown.ring
  have ascending := heap.layout.ascending
  rw [split] at ring ascending
  obtain ⟨-, second, across⟩ := List.pairwise_append.mp ascending
  refine ⟨after ++ before, ring.rotate.2.append ⟨rfl, rfl⟩, ?_, ?_, ?_⟩
  · intro mem
    rcases List.mem_append.mp mem with mem | mem
    · exact absurd ((List.pairwise_cons.mp second).1 _ mem) (Nat.lt_irrefl _)
    · exact absurd (across _ mem _ List.mem_cons_self) (Nat.lt_irrefl _)
  · intro x
    rw [split]
    simp only [List.mem_append, List.mem_cons, List.not_mem_nil]
    tauto
  · rw [split]
    simp only [List.length_append, List.length_cons, List.length_nil]
    omega

/-- A node of the ring that links to a block. -/
theorem Heap.linked (heap : Heap base frees live s) {prev : Nat} (mem : prev ∈ nodes base frees)
    (other : next s.mem prev ≠ base) :
    ∃ A c B, frees = A ++ c :: B ∧ prev = lastNode base A ∧ next s.mem prev = c.addr := by
  obtain ⟨before, after, split⟩ := List.append_of_mem mem
  obtain ⟨A, B, rfl, upTo, rest⟩ := nodes_split split
  have last := lastNode_eq upTo
  have links := next_lastNode heap.shown.ring
  rw [last] at links
  cases B with
  | nil => exact absurd links other
  | cons c B => exact ⟨A, c, B, rfl, last.symm, links⟩

theorem findfit_found (sbrk : Sbrk) (heap : Heap base frees live s) (some : 0 < n) (fit : ∃ c ∈ frees, n ≤ c.size)
    {k : Nat} (rounds : (nodes base frees).length ≤ k) :
    ∃ A c B, frees = A ++ c :: B ∧ n ≤ c.size ∧
      findfit sbrk n k s.freep s = .some (take n (lastNode base A) c.addr s) := by
  obtain ⟨l, walk, once, same, count⟩ := heap.round
  obtain ⟨c, free, le⟩ := fit
  have node : c.addr ∈ l ++ [s.freep] := (same _).mpr (List.mem_cons_of_mem _ (List.mem_map_of_mem free))
  have found : ((l ++ [s.freep]).find? fun x => n ≤ size s.mem x).isSome := by
    rw [List.find?_isSome]
    refine ⟨c.addr, node, ?_⟩
    rw [heap.shown.sizes c (.inl free)]
    exact decide_eq_true le
  obtain ⟨cur, found⟩ := Option.isSome_iff_exists.mp found
  obtain ⟨fits, skipped, rest, split, small⟩ := List.find?_eq_some_iff_append.mp found
  have small' : ∀ x ∈ skipped, size s.mem x < n ∧ x ≠ s.freep := by
    intro x mem
    refine ⟨by simpa using small x mem, ?_⟩
    rintro rfl
    rcases List.eq_nil_or_concat rest with rfl | ⟨rest, y, rfl⟩
    · have init := (List.append_inj' split rfl).1
      exact once (init ▸ mem)
    · rw [List.concat_eq_append, ← List.cons_append, ← List.append_assoc] at split
      have init := (List.append_inj' split rfl).1
      exact once (init ▸ List.mem_append_left _ mem)
  have enough : skipped.length + 1 ≤ k := by
    have := congrArg List.length split
    rw [count, List.length_append, List.length_cons] at this
    omega
  obtain ⟨j, rfl⟩ := Nat.exists_eq_add_of_le' enough
  rw [split] at walk
  obtain ⟨prev, ran, link, mem⟩ := findfit_skip sbrk (k := j + 1) walk small'
  have fits := of_decide_eq_true fits
  have inRing : prev ∈ nodes base frees := by
    rcases List.mem_cons.mp mem with rfl | mem
    · exact heap.freep
    · rw [← same, split]
      exact List.mem_append_left _ mem
  have other : next s.mem prev ≠ base := by
    rintro head
    rw [← link, head, heap.shown.head] at fits
    omega
  obtain ⟨A, c, B, rfl, rfl, link'⟩ := heap.linked inRing other
  rw [link'] at link
  subst link
  refine ⟨A, c, B, rfl, ?_, ?_⟩
  · rwa [heap.shown.sizes c (.inl (by simp))] at fits
  · have order : j + (skipped.length + 1) = j + 1 + skipped.length := by omega
    rw [order, ran, findfit, link']
    exact if_pos fits

/-- Where no block fits, the loop asks for more. -/
theorem findfit_more (heap : Heap base frees live s) (some : 0 < n) (none : ∀ c ∈ frees, c.size < n)
    (k : Nat) : findfit sbrk n (k + (nodes base frees).length) s.freep s = (do
      let (cur, s) ← morecore sbrk n s
      if cur = 0 then .some (0, s) else findfit sbrk n k cur s) := by
  obtain ⟨l, walk, once, same, count⟩ := heap.round
  have small : ∀ x ∈ nodes base frees, size s.mem x < n := by
    intro x mem
    rcases List.mem_cons.mp mem with rfl | mem
    · rw [heap.shown.head]
      exact some
    · obtain ⟨c, free, rfl⟩ := List.mem_map.mp mem
      rw [heap.shown.sizes c (.inl free)]
      exact none c free
  have small' : ∀ x ∈ l, size s.mem x < n ∧ x ≠ s.freep := by
    intro x mem
    refine ⟨small x ((same x).mp (List.mem_append_left _ mem)), ?_⟩
    rintro rfl
    exact once mem
  obtain ⟨prev, ran, link, -⟩ := findfit_skip sbrk (k := k + 1) walk small'
  have order : k + (nodes base frees).length = k + 1 + l.length := by
    rw [← count, List.length_append, List.length_singleton]
    omega
  rw [order, ran, findfit, link, if_neg (Nat.not_le.mpr (small _ heap.freep)), if_pos rfl]

/-! ## `malloc` -/

theorem malloc_spec (heap : Heap base frees live s) (valid : sbrk.Valid) {nbytes : Nat}
    (fits : Fits nbytes) :
    malloc sbrk nbytes s = some (0, s) ∨
      ∃ b t frees', malloc sbrk nbytes s = some (b.addr + sizeofHeader, t) ∧
        Taken base live (units nbytes) s b t frees' := by
  rw [malloc]
  split
  · exact .inl rfl
  · have some : 0 < units nbytes := Nat.succ_pos _
    have count := heap.length_nodes
    by_cases fit : ∃ c ∈ frees, units nbytes ≤ c.size
    · have rounds : (nodes base frees).length ≤ s.rounds := by
        rw [State.rounds]
        omega
      obtain ⟨A, c, B, rfl, le, ran⟩ := findfit_found sbrk heap some fit rounds
      obtain ⟨b, t, frees', took, taken⟩ := take_spec heap some le
      exact .inr ⟨b, t, frees', ran.trans (congrArg _ took), taken⟩
    · simp only [not_exists, not_and, Nat.not_le] at fit
      obtain ⟨k, rounds⟩ : ∃ k, s.rounds = k + (nodes base frees).length :=
        ⟨s.rounds - (nodes base frees).length, by rw [State.rounds]; omega⟩
      rw [rounds, findfit_more heap some fit k]
      rcases morecore_spec heap valid fits with failed | ⟨t, frees', ran, some', after, top, owned,
        kept, big, more⟩
      · rw [failed]
        exact .inl rfl
      · have left : (nodes base frees').length ≤ k := by
          have head (fs : List Block) : (nodes base fs).length = fs.length + 1 := by simp [nodes]
          rw [head] at count rounds ⊢
          rw [State.rounds] at rounds
          omega
        obtain ⟨A, c, B, rfl, le, found⟩ := findfit_found sbrk after some big left
        obtain ⟨b, u, frees'', took, taken⟩ := take_spec after some le
        right
        refine ⟨b, u, frees'', ?_, ?_⟩
        · rw [ran]
          dsimp only [Option.bind_eq_bind, Option.bind_some]
          rw [if_neg some', found, took]
        · constructor
          · exact taken.size
          · exact taken.heap
          · exact taken.apart
          · exact Nat.le_trans top taken.top
          · exact taken.owned.trans owned
          · intro x used
            exact (kept x used).trans (taken.kept x used)

end Scc.Libc.Stdlib
