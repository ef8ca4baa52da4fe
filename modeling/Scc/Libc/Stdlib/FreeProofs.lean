import Mathlib.Data.List.Perm.Subperm
import Scc.Libc.Stdlib.Malloc

set_option linter.all false

/-! `free` puts a block into the list of free blocks, joined with its neighbours. -/
namespace Scc.Libc.Stdlib
open Memory

variable {base hp : Nat} {frees live A B : List Block} {h : Block} {m m' : Mem} {s : State}

/-! ## The place of a block -/

theorem length_of_ascending {l : List Nat} {n : Nat} (ascending : l.Pairwise (· < ·))
    (bound : ∀ x ∈ l, x < n) : l.length ≤ n := by
  have distinct : l.Nodup := ascending.imp fun below => Nat.ne_of_lt below
  have sub : l ⊆ List.range n := fun x mem => List.mem_range.mpr (bound x mem)
  have le := (distinct.subperm sub).length_le
  rwa [List.length_range] at le

/-- There are no more blocks than bytes. -/
theorem Heap.length_nodes (heap : Heap base frees live s) :
    (nodes base frees).length ≤ s.heap := by
  apply length_of_ascending heap.layout.ascending
  intro x mem
  rcases List.mem_cons.mp mem with rfl | mem
  · have := heap.bounds
    omega
  · obtain ⟨b, free, rfl⟩ := List.mem_map.mp mem
    have := heap.layout.inside b (.inl free)
    simp only [Block.fin] at this
    omega

theorem le_lastNode (ascending : (nodes base A).Pairwise (· < ·)) {x : Nat}
    (mem : x ∈ nodes base A) : x ≤ lastNode base A := by
  rw [nodes_last] at ascending mem
  rcases List.mem_append.mp mem with mem | mem
  · have below := (List.pairwise_append.mp ascending).2.2 x mem _ (List.mem_singleton_self _)
    exact Nat.le_of_lt below
  · exact Nat.le_of_eq (List.mem_singleton.mp mem)

/-- The node in front of an address: all blocks of the list up to it are below, all others above. -/
theorem prevchunk_spec (heap : Heap base frees live s) (low : base < hp)
    (other : ∀ b ∈ frees, b.addr ≠ hp) :
    ∃ A B, frees = A ++ B ∧ (∀ a ∈ A, a.addr < hp) ∧ (∀ b ∈ B, hp < b.addr) ∧
      prevchunk s hp = some (lastNode base A) := by
  have ascending := heap.layout.ascending
  have found : ∃ x ∈ nodes base frees, between s.mem hp x = true := by
    obtain ⟨A, B, rfl, below, above⟩ := split_at heap.layout.order hp
    refine ⟨lastNode base A, ?_, ?_⟩
    · rw [nodes_append]
      exact List.mem_append_left _ (lastNode_mem base A)
    · have under : base ≤ lastNode base A ∧ lastNode base A < hp := by
        rcases List.eq_nil_or_concat A with rfl | ⟨A, p, rfl⟩
        · exact ⟨Nat.le_refl base, low⟩
        · rw [List.concat_eq_append, lastNode_concat]
          have inside := heap.layout.inside p (.inl (by simp))
          have := below p (by simp)
          omega
      rw [between, next_lastNode heap.shown.ring]
      cases B with
      | nil =>
        simp only [firstNode]
        simp [under]
      | cons b B =>
        have here := above b List.mem_cons_self
        have differs := other b (by simp)
        have over' : hp < b.addr := by omega
        simp [firstNode, under, over']
  have long : (frees.map Block.addr).length + 1 ≤ s.rounds := by
    have count := heap.length_nodes
    rw [nodes, List.length_cons] at count
    rw [State.rounds]
    omega
  obtain ⟨x, mem, stops, result⟩ := search_ring heap.shown.ring heap.freep found long
  obtain ⟨before, after, split⟩ := List.append_of_mem mem
  obtain ⟨A, B, rfl, upTo, rest⟩ := nodes_split split
  have last := lastNode_eq upTo
  rw [nodes_append] at ascending
  obtain ⟨first, second, across⟩ := List.pairwise_append.mp ascending
  rw [between, ← last, next_lastNode heap.shown.ring] at stops
  simp only [Bool.or_eq_true, Bool.and_eq_true, decide_eq_true_eq] at stops
  have least : base ≤ lastNode base A := le_lastNode first List.mem_cons_self
  have under : lastNode base A < hp := by
    cases B with
    | nil =>
      simp only [firstNode] at stops
      omega
    | cons b B =>
      have up := across _ (lastNode_mem base A) b.addr (by simp)
      simp only [firstNode] at stops
      omega
  refine ⟨A, B, rfl, ?_, ?_, by rw [last]; exact result⟩
  · intro a free
    have := le_lastNode first (List.mem_cons_of_mem _ (List.mem_map_of_mem free))
    omega
  · intro b free
    cases B with
    | nil => cases free
    | cons c B =>
      have up := across _ (lastNode_mem base A) c.addr (by simp)
      simp only [firstNode] at stops
      have start : hp < c.addr := by omega
      rcases List.mem_cons.mp free with rfl | free
      · exact start
      · have := (List.pairwise_cons.mp second).1 b.addr (List.mem_map_of_mem free)
        omega

/-! ## Headers -/

/-- The header of a node is outside of each block that is apart from the free ones. -/
theorem Layout.beside {top x : Nat} {b : Block} (layout : Layout base top frees live)
    (low : base + 16 ≤ b.addr) (apart : ∀ c ∈ frees, b.Apart c) (mem : x ∈ nodes base frees) :
    b.fin ≤ x ∨ x + 16 ≤ b.addr := by
  rcases List.mem_cons.mp mem with rfl | mem
  · exact .inr low
  · obtain ⟨c, free, rfl⟩ := List.mem_map.mp mem
    have some := (layout.inside c (.inl free)).2.1
    have away := apart c free
    simp only [Block.Apart, Block.fin] at away ⊢
    omega

theorem Layout.beside_live {top x : Nat} {b : Block} (layout : Layout base top frees live)
    (used : b ∈ live) (mem : x ∈ nodes base frees) : b.fin ≤ x ∨ x + 16 ≤ b.addr :=
  layout.beside (layout.inside b (.inr used)).1 (layout.separate b used) mem

/-- The headers of the nodes are apart. -/
theorem Layout.headers {top : Nat} (layout : Layout base top frees live) :
    (nodes base frees).Pairwise fun x y => x + 16 ≤ y := by
  rw [nodes, List.pairwise_cons]
  constructor
  · intro a mem
    obtain ⟨b, free, rfl⟩ := List.mem_map.mp mem
    exact (layout.inside b (.inl free)).1
  · rw [List.pairwise_map]
    refine layout.order.imp_of_mem ?_
    intro b c free _ before
    have := (layout.inside b (.inl free)).2.1
    simp only [Block.fin] at before
    omega

/-- A block at a place of the list that is not joined with another any more. -/
theorem Layout.insert {top : Nat} {A' B' : List Block} (layout : Layout base top (A ++ B) live)
    (less : (A' ++ B').Sublist (A ++ B)) (before : ∀ a ∈ A', a.fin < h.addr)
    (behind : ∀ b ∈ B', h.fin < b.addr) (apart : ∀ b ∈ live, b.Apart h)
    (inside : base + 16 ≤ h.addr ∧ 0 < h.size ∧ h.fin ≤ top) :
    Layout base top (A' ++ h :: B') live := by
  have old {b : Block} (mem : b ∈ A' ++ h :: B') : b = h ∨ b ∈ A ++ B := by
    rcases List.mem_append.mp mem with mem | mem
    · exact .inr (less.subset (List.mem_append_left _ mem))
    · rcases List.mem_cons.mp mem with rfl | mem
      · exact .inl rfl
      · exact .inr (less.subset (List.mem_append_right _ mem))
  constructor
  · obtain ⟨first, second, across⟩ := List.pairwise_append.mp (layout.order.sublist less)
    apply List.pairwise_append.mpr
    refine ⟨first, List.pairwise_cons.mpr ⟨behind, second⟩, ?_⟩
    intro a mem b mem'
    rcases List.mem_cons.mp mem' with rfl | mem'
    · exact before a mem
    · exact across a mem b mem'
  · intro b used c mem
    rcases old mem with rfl | mem
    · exact apart b used
    · exact layout.separate b used c mem
  · exact layout.apart
  · rintro b (mem | used)
    · rcases old mem with rfl | mem
      · exact inside
      · exact layout.inside b (.inl mem)
    · exact layout.inside b (.inr used)

/-! ## Joining -/

/-- A block joined with the free block right behind it, if there is one, and the blocks behind that. -/
structure JoinedNext (base : Nat) (m m' : Mem) (B : List Block) (h g : Block) (B' : List Block) :
    Prop where
  rest : B = B' ∧ g = h ∨ ∃ c, B = c :: B' ∧ h.fin = c.addr ∧ g = ⟨h.addr, h.size + c.size⟩
  behind : ∀ b ∈ B', g.fin < b.addr
  links : next m' h.addr = firstNode base B'
  shows : size m' h.addr = g.size
  frame : ∀ x y, y ≤ h.addr ∨ h.addr + 16 ≤ x → Same x y m m'

theorem JoinedNext.addr {g : Block} {B' : List Block} (joined : JoinedNext base m m' B h g B') :
    g.addr = h.addr ∧ h.size ≤ g.size := by
  rcases joined.rest with ⟨-, rfl⟩ | ⟨c, -, -, rfl⟩
  · exact ⟨rfl, Nat.le_refl _⟩
  · exact ⟨rfl, Nat.le_add_right _ _⟩

theorem firstNode_lt {top : Nat} (layout : Layout base top (A ++ B) live)
    (high : base + 16 ≤ top ∧ top < space) : firstNode base B < space := by
  cases B with
  | nil =>
    rw [firstNode]
    omega
  | cons b B =>
    have inside := (layout.inside b (.inl (by simp))).2.2
    rw [Block.fin] at inside
    rw [firstNode]
    omega

theorem joinNext_spec (heap : Heap base (A ++ B) live s)
    (spare : Spare base s.heap (A ++ B) live h) (shown : size s.mem h.addr = h.size)
    (above : ∀ b ∈ B, h.addr < b.addr) :
    ∃ g B', JoinedNext base s.mem (joinNext s.mem h.addr (firstNode base B)) B h g B' := by
  have inside := spare.inside
  have separate (behind : ∀ b ∈ B, h.fin < b.addr) (off : h.fin ≠ firstNode base B) :
      JoinedNext base s.mem (joinNext s.mem h.addr (firstNode base B)) B h h B := by
    have same : joinNext s.mem h.addr (firstNode base B) =
        setNext s.mem h.addr (firstNode base B) := by
      rw [joinNext, shown]
      exact if_neg off
    rw [same]
    constructor
    · exact .inl ⟨rfl, rfl⟩
    · exact behind
    · exact next_setNext (firstNode_lt heap.layout heap.bounds.2)
    · rw [size_setNext (.inl rfl), shown]
    · intro x y out
      exact setNext_same out
  cases B with
  | nil =>
    refine ⟨h, [], separate (by simp) ?_⟩
    simp only [Block.fin, firstNode]
    omega
  | cons c B =>
    have order := (List.pairwise_append.mp heap.layout.order).2.1
    have above' := (List.pairwise_cons.mp order).1
    have within := heap.layout.inside c (.inl (by simp))
    have apart : h.fin ≤ c.addr := by
      have := spare.frees c (by simp)
      have := above c List.mem_cons_self
      simp only [Block.Apart, Block.fin] at *
      omega
    by_cases row : h.fin = c.addr
    · refine ⟨⟨h.addr, h.size + c.size⟩, B, ?_⟩
      have sizeC := heap.shown.sizes c (.inl (by simp))
      have high := heap.bounds.2
      have fits : h.size + c.size < space := by
        simp only [Block.fin] at within row
        omega
      have away : h.addr + 16 ≤ c.addr := by
        simp only [Block.fin] at row
        omega
      have ring : Walk (next s.mem) base (nodes base ((A ++ [c]) ++ B)) base := by
        rw [List.append_assoc]
        exact heap.shown.ring
      have nextC : next s.mem c.addr = firstNode base B := by
        have links := next_lastNode ring
        rwa [lastNode_concat] at links
      have same : joinNext s.mem h.addr (firstNode base (c :: B)) =
          setNext (setSize s.mem h.addr (h.size + c.size)) h.addr (firstNode base B) := by
        rw [joinNext, shown, firstNode, sizeC]
        dsimp only
        rw [next_setSize (.inr (.inl away)), nextC]
        exact if_pos row
      have layout' : Layout base s.heap ((A ++ [c]) ++ B) live := by
        rw [List.append_assoc]
        exact heap.layout
      rw [same]
      constructor
      · exact .inr ⟨c, rfl, row, rfl⟩
      · intro b mem
        have := above' b mem
        simp only [Block.fin] at this row ⊢
        omega
      · exact next_setNext (firstNode_lt layout' heap.bounds.2)
      · rw [size_setNext (.inl rfl), size_setSize fits]
      · intro x y out
        exact (setSize_same out).trans (setNext_same out)
    · refine ⟨h, c :: B, separate ?_ row⟩
      intro b mem
      rcases List.mem_cons.mp mem with rfl | mem
      · omega
      · have := above' b mem
        simp only [Block.fin] at *
        omega

/-- The blocks in use stay as they are. -/
def Kept (live : List Block) (m m' : Mem) : Prop := ∀ b ∈ live, Same b.addr b.fin m m'

/-- Only in a block and in the header of the node in front of it is anything written. -/
def Local (h : Block) (prev : Nat) (m m' : Mem) : Prop :=
  ∀ x y, (y ≤ h.addr ∨ h.fin ≤ x) → (y ≤ prev ∨ prev + 16 ≤ x) → Same x y m m'

/-- The other nodes keep their headers. -/
theorem Local.others (local' : Local h (lastNode base A) m m') {top x : Nat}
    (layout : Layout base top (A ++ B) live) (low : base + 16 ≤ h.addr)
    (apart : ∀ c ∈ A ++ B, h.Apart c)
    (mem : x ∈ (nodes base A).dropLast ∨ x ∈ B.map Block.addr) : Same x (x + 16) m m' := by
  have headers := layout.headers
  have split : nodes base (A ++ B) =
      ((nodes base A).dropLast ++ [lastNode base A]) ++ B.map Block.addr := by
    rw [← nodes_last, nodes_append]
  have node : x ∈ nodes base (A ++ B) := by
    rw [split]
    simp only [List.mem_append]
    tauto
  have away := layout.beside low apart node
  apply local' x (x + 16) (by omega)
  rw [split] at headers
  obtain ⟨first, -, across⟩ := List.pairwise_append.mp headers
  rcases mem with mem | mem
  · have := (List.pairwise_append.mp first).2.2 x mem _ (List.mem_singleton_self _)
    exact .inl this
  · have := across (lastNode base A) (List.mem_append_right _ (List.mem_singleton_self _)) x mem
    exact .inr this

theorem Local.kept (local' : Local h (lastNode base A) m m') {top : Nat}
    (layout : Layout base top (A ++ B) live) (apart : ∀ b ∈ live, b.Apart h) :
    Kept live m m' := by
  intro b used
  have node : lastNode base A ∈ nodes base (A ++ B) := by
    rw [nodes_append]
    exact List.mem_append_left _ (lastNode_mem base A)
  have beside := layout.beside_live used node
  have away := apart b used
  apply local'
  · exact away
  · exact beside

theorem Kept.header (kept : Kept live m m') {b : Block} (used : b ∈ live) (some : 0 < b.size) :
    size m' b.addr = size m b.addr := by
  apply size_same
  apply (kept b used).within (Nat.le_refl _)
  rw [Block.fin]
  omega

/-- The node in front of a place keeps its size, or it is a block and gets another one. -/
def Front (base : Nat) (m m' : Mem) (A A' : List Block) : Prop :=
  A' = A ∧ size m' (lastNode base A) = size m (lastNode base A) ∨
    ∃ A₀ p n, A = A₀ ++ [p] ∧ A' = A₀ ++ [⟨p.addr, n⟩] ∧ size m' p.addr = n

section
variable {A' : List Block} (front : Front base m m' A A')
include front

theorem Front.addrs : A'.map Block.addr = A.map Block.addr := by
  rcases front with ⟨rfl, -⟩ | ⟨A, p, n, rfl, rfl, -⟩
  · rfl
  · simp

theorem Front.head (before : ∀ x ∈ (nodes base A).dropLast, size m' x = size m x)
    (head : size m base = 0) : size m' base = 0 := by
  rcases List.eq_nil_or_concat A with rfl | ⟨A₀, p, rfl⟩
  · rcases front with ⟨-, same⟩ | ⟨A, p, n, nil, -⟩
    · exact same.trans head
    · simp at nil
  · rw [before base, head]
    rw [List.concat_eq_append, nodes_append, List.map_singleton, List.dropLast_concat]
    exact List.mem_cons_self

theorem Front.sizes (before : ∀ x ∈ (nodes base A).dropLast, size m' x = size m x)
    (sizes : ∀ a ∈ A, size m a.addr = a.size) : ∀ a ∈ A', size m' a.addr = a.size := by
  intro a mem
  rcases front with ⟨rfl, same⟩ | ⟨A, p, n, rfl, rfl, here⟩
  · rw [← sizes a mem]
    have node : a.addr ∈ nodes base A' := List.mem_cons_of_mem _ (List.mem_map_of_mem mem)
    rw [nodes_last] at node
    rcases List.mem_append.mp node with node | node
    · exact before a.addr node
    · rw [List.mem_singleton.mp node, same]
  · rcases List.mem_append.mp mem with mem | mem
    · rw [← sizes a (List.mem_append_left _ mem)]
      apply before
      rw [nodes_append, List.map_singleton, List.dropLast_concat]
      exact List.mem_cons_of_mem _ (List.mem_map_of_mem mem)
    · rw [List.mem_singleton.mp mem]
      exact here

end

/-- The ring and the headers after a change at a place of the list, where the blocks `M` are replaced
by `N`. -/
theorem Shown.splice {M N A' live' : List Block} {top : Nat}
    (shown : Shown m base (A ++ (M ++ B)) live) (local' : Local h (lastNode base A) m m')
    (layout : Layout base top (A ++ B) live) (low : base + 16 ≤ h.addr)
    (apart : ∀ c ∈ A ++ B, h.Apart c) (front : Front base m m' A A')
    (links : Walk (next m') (next m' (lastNode base A)) (N.map Block.addr) (firstNode base B))
    (sizes : ∀ b, b ∈ N ∨ b ∈ live' → size m' b.addr = b.size) :
    Shown m' base (A' ++ (N ++ B)) live' := by
  have others {x : Nat} (mem : x ∈ (nodes base A).dropLast ∨ x ∈ B.map Block.addr) :=
    local'.others layout low apart mem
  have before : ∀ x ∈ (nodes base A).dropLast, size m' x = size m x :=
    fun x mem => size_same (others (.inl mem))
  constructor
  · have ring := shown.ring
    rw [nodes_append, List.map_append] at ring
    have same : nodes base (A' ++ (N ++ B)) =
        nodes base A ++ (N.map Block.addr ++ B.map Block.addr) := by
      rw [nodes_append, List.map_append, nodes, front.addrs]
      rfl
    rw [same]
    apply ring_splice ring
    · intro x mem
      exact next_same (others (.inl mem))
    · intro b mem
      exact next_same (others (.inr (List.mem_map_of_mem mem)))
    · exact links
  · exact front.head before shown.head
  · intro b mem
    simp only [List.mem_append] at mem
    rcases mem with (mem | mem | mem) | mem
    · apply front.sizes before ?_ b mem
      intro a old
      exact shown.sizes a (.inl (List.mem_append_left _ old))
    · exact sizes b (.inl mem)
    · rw [size_same (others (.inr (List.mem_map_of_mem mem)))]
      exact shown.sizes b (.inl (by simp [mem]))
    · exact sizes b (.inr mem)

/-! ## `free` -/

section
variable {g : Block} {B' : List Block}

/-- The joined block is spare, too. -/
theorem JoinedNext.spare (joined : JoinedNext base s.mem m B h g B')
    (heap : Heap base (A ++ B) live s) (spare : Spare base s.heap (A ++ B) live h) :
    (∀ b ∈ live, b.Apart g) ∧ base + 16 ≤ g.addr ∧ 0 < g.size ∧ g.fin ≤ s.heap := by
  have inside := spare.inside
  rcases joined.rest with ⟨rfl, rfl⟩ | ⟨c, rfl, row, rfl⟩
  · exact ⟨fun b used => (spare.live b used).symm, inside⟩
  · have within := heap.layout.inside c (.inl (by simp))
    refine ⟨fun b used => ?_, inside.1, by dsimp only; omega, ?_⟩
    · have some := (heap.layout.inside b (.inr used)).2.1
      have away := heap.layout.separate b used c (by simp)
      exact (spare.live b used).symm.join away row some
    · simp only [Block.fin] at row within ⊢
      omega

/-- The blocks that stay in the list. -/
theorem JoinedNext.sublist (joined : JoinedNext base m m' B h g B') :
    ∃ M, B = M ++ B' := by
  rcases joined.rest with ⟨rfl, -⟩ | ⟨c, rfl, -⟩
  · exact ⟨[], rfl⟩
  · exact ⟨[c], rfl⟩

theorem Layout.sublist {top : Nat} {frees' : List Block} (layout : Layout base top frees live)
    (less : frees'.Sublist frees) : Layout base top frees' live where
  order := layout.order.sublist less
  separate b used c free := layout.separate b used c (less.subset free)
  apart := layout.apart
  inside := by
    rintro b (free | used)
    · exact layout.inside b (.inl (less.subset free))
    · exact layout.inside b (.inr used)

/-- A list with a block put into it, of which only the block and the header in front of it were
written. -/
structure Put (base : Nat) (live : List Block) (h : Block) (prev : Nat) (s : State)
    (old : List Block) (m : Mem) (frees : List Block) : Prop where
  layout : Layout base s.heap frees live
  shown : Shown m base frees live
  place : prev ∈ nodes base frees
  big : ∃ c ∈ frees, h.size ≤ c.size
  written : Local h prev s.mem m
  count : frees.length ≤ old.length + 1

theorem JoinedNext.outside {m₀ : Mem} (joined : JoinedNext base m₀ m B h g B') (some : 0 < h.size)
    {x y : Nat} (out : y ≤ h.addr ∨ h.fin ≤ x) : Same x y m₀ m := by
  apply joined.frame
  rw [Block.fin] at out
  omega

section
variable (heap : Heap base (A ++ B) live s) (spare : Spare base s.heap (A ++ B) live h)
  (joined : JoinedNext base s.mem m B h g B')
include heap spare joined

theorem JoinedNext.less :
    Layout base s.heap (A ++ B') live ∧ (∀ c ∈ A ++ B', h.Apart c) ∧
      (A ++ B').Sublist (A ++ B) := by
  obtain ⟨M, rest⟩ := joined.sublist
  have less : (A ++ B').Sublist (A ++ B) := by
    rw [rest]
    exact (List.sublist_append_right M B').append_left A
  exact ⟨heap.layout.sublist less, fun c mem => spare.frees c (less.subset mem), less⟩

theorem JoinedNext.away : h.fin ≤ lastNode base A ∨ lastNode base A + 16 ≤ h.addr := by
  obtain ⟨layout, apart, -⟩ := joined.less heap spare
  apply layout.beside spare.inside.1 apart
  rw [nodes_append]
  exact List.mem_append_left _ (lastNode_mem base A)

theorem JoinedNext.sizes (written : Local h (lastNode base A) s.mem m') :
    ∀ b ∈ live, size m' b.addr = b.size := by
  obtain ⟨layout, -, -⟩ := joined.less heap spare
  intro b used
  have kept := written.kept layout fun b used => (spare.live b used).symm
  rw [kept.header used (heap.layout.inside b (.inr used)).2.1]
  exact heap.shown.sizes b (.inr used)

theorem JoinedNext.size_lastNode : size m (lastNode base A) = size s.mem (lastNode base A) := by
  have away := joined.away heap spare
  exact size_same (joined.outside spare.inside.2.1 away.symm)

end

/-- The block in front grows. -/
theorem joinPrev_row {p : Block} (heap : Heap base (A ++ [p] ++ B) live s)
    (spare : Spare base s.heap (A ++ [p] ++ B) live h)
    (joined : JoinedNext base s.mem m B h g B') (row : p.fin = h.addr) :
    Put base live h p.addr s (A ++ [p] ++ B) (joinPrev m h.addr p.addr)
      (A ++ ⟨p.addr, p.size + g.size⟩ :: B') := by
  obtain ⟨apartG, lowG, someG, highG⟩ := joined.spare heap spare
  obtain ⟨addrG, grown⟩ := joined.addr
  obtain ⟨layout, apart, less⟩ := joined.less heap spare
  have inside := spare.inside
  have bound := heap.bounds
  have old := joined.size_lastNode heap spare
  rw [lastNode_concat, heap.shown.sizes p (.inl (by simp))] at old
  have fits : p.size + g.size < space := by
    simp only [Block.fin] at highG row
    omega
  have same : joinPrev m h.addr p.addr =
      setNext (setSize m p.addr (p.size + g.size)) p.addr (firstNode base B') := by
    have away : p.addr + 16 ≤ h.addr := by
      have := (heap.layout.inside p (.inl (by simp))).2.1
      rw [Block.fin] at row
      omega
    rw [joinPrev, old, joined.shows]
    dsimp only
    rw [next_setSize (.inr (.inl away)), joined.links]
    exact if_pos row
  have written : Local h (lastNode base (A ++ [p])) s.mem (joinPrev m h.addr p.addr) := by
    intro x y out out'
    rw [lastNode_concat] at out'
    rw [same]
    exact (joined.outside spare.inside.2.1 out).trans ((setSize_same out').trans (setNext_same out'))
  have front : Front base s.mem (joinPrev m h.addr p.addr) (A ++ [p])
      (A ++ [⟨p.addr, p.size + g.size⟩]) := by
    refine .inr ⟨A, p, p.size + g.size, rfl, rfl, ?_⟩
    rw [same, size_setNext (.inl rfl), size_setSize fits]
  constructor
  · apply heap.layout.insert
    · apply List.Sublist.trans _ less
      rw [List.append_assoc]
      exact (List.sublist_append_right [p] B').append_left A
    · intro a mem
      have order := (List.pairwise_append.mp (List.pairwise_append.mp heap.layout.order).1).2.2
      exact order a mem p (List.mem_singleton_self p)
    · intro b mem
      have := joined.behind b mem
      simp only [Block.fin] at this row ⊢
      omega
    · intro b used
      have away := heap.layout.separate b used p (by simp)
      apply Block.Apart.join away (apartG b used)
      · rw [addrG]
        exact row
      · exact (heap.layout.inside b (.inr used)).2.1
    · have within := heap.layout.inside p (.inl (by simp))
      simp only [Block.fin] at within row highG ⊢
      omega
  · obtain ⟨M, rest⟩ := joined.sublist
    have shown : Shown s.mem base (A ++ [p] ++ (M ++ B')) live := rest ▸ heap.shown
    have ring : Shown (joinPrev m h.addr p.addr) base
        (A ++ [⟨p.addr, p.size + g.size⟩] ++ ([] ++ B')) live := by
      apply shown.splice written layout inside.1 apart front
      · rw [lastNode_concat, same]
        exact next_setNext (firstNode_lt layout bound.2)
      · rintro b (mem | used)
        · cases mem
        · exact joined.sizes heap spare written b used
    rwa [List.nil_append, List.append_assoc] at ring
  · simp [nodes]
  · refine ⟨⟨p.addr, p.size + g.size⟩, by simp, ?_⟩
    dsimp only
    omega
  · rwa [lastNode_concat] at written
  · have shorter := less.length_le
    simp only [List.length_append, List.length_cons, List.length_nil] at shorter ⊢
    omega

/-- The block becomes a node of its own. -/
theorem joinPrev_apart (heap : Heap base (A ++ B) live s)
    (spare : Spare base s.heap (A ++ B) live h) (joined : JoinedNext base s.mem m B h g B')
    (before : ∀ a ∈ A, a.fin < h.addr)
    (off : lastNode base A + sizeofHeader * size m (lastNode base A) ≠ h.addr) :
    Put base live h (lastNode base A) s (A ++ B) (joinPrev m h.addr (lastNode base A))
      (A ++ g :: B') := by
  obtain ⟨apartG, lowG, someG, highG⟩ := joined.spare heap spare
  obtain ⟨addrG, grown⟩ := joined.addr
  obtain ⟨layout, apart, less⟩ := joined.less heap spare
  have inside := spare.inside
  have bound := heap.bounds
  have away := joined.away heap spare
  have same : joinPrev m h.addr (lastNode base A) = setNext m (lastNode base A) h.addr :=
    if_neg off
  have written : Local h (lastNode base A) s.mem (joinPrev m h.addr (lastNode base A)) := by
    intro x y out out'
    rw [same]
    exact (joined.outside spare.inside.2.1 out).trans (setNext_same out')
  constructor
  · apply heap.layout.insert less
    · rw [addrG]
      exact before
    · exact joined.behind
    · exact apartG
    · exact ⟨lowG, someG, highG⟩
  · obtain ⟨M, rest⟩ := joined.sublist
    have shown : Shown s.mem base (A ++ (M ++ B')) live := rest ▸ heap.shown
    have away' : lastNode base A + 16 ≤ h.addr ∨ h.addr + 16 ≤ lastNode base A := by
      rw [Block.fin] at away
      omega
    have front : Front base s.mem (joinPrev m h.addr (lastNode base A)) A A := by
      refine .inl ⟨rfl, ?_⟩
      rw [same, size_setNext (.inl rfl)]
      exact joined.size_lastNode heap spare
    apply shown.splice (N := [g]) written layout inside.1 apart front
    · rw [same, List.map_singleton, addrG, next_setNext (by rw [Block.fin] at highG; omega)]
      refine ⟨rfl, ?_⟩
      rw [next_setNext_ne away', joined.links]
      rfl
    · rintro b (mem | used)
      · rw [List.mem_singleton.mp mem, same, addrG, size_setNext (.inr away')]
        exact joined.shows
      · exact joined.sizes heap spare written b used
  · rw [nodes_append]
    exact List.mem_append_left _ (lastNode_mem base A)
  · exact ⟨g, by simp, grown⟩
  · exact written
  · have shorter := less.length_le
    simp only [List.length_append, List.length_cons] at shorter ⊢
    omega

end

theorem joinPrev_spec (heap : Heap base (A ++ B) live s)
    (spare : Spare base s.heap (A ++ B) live h) (below : ∀ a ∈ A, a.addr < h.addr)
    {g : Block} {B' : List Block} (joined : JoinedNext base s.mem m B h g B') :
    ∃ frees', Put base live h (lastNode base A) s (A ++ B)
      (joinPrev m h.addr (lastNode base A)) frees' := by
  have old := joined.size_lastNode heap spare
  rcases List.eq_nil_or_concat A with rfl | ⟨A, p, rfl⟩
  · refine ⟨g :: B', joinPrev_apart heap spare joined (by simp) ?_⟩
    have inside := spare.inside
    rw [old, lastNode_nil, heap.shown.head]
    omega
  · rw [List.concat_eq_append] at *
    have sizeP := heap.shown.sizes p (.inl (by simp))
    rw [lastNode_concat, sizeP] at old
    rw [lastNode_concat]
    by_cases row : p.fin = h.addr
    · exact ⟨_, joinPrev_row heap spare joined row⟩
    · have last : p.fin < h.addr := by
        have away := spare.frees p (by simp)
        have under := below p (by simp)
        have some := spare.inside.2.1
        simp only [Block.Apart, Block.fin] at *
        omega
      have before : ∀ a ∈ A ++ [p], a.fin < h.addr := by
        intro a mem
        rcases List.mem_append.mp mem with mem | mem
        · have order := (List.pairwise_append.mp (List.pairwise_append.mp heap.layout.order).1).2.2
          have := order a mem p (List.mem_singleton_self p)
          simp only [Block.fin] at *
          omega
        · rw [List.mem_singleton.mp mem]
          exact last
      have put := joinPrev_apart heap spare joined before
      rw [lastNode_concat, old] at put
      exact ⟨_, put row⟩

theorem free_spec (heap : Heap base frees live s) (spare : Spare base s.heap frees live h)
    (shown : size s.mem h.addr = h.size) :
    ∃ t frees', free (h.addr + sizeofHeader) s = some t ∧ Heap base frees' live t ∧
      t.heap = s.heap ∧ t.live = s.live ∧ Kept live s.mem t.mem ∧
      (∃ c ∈ frees', h.size ≤ c.size) ∧ frees'.length ≤ frees.length + 1 := by
  have inside := spare.inside
  have other : ∀ b ∈ frees, b.addr ≠ h.addr := by
    intro b free
    have away := spare.frees b free
    have some := (heap.layout.inside b (.inl free)).2.1
    simp only [Block.Apart, Block.fin] at away
    omega
  obtain ⟨A, B, rfl, below, above, found⟩ := prevchunk_spec heap (by omega) other
  obtain ⟨g, B', joined⟩ := joinNext_spec heap spare shown above
  obtain ⟨frees', put⟩ := joinPrev_spec heap spare below joined
  have ran : free (h.addr + sizeofHeader) s = some { s with
      mem := joinPrev (joinNext s.mem h.addr (firstNode base B)) h.addr (lastNode base A)
      freep := lastNode base A } := by
    have some : h.addr + sizeofHeader ≠ 0 := by
      rw [sizeofHeader]
      omega
    rw [free, if_neg some, Nat.add_sub_cancel]
    dsimp only
    rw [found, ← next_lastNode heap.shown.ring]
    rfl
  have kept := put.written.kept heap.layout fun b used => (spare.live b used).symm
  generalize joinPrev (joinNext s.mem h.addr (firstNode base B)) h.addr (lastNode base A) = m
    at ran put kept
  exact ⟨_, frees', ran, ⟨put.layout, put.shown, put.place, heap.bounds⟩, rfl, rfl, kept, put.big,
    put.count⟩

end Scc.Libc.Stdlib
