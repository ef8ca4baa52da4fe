import Scc.Memory.Walk
import Scc.Memory.Word

set_option linter.all false

/-! `malloc`, `free` and `realloc` (stdlib/malloc.c and realloc.c), with headers of 16 bytes
that hold a pointer and a `size_t` of 8 bytes each. -/
namespace Scc.Libc.Stdlib
open Memory

/-- The end of the address space, one more than `SIZE_MAX`. -/
def space : Nat := 256 ^ 8

def SIZE_MAX : Nat := space - 1

def sizeofHeader : Nat := 16

/-- Least number of units that are asked of the system. -/
def NALLOC : Nat := 16

/-! The fields of a header. -/

def next (m : Mem) (hp : Nat) : Nat := load 8 m hp

def size (m : Mem) (hp : Nat) : Nat := load 8 m (hp + 8)

def setNext (m : Mem) (hp v : Nat) : Mem := store 8 m hp v

def setSize (m : Mem) (hp v : Nat) : Mem := store 8 m (hp + 8) v

/-- The memory, the variable `_freep`, the variable `heap` of `sbrk`, where what the system
granted ends, and the blocks that callers hold: each pointer with the bytes asked for. -/
structure State where
  mem : Mem
  freep : Nat
  heap : Nat
  live : List (Nat × Nat)

/-- The loops run for at most so many rounds: there are no more blocks than bytes. -/
def State.rounds (s : State) : Nat := 2 * s.heap + 4

/-- Where the loop of `_prevchunk` stops. -/
def between (m : Mem) (hp p : Nat) : Bool :=
  (p < hp && hp < next m p) || (next m p ≤ p && (hp < next m p || hp > p))

def prevchunk (s : State) (hp : Nat) : Option Nat :=
  search (next s.mem) (between s.mem hp) s.rounds s.freep

def joinNext (m : Mem) (hp next' : Nat) : Mem :=
  if hp + sizeofHeader * size m hp = next' then
    let m := setSize m hp (size m hp + size m next')
    setNext m hp (next m next')
  else setNext m hp next'

def joinPrev (m : Mem) (hp prev : Nat) : Mem :=
  if prev + sizeofHeader * size m prev = hp then
    let m := setSize m prev (size m prev + size m hp)
    setNext m prev (next m hp)
  else setNext m prev hp

/-- None when the loop of `_prevchunk` does not end. -/
def free (ptr : Nat) (s : State) : Option State :=
  if ptr = 0 then some s
  else do
    let hp := ptr - sizeofHeader
    let prev ← prevchunk s hp
    let m := joinNext s.mem hp (next s.mem prev)
    some { s with mem := joinPrev m hp prev, freep := prev }

/-- `sbrk` is asked for a number of bytes when the heap ends somewhere. -/
abbrev Sbrk := Nat → Nat → Option Nat

def morecore (sbrk : Sbrk) (nunits : Nat) (s : State) : Option (Nat × State) :=
  let nunits := if nunits < NALLOC then NALLOC else nunits
  let inc := nunits * sizeofHeader % space
  match sbrk s.heap inc with
  | none => some (0, s)
  | some hp => do
    let s ← free (hp + sizeofHeader) { s with mem := setSize s.mem hp nunits, heap := hp + inc }
    some (s.freep, s)

/-- What `malloc` does with a block that is big enough. -/
def take (nunits prev cur : Nat) (s : State) : Nat × State :=
  if size s.mem cur = nunits then
    let m := setNext s.mem prev (next s.mem cur)
    (cur + sizeofHeader, { s with mem := setNext m cur 0, freep := prev })
  else
    let m := setSize s.mem cur (size s.mem cur - nunits)
    let cur := cur + sizeofHeader * size m cur
    let m := setSize m cur nunits
    (cur + sizeofHeader, { s with mem := setNext m cur 0, freep := prev })

/-- The loop of `malloc`. -/
def findfit (sbrk : Sbrk) (nunits : Nat) : Nat → Nat → State → Option (Nat × State)
  | 0, _, _ => none
  | n + 1, prev, s =>
    let cur := next s.mem prev
    if nunits ≤ size s.mem cur then some (take nunits prev cur s)
    else if cur = s.freep then do
      let (cur, s) ← morecore sbrk nunits s
      if cur = 0 then some (0, s) else findfit sbrk nunits n cur s
    else findfit sbrk nunits n cur s

/-- One unit for the header and enough for the bytes. -/
def units (nbytes : Nat) : Nat := (nbytes + sizeofHeader - 1) / sizeofHeader + 1

def malloc (sbrk : Sbrk) (nbytes : Nat) (s : State) : Option (Nat × State) :=
  if nbytes = 0 ∨ nbytes > SIZE_MAX - sizeofHeader - 1 then some (0, s)
  else findfit sbrk (units nbytes) s.rounds s.freep s

/-- `realloc` with free space next to the block, when there is enough of it. -/
def grow (nunits oh prev next' : Nat) (s : State) : Option State :=
  if oh + sizeofHeader * size s.mem oh = next' then
    let avail := size s.mem oh + size s.mem next'
    if avail = nunits then
      let m := setSize s.mem oh nunits
      some { s with mem := setNext m prev (next m next'), freep := prev }
    else if nunits < avail then
      let new := oh + sizeofHeader * nunits
      let m := setNext (setSize s.mem oh nunits) prev new
      let m := setNext m new (next m next')
      some { s with mem := setSize m new (avail - nunits), freep := new }
    else none
  else none

/-- `realloc` by a new block. -/
def move (sbrk : Sbrk) (ptr nbytes : Nat) (s : State) : Option (Nat × State) := do
  let (new, s) ← malloc sbrk nbytes s
  if new = 0 then some (0, s)
  else do
    let n := (size s.mem (ptr - sizeofHeader) - 1) * sizeofHeader
    let n := if n > nbytes then nbytes else n
    let s ← free ptr { s with mem := copy s.mem new ptr n }
    some (new, s)

def realloc (sbrk : Sbrk) (ptr nbytes : Nat) (s : State) : Option (Nat × State) :=
  if nbytes = 0 ∨ nbytes > SIZE_MAX - sizeofHeader - 1 then some (0, s)
  else if ptr = 0 then malloc sbrk nbytes s
  else
    let nunits := units nbytes
    let oh := ptr - sizeofHeader
    if size s.mem oh = nunits then some (ptr, s)
    else if nunits < size s.mem oh then do
      let new := oh + sizeofHeader * nunits
      let m := setSize s.mem new (size s.mem oh - nunits)
      let s ← free (new + sizeofHeader) { s with mem := setSize m oh nunits }
      some (ptr, s)
    else do
      let prev ← prevchunk s oh
      match grow nunits oh prev (next s.mem prev) s with
      | some s => some (ptr, s)
      | none => move sbrk ptr nbytes s

/-! What callers do. -/

inductive Call where
  | malloc (nbytes : Nat) (sbrk : Sbrk)
  | free (ptr : Nat)
  | realloc (ptr nbytes : Nat) (sbrk : Sbrk)
  | write (addr : Nat) (byte : UInt8)

def step : Call → State → Option State
  | .malloc nbytes sbrk, s => do
    let (new, s) ← malloc sbrk nbytes s
    some { s with live := if new = 0 then s.live else (new, nbytes) :: s.live }
  | .free ptr, s => do
    let s ← free ptr s
    some { s with live := s.live.filter (·.1 ≠ ptr) }
  | .realloc ptr nbytes sbrk, s => do
    let (new, s) ← realloc sbrk ptr nbytes s
    some { s with
      live := if new = 0 then s.live else (new, nbytes) :: s.live.filter (·.1 ≠ ptr) }
  | .write addr byte, s => some { s with mem := Function.update s.mem addr byte }

/-- Where `sbrk` succeeds it grants fresh bytes above the heap. -/
def Sbrk.Valid (sbrk : Sbrk) : Prop :=
  ∀ heap inc hp, sbrk heap inc = some hp → heap ≤ hp ∧ hp + inc < space

/-- The units of a request can be counted in bytes. -/
def Fits (nbytes : Nat) : Prop := units nbytes * sizeofHeader < space

def Held (s : State) (ptr : Nat) : Prop := ∃ nbytes, (ptr, nbytes) ∈ s.live

/-- Callers pass pointers they hold, and write in the bytes they asked for. -/
def Call.Valid (s : State) : Call → Prop
  | .malloc nbytes sbrk => Fits nbytes ∧ sbrk.Valid
  | .free ptr => ptr = 0 ∨ Held s ptr
  | .realloc ptr nbytes sbrk => (ptr = 0 ∨ Held s ptr) ∧ Fits nbytes ∧ sbrk.Valid
  | .write addr _ => ∃ e ∈ s.live, e.1 ≤ addr ∧ addr < e.1 + e.2

/-- The list is the header `base` alone, which links to itself and has no units. -/
def initial (base : Nat) (m : Mem) : State where
  mem := setSize (setNext m base base) base 0
  freep := base
  heap := base + sizeofHeader
  live := []

inductive Run : State → State → Prop where
  | refl (s : State) : Run s s
  | next {s t u : State} {c : Call} : c.Valid s → step c s = some t → Run t u → Run s u

/-! The free list as a list of blocks, and what `free` and `malloc` make of it. -/

/-! Headers in memory. -/

section
variable {m : Mem} {a b c v : Nat}

theorem next_setNext (fits : v < space) : next (setNext m a v) a = v :=
  (load_store 8).trans (Nat.mod_eq_of_lt fits)

theorem size_setSize (fits : v < space) : size (setSize m a v) a = v :=
  (load_store 8).trans (Nat.mod_eq_of_lt fits)

theorem next_setNext_ne (apart : a + 16 ≤ b ∨ b + 16 ≤ a) :
    next (setNext m a v) b = next m b :=
  load_store_apart 8 8 (by omega)

theorem size_setSize_ne (apart : a + 16 ≤ b ∨ b + 16 ≤ a) :
    size (setSize m a v) b = size m b :=
  load_store_apart 8 8 (by omega)

theorem size_setNext (apart : a = b ∨ a + 16 ≤ b ∨ b + 16 ≤ a) :
    size (setNext m a v) b = size m b :=
  load_store_apart 8 8 (by omega)

theorem next_setSize (apart : a = b ∨ a + 16 ≤ b ∨ b + 16 ≤ a) :
    next (setSize m a v) b = next m b :=
  load_store_apart 8 8 (by omega)

theorem setNext_same (out : c ≤ a ∨ a + 16 ≤ b) : Same b c m (setNext m a v) :=
  store_same 8 (by omega)

theorem setSize_same (out : c ≤ a ∨ a + 16 ≤ b) : Same b c m (setSize m a v) :=
  store_same 8 (by omega)

theorem next_same {m' : Mem} (same : Same a (a + 16) m m') : next m' a = next m a :=
  load_congr 8 (same.within (by omega) (by omega))

theorem size_same {m' : Mem} (same : Same a (a + 16) m m') : size m' a = size m a :=
  load_congr 8 (same.within (by omega) (by omega))

end

/-! Blocks. -/

structure Block where
  addr : Nat
  size : Nat

def Block.fin (b : Block) : Nat := b.addr + 16 * b.size

def Block.Apart (b c : Block) : Prop := b.fin ≤ c.addr ∨ c.fin ≤ b.addr

theorem Block.Apart.symm {b c : Block} (h : b.Apart c) : c.Apart b := Or.symm h

/-- What lies apart from two blocks in a row lies apart from the block they make. -/
theorem Block.Apart.join {b h c : Block} (first : b.Apart h) (second : b.Apart c)
    (row : h.fin = c.addr) (some : 0 < b.size) : b.Apart ⟨h.addr, h.size + c.size⟩ := by
  simp only [Block.Apart, Block.fin] at *
  omega

/-- Free blocks in the order of their addresses, none next to another, and blocks in use. -/
structure Layout (base top : Nat) (frees live : List Block) : Prop where
  order : frees.Pairwise fun b c => b.fin < c.addr
  separate : ∀ b ∈ live, ∀ c ∈ frees, b.Apart c
  apart : ∀ b ∈ live, ∀ c ∈ live, b.addr ≠ c.addr → b.Apart c
  inside : ∀ b, b ∈ frees ∨ b ∈ live → base + 16 ≤ b.addr ∧ 0 < b.size ∧ b.fin ≤ top

/-- The nodes of the free list. -/
def nodes (base : Nat) (frees : List Block) : List Nat := base :: frees.map Block.addr

/-- The headers describe the blocks, and link the free ones in a ring. -/
structure Shown (m : Mem) (base : Nat) (frees live : List Block) : Prop where
  ring : Walk (next m) base (nodes base frees) base
  head : size m base = 0
  sizes : ∀ b, b ∈ frees ∨ b ∈ live → size m b.addr = b.size

/-- The invariant of the heap. -/
structure Heap (base : Nat) (frees live : List Block) (s : State) : Prop where
  layout : Layout base s.heap frees live
  shown : Shown s.mem base frees live
  freep : s.freep ∈ nodes base frees
  bounds : 0 < base ∧ base + 16 ≤ s.heap ∧ s.heap < space

/-- A block of the heap that is neither free nor in use. -/
structure Spare (base top : Nat) (frees live : List Block) (h : Block) : Prop where
  live : ∀ b ∈ live, h.Apart b
  frees : ∀ b ∈ frees, h.Apart b
  inside : base + 16 ≤ h.addr ∧ 0 < h.size ∧ h.fin ≤ top

section
variable {base top : Nat} {frees live A B : List Block} {h : Block} {s : State}

theorem Layout.ascending (layout : Layout base top frees live) :
    (nodes base frees).Pairwise (· < ·) := by
  rw [nodes, List.pairwise_cons]
  constructor
  · intro a mem
    obtain ⟨b, free, rfl⟩ := List.mem_map.mp mem
    have := (layout.inside b (.inl free)).1
    omega
  · rw [List.pairwise_map]
    refine layout.order.imp_of_mem ?_
    intro b c _ _ before
    simp only [Block.fin] at before
    omega

/-- The free blocks below and above an address. -/
theorem split_at (order : frees.Pairwise fun b c => b.fin < c.addr) (hp : Nat) :
    ∃ A B, frees = A ++ B ∧ (∀ a ∈ A, a.addr < hp) ∧ ∀ b ∈ B, hp ≤ b.addr := by
  induction frees with
  | nil => exact ⟨[], [], rfl, by simp, by simp⟩
  | cons c frees ih =>
    obtain ⟨first, order⟩ := List.pairwise_cons.mp order
    by_cases below : c.addr < hp
    · obtain ⟨A, B, rfl, low, high⟩ := ih order
      refine ⟨c :: A, B, rfl, ?_, high⟩
      intro a mem
      rcases List.mem_cons.mp mem with rfl | mem
      · exact below
      · exact low a mem
    · refine ⟨[], c :: frees, rfl, by simp, ?_⟩
      intro b mem
      rcases List.mem_cons.mp mem with rfl | mem
      · omega
      · have := first b mem
        simp only [Block.fin] at this
        omega

theorem nodes_append : nodes base (A ++ B) = nodes base A ++ B.map Block.addr := by
  simp [nodes]

end

/-! Places between the nodes. -/

/-- The node in front of a place. -/
def lastNode (base : Nat) (A : List Block) : Nat := (A.getLast?.map Block.addr).getD base

/-- The node behind a place, which is the head at the end of the list. -/
def firstNode (base : Nat) : List Block → Nat
  | [] => base
  | b :: _ => b.addr

section
variable {base : Nat} {A B : List Block} {p : Block}

@[simp] theorem lastNode_nil : lastNode base [] = base := rfl

@[simp] theorem lastNode_concat : lastNode base (A ++ [p]) = p.addr := by
  simp [lastNode]

theorem nodes_last (base : Nat) (A : List Block) :
    nodes base A = (nodes base A).dropLast ++ [lastNode base A] := by
  rcases List.eq_nil_or_concat A with rfl | ⟨A, p, rfl⟩
  · rfl
  · rw [List.concat_eq_append, lastNode_concat, nodes_append, List.map_singleton,
      List.dropLast_concat]

theorem lastNode_mem (base : Nat) (A : List Block) : lastNode base A ∈ nodes base A := by
  rw [nodes_last]
  exact List.mem_append_right _ (List.mem_singleton_self _)

/-- A node with what comes before and behind it. -/
theorem nodes_split {frees : List Block} {before after : List Nat} {x : Nat}
    (split : nodes base frees = before ++ x :: after) :
    ∃ A B, frees = A ++ B ∧ nodes base A = before ++ [x] ∧ B.map Block.addr = after := by
  cases before with
  | nil =>
    obtain ⟨rfl, rest⟩ := List.cons.inj split
    exact ⟨[], frees, rfl, rfl, rest⟩
  | cons y before =>
    obtain ⟨rfl, rest⟩ := List.cons.inj split
    obtain ⟨A, B, rfl, first, second⟩ := List.map_eq_append_iff.mp rest
    obtain ⟨p, B, rfl, rfl, rfl⟩ := List.map_eq_cons_iff.mp second
    refine ⟨A ++ [p], B, by simp, ?_, rfl⟩
    simp [nodes, first]

theorem lastNode_eq {before : List Nat} {x : Nat} (split : nodes base A = before ++ [x]) :
    lastNode base A = x := by
  rw [nodes_last] at split
  exact (List.append_inj' split rfl).2 |> List.singleton_inj.mp

variable {next next' : Nat → Nat}

/-- What the node in front of a place links to. -/
theorem next_lastNode (ring : Walk next base (nodes base (A ++ B)) base) :
    next (lastNode base A) = firstNode base B := by
  rw [nodes_append, nodes_last, List.append_assoc] at ring
  cases B with
  | nil => exact (Walk.concat_iff.mp ring).2
  | cons b B => exact ring.next_eq

/-- A ring with other nodes at a place. -/
theorem ring_splice {M M' : List Nat}
    (ring : Walk next base (nodes base A ++ (M ++ B.map Block.addr)) base)
    (before : ∀ x ∈ (nodes base A).dropLast, next' x = next x)
    (behind : ∀ b ∈ B, next' b.addr = next b.addr)
    (links : Walk next' (next' (lastNode base A)) M' (firstNode base B)) :
    Walk next' base (nodes base A ++ (M' ++ B.map Block.addr)) base := by
  obtain ⟨c, first, rest⟩ := Walk.append_iff.mp ring
  obtain ⟨d, -, last⟩ := Walk.append_iff.mp rest
  have first' : Walk next' base (nodes base A) (next' (lastNode base A)) := by
    rw [nodes_last base A] at first
    have moved := first.relink before
    rwa [← nodes_last] at moved
  have last' : Walk next' (firstNode base B) (B.map Block.addr) base := by
    have start : d = firstNode base B := by
      cases B with
      | nil => exact last
      | cons b B => exact last.1
    rw [← start]
    apply last.congr
    intro x mem
    obtain ⟨b, member, rfl⟩ := List.mem_map.mp mem
    exact behind b member
  exact first'.append (links.append last')

end

end Scc.Libc.Stdlib
