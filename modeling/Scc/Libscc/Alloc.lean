import Mathlib.Logic.Relation
import Scc.Memory.Word
import Scc.Memory.Walk

set_option linter.all false

/-! The arena allocator (libscc/alloc.c). The chunks that are free are linked through their first bytes. `xmalloc` may return
any block that is apart from those it has returned, and a caller may write anywhere in its chunks. -/
namespace Scc.Libscc.Alloc
open Memory

/-- The size of `union hdr`, and the alignment of what `xmalloc` returns. -/
def HDR : Nat := 16

/-- The size of a pointer. -/
def PTR : Nat := 8

/-- The values of a `size_t`, and the addresses. -/
def SIZES : Nat := 256 ^ PTR

structure Arena where
  ap : Nat
  array : Nat

structure State where
  mem : Mem
  allocp : Nat
  size : Nat
  nmemb : Nat
  arena : List Arena
  freep : Nat
  /-- What `xmalloc` has returned, with the lengths. -/
  blocks : List (Nat × Nat)
  /-- The chunks that `new` has returned and `delete` has not taken back. -/
  live : List Nat

/-- The bytes from one chunk to the next: `unit * sizeof(union hdr)`. -/
def stride (size : Nat) : Nat := ((size - 1) / HDR + 1) * HDR

/-- What is asked of `xmalloc` for an array, as a `size_t`. -/
def bytes (size nmemb : Nat) : Nat := stride size * nmemb % SIZES

/-- The loop that links the chunks of an array. Its limit is `n - 1` chunks behind the first one. -/
def link (stride : Nat) : Nat → Nat → Mem → Mem
  | 0, bp, m => store PTR m bp 0
  | n + 1, bp, m => link stride n (bp + stride) (store PTR m bp (bp + stride))

def newarena (ap array : Nat) (s : State) : State :=
  { s with
    mem := link (stride s.size) (s.nmemb - 1) array s.mem
    arena := ⟨ap, array⟩ :: s.arena
    freep := array
    blocks := (array, bytes s.size s.nmemb) :: (ap, 2 * PTR) :: s.blocks }

/-- The allocator that `alloc` returns. -/
def alloc (m : Mem) (allocp size nmemb : Nat) : State := ⟨m, allocp, size, nmemb, [], 0, [(allocp, 5 * PTR)], []⟩

/-- `new`, for what `xmalloc` returns if it is called. -/
def new (ap array : Nat) (s : State) : State :=
  let s := if s.freep = 0 then newarena ap array s else s
  { s with freep := load PTR s.mem s.freep, live := s.freep :: s.live }

def delete (p : Nat) (s : State) : State :=
  { s with mem := store PTR s.mem p s.freep, freep := p, live := s.live.erase p }

/-- What `dealloc` frees, one after the other. -/
def dealloc (s : State) : List Nat := s.arena.flatMap (fun a => [a.array, a.ap]) ++ [s.allocp]

/-! ## Runs -/

/-- A block that `xmalloc` may return. -/
structure Fresh (blocks : List (Nat × Nat)) (addr n : Nat) : Prop where
  positive : 0 < addr
  aligned : addr % HDR = 0
  inside : addr + n ≤ SIZES
  apart : ∀ b ∈ blocks, addr + n ≤ b.1 ∨ b.1 + b.2 ≤ addr

/-- A byte of an array that is in no chunk of a caller. -/
def Kept (s : State) (x : Nat) : Prop :=
  (∃ a ∈ s.arena, a.array ≤ x ∧ x < a.array + stride s.size * s.nmemb) ∧ ∀ p ∈ s.live, x < p ∨ p + stride s.size ≤ x

inductive Step : State → State → Prop
  | new (ap array : Nat) (struct : s.freep = 0 → Fresh s.blocks ap (2 * PTR))
      (chunks : s.freep = 0 → Fresh ((ap, 2 * PTR) :: s.blocks) array (bytes s.size s.nmemb)) : Step s (new ap array s)
  | delete (p : Nat) (held : p ∈ s.live) : Step s (delete p s)
  | write (m : Mem) (same : ∀ x, Kept s x → m x = s.mem x) : Step s { s with mem := m }

/-- The states of an allocator with some element size and count. -/
def Reachable (size nmemb : Nat) (s : State) : Prop :=
  ∃ m allocp, Fresh [] allocp (5 * PTR) ∧ Relation.ReflTransGen Step (alloc m allocp size nmemb) s

/-! ## What is to hold -/

/-- The chunks of an array. -/
def chunks (stride : Nat) : Nat → Nat → List Nat
  | 0, _ => []
  | n + 1, bp => bp :: chunks stride n (bp + stride)

/-- The chunks of all the arrays. -/
def all (size nmemb : Nat) (arena : List Arena) : List Nat := arena.flatMap fun a => chunks (stride size) nmemb a.array

structure Right (s : State) : Prop where
  apart : s.live.Pairwise fun p q => p + s.size ≤ q ∨ q + s.size ≤ p
  aligned : ∀ p ∈ s.live, p % HDR = 0
  inside : ∀ p ∈ s.live, ∃ a ∈ s.arena, ∃ n, (a.array, n) ∈ s.blocks ∧ a.array ≤ p ∧ p + s.size ≤ a.array + n
  /-- The free list ends, has no chunk twice and has the chunks that are not live. -/
  free : ∃ free, Walk (load PTR s.mem) s.freep free 0 ∧ free.Nodup ∧ 0 ∉ free ∧ ∀ p, p ∈ free ↔ p ∈ all s.size s.nmemb s.arena ∧ p ∉ s.live
  /-- Each block is freed once. -/
  dealloc : (dealloc s).Nodup ∧ ∀ b, b ∈ dealloc s ↔ ∃ n, (b, n) ∈ s.blocks

/-- The size of an arena is a `size_t`. -/
def Fits (size nmemb : Nat) : Prop := stride size * nmemb < SIZES

section
attribute [local simp] stride link newarena new delete chunks all
end

/-! ## Chunks -/

variable {s t : State} {d n bp x p q ap array size nmemb : Nat} {m : Mem} {free : List Nat}

def Apart (d p q : Nat) : Prop := p + d ≤ q ∨ q + d ≤ p

theorem stride_spec (positive : 0 < size) : size ≤ stride size ∧ HDR ≤ stride size ∧ stride size % HDR = 0 := by
  unfold stride HDR
  omega

theorem mem_chunks (member : p ∈ chunks d n bp) : bp ≤ p ∧ p + d ≤ bp + d * n ∧ (d % HDR = 0 → p % HDR = bp % HDR) := by
  induction n generalizing bp with
  | zero => cases member
  | succ n ih =>
    rw [Nat.mul_succ]
    rcases List.mem_cons.mp member with rfl | later
    · exact ⟨Nat.le_refl p, by omega, fun _ => rfl⟩
    · obtain ⟨low, high, same⟩ := ih later
      refine ⟨by omega, by omega, fun multiple => ?_⟩
      rw [same multiple, Nat.add_mod, multiple, Nat.add_zero, Nat.mod_mod]

theorem chunks_apart (d n bp : Nat) : (chunks d n bp).Pairwise (Apart d) := by
  induction n generalizing bp with
  | zero => exact .nil
  | succ n ih => exact .cons (fun p member => .inl (mem_chunks member).1) (ih (bp + d))

theorem link_outside (out : x < bp ∨ bp + d * (n + 1) ≤ x) (wide : PTR ≤ d) : link d n bp m x = m x := by
  induction n generalizing bp m with
  | zero => exact store_outside PTR (by rw [Nat.zero_add, Nat.mul_one] at out; omega)
  | succ n ih =>
    rw [Nat.mul_succ] at out
    rw [link, ih (by omega), store_outside PTR (by omega)]

/-- The chunks of a new array are linked one to the next. -/
theorem link_walk (wide : PTR ≤ d) (inside : bp + d * (n + 1) ≤ SIZES) :
    Walk (load PTR (link d n bp m)) bp (chunks d (n + 1) bp) 0 := by
  induction n generalizing bp m with
  | zero => exact ⟨rfl, load_store PTR⟩
  | succ n ih =>
    rw [Nat.mul_succ] at inside
    have small : (bp + d) % 256 ^ PTR = bp + d := by
      refine Nat.mod_eq_of_lt (Nat.lt_of_lt_of_le ?_ inside)
      have : 0 < d * (n + 1) := Nat.mul_pos (Nat.lt_of_lt_of_le (by decide) wide) (Nat.succ_pos n)
      omega
    have first : load PTR (link d (n + 1) bp m) bp = bp + d := by
      rw [link]
      refine (load_congr PTR fun x low high => link_outside (.inl (by omega)) wide).trans ?_
      exact (load_store PTR).trans small
    refine ⟨rfl, ?_⟩
    rw [first]
    exact ih (by omega)

/-! ## The invariant -/

/-- The free list is given. -/
structure Sound (s : State) (free : List Nat) : Prop where
  positive : 0 < s.size ∧ 0 < s.nmemb
  fits : Fits s.size s.nmemb
  walk : Walk (load PTR s.mem) s.freep free 0
  perm : (free ++ s.live).Perm (all s.size s.nmemb s.arena)
  apart : (all s.size s.nmemb s.arena).Pairwise (Apart (stride s.size))
  arrays : ∀ a ∈ s.arena, (a.array, stride s.size * s.nmemb) ∈ s.blocks
  blocks : s.blocks.Pairwise fun b c => b.1 + b.2 ≤ c.1 ∨ c.1 + c.2 ≤ b.1
  placed : ∀ b ∈ s.blocks, 0 < b.1 ∧ 0 < b.2 ∧ b.1 % HDR = 0 ∧ b.1 + b.2 ≤ SIZES
  freed : (s.arena.flatMap (fun a => [a.array, a.ap]) ++ [s.allocp]).Perm (s.blocks.map Prod.fst)

theorem alloc_sound (positive : 0 < size ∧ 0 < nmemb) (fits : Fits size nmemb) (fresh : Fresh [] n (5 * PTR)) :
    Sound (alloc m n size nmemb) [] where
  positive := positive
  fits := fits
  walk := rfl
  perm := .nil
  apart := .nil
  arrays _ member := nomatch member
  blocks := List.pairwise_singleton _ _
  placed b member := by
    rw [List.mem_singleton.mp member]
    exact ⟨fresh.positive, (by decide : 0 < 5 * PTR), fresh.aligned, fresh.inside⟩
  freed := .refl _

namespace Sound
variable (sound : Sound s free)
include sound

theorem bytes_eq : bytes s.size s.nmemb = stride s.size * s.nmemb := Nat.mod_eq_of_lt sound.fits

theorem bytes_pos : 0 < stride s.size * s.nmemb :=
  Nat.mul_pos (Nat.lt_of_lt_of_le (by decide) (stride_spec sound.positive.1).2.1) sound.positive.2

/-- A chunk lies in the block of an array. -/
theorem place (member : p ∈ all s.size s.nmemb s.arena) : ∃ a ∈ s.arena, (a.array, stride s.size * s.nmemb) ∈ s.blocks ∧ a.array ≤ p ∧
    p + stride s.size ≤ a.array + stride s.size * s.nmemb ∧ p % HDR = 0 ∧ 0 < p ∧ p < SIZES := by
  obtain ⟨a, owned, inside⟩ := List.mem_flatMap.mp member
  obtain ⟨low, high, same⟩ := mem_chunks inside
  have wide := stride_spec sound.positive.1
  have block := sound.arrays a owned
  obtain ⟨positive, -, aligned, last⟩ := sound.placed _ block
  dsimp only at positive aligned last
  have header : 0 < HDR := by decide
  exact ⟨a, owned, block, low, high, (same wide.2.2).trans aligned, by omega, by omega⟩

theorem nodup : (free ++ s.live).Nodup := by
  refine sound.perm.nodup_iff.mpr (sound.apart.imp ?_)
  intro p q apart same
  have wide := (stride_spec sound.positive.1).2.1
  have header : 0 < HDR := by decide
  unfold Apart at apart
  omega

/-- A chunk that is free and one that is not are apart. -/
theorem free_apart (one : p ∈ free) (other : q ∈ s.live) : Apart (stride s.size) p q := by
  have pairs := (List.Perm.pairwise_iff (R := Apart (stride s.size)) (fun h => h.symm) sound.perm).mpr sound.apart
  exact (List.pairwise_append.mp pairs).2.2 p one q other

/-- The free list is empty where its pointer is null. -/
theorem empty (null : s.freep = 0) : free = [] := by
  cases free with
  | nil => rfl
  | cons p rest =>
    have start : s.freep = p := sound.walk.1
    obtain ⟨a, -, -, -, -, -, positive, -⟩ := sound.place (sound.perm.subset List.mem_cons_self)
    omega

theorem newarena_sound (null : s.freep = 0) (struct : Fresh s.blocks ap (2 * PTR))
    (fresh : Fresh ((ap, 2 * PTR) :: s.blocks) array (bytes s.size s.nmemb)) :
    Sound (newarena ap array s) (chunks (stride s.size) s.nmemb array) := by
  rw [sound.bytes_eq] at fresh
  have wide := stride_spec sound.positive.1
  have some : 0 < s.nmemb := sound.positive.2
  have count : s.nmemb - 1 + 1 = s.nmemb := Nat.sub_add_cancel some
  have perm := sound.perm
  rw [sound.empty null, List.nil_append] at perm
  have blocks : (newarena ap array s).blocks = (array, stride s.size * s.nmemb) :: (ap, 2 * PTR) :: s.blocks := by
    rw [← sound.bytes_eq]
    rfl
  constructor
  · exact sound.positive
  · exact sound.fits
  · have inside : array + stride s.size * (s.nmemb - 1 + 1) ≤ SIZES := by
      rw [count]
      exact fresh.inside
    have walk := link_walk (m := s.mem) (Nat.le_trans (by decide) wide.2.1) inside
    rwa [count] at walk
  · exact perm.append_left _
  · refine List.pairwise_append.mpr ⟨chunks_apart _ _ _, sound.apart, fun p member q member' => ?_⟩
    have inside : array ≤ p ∧ p + stride s.size ≤ array + stride s.size * s.nmemb ∧ _ := mem_chunks member
    obtain ⟨a, -, block, low', high', -⟩ := sound.place member'
    have apart := fresh.apart _ (List.mem_cons_of_mem _ block)
    change p + stride s.size ≤ q ∨ q + stride s.size ≤ p
    omega
  · intro a member
    rw [blocks]
    rcases List.mem_cons.mp member with rfl | old
    · exact List.mem_cons_self
    · exact List.mem_cons_of_mem _ (List.mem_cons_of_mem _ (sound.arrays a old))
  · rw [blocks]
    exact .cons fresh.apart (.cons struct.apart sound.blocks)
  · rw [blocks]
    intro b member
    rcases List.mem_cons.mp member with rfl | member
    · exact ⟨fresh.positive, sound.bytes_pos, fresh.aligned, fresh.inside⟩
    rcases List.mem_cons.mp member with rfl | old
    · exact ⟨struct.positive, (by decide : 0 < 2 * PTR), struct.aligned, struct.inside⟩
    · exact sound.placed b old
  · rw [blocks]
    exact (sound.freed.cons ap).cons array

/-- The first free chunk is taken off the list. -/
theorem take (other : s.freep ≠ 0) : ∃ rest, Sound { s with freep := load PTR s.mem s.freep, live := s.freep :: s.live } rest := by
  have walk := sound.walk
  have perm := sound.perm
  cases free with
  | nil => exact absurd walk other
  | cons p rest =>
    obtain ⟨start, walk⟩ := walk
    subst start
    refine ⟨rest, sound.positive, sound.fits, walk, ?_, sound.apart, sound.arrays, sound.blocks, sound.placed, sound.freed⟩
    exact List.perm_middle.trans perm

theorem new_sound (struct : s.freep = 0 → Fresh s.blocks ap (2 * PTR))
    (fresh : s.freep = 0 → Fresh ((ap, 2 * PTR) :: s.blocks) array (bytes s.size s.nmemb)) :
    ∃ rest, Sound (new ap array s) rest := by
  unfold new
  by_cases null : s.freep = 0
  · rw [if_pos null]
    have grown := sound.newarena_sound null (struct null) (fresh null)
    have positive := (fresh null).positive
    exact grown.take (Nat.ne_of_gt positive)
  · rw [if_neg null]
    exact sound.take null

theorem delete_sound (held : p ∈ s.live) : Sound (delete p s) (p :: free) := by
  have wide := (stride_spec sound.positive.1).2.1
  have member : p ∈ all s.size s.nmemb s.arena := sound.perm.subset (List.mem_append_right _ held)
  have small : s.freep < 256 ^ PTR := by
    by_cases null : s.freep = 0
    · rw [null]
      decide
    · obtain ⟨rest, taken⟩ := sound.take null
      obtain ⟨a, -, -, -, -, -, -, inside⟩ := taken.place (taken.perm.subset (List.mem_append_right _ List.mem_cons_self))
      exact inside
  have first : load PTR (store PTR s.mem p s.freep) p = s.freep := (load_store PTR).trans (Nat.mod_eq_of_lt small)
  have others : ∀ q ∈ free, load PTR (store PTR s.mem p s.freep) q = load PTR s.mem q := by
    intro q inside
    have apart := sound.free_apart inside held
    have header : PTR ≤ HDR := by decide
    unfold Apart at apart
    exact load_store_apart PTR PTR (by omega)
  refine ⟨sound.positive, sound.fits, ⟨rfl, ?_⟩, ?_, sound.apart, sound.arrays, sound.blocks, sound.placed, sound.freed⟩
  · change Walk (load PTR (store PTR s.mem p s.freep)) (load PTR (store PTR s.mem p s.freep) p) free 0
    rw [first]
    exact sound.walk.congr others
  · have taken : (p :: free ++ s.live.erase p).Perm (free ++ p :: s.live.erase p) := List.perm_middle.symm
    exact taken.trans (((List.perm_cons_erase held).symm.append_left free).trans sound.perm)

theorem write_sound (same : ∀ x, Kept s x → m x = s.mem x) : Sound { s with mem := m } free := by
  have wide := (stride_spec sound.positive.1).2.1
  have header : PTR ≤ HDR := by decide
  have others : ∀ q ∈ free, load PTR m q = load PTR s.mem q := by
    intro q inside
    obtain ⟨a, owned, -, low, high, -⟩ := sound.place (sound.perm.subset (List.mem_append_left _ inside))
    refine load_congr PTR fun x least most => same x ⟨⟨a, owned, by omega, by omega⟩, fun p held => ?_⟩
    have apart := sound.free_apart inside held
    unfold Apart at apart
    omega
  exact ⟨sound.positive, sound.fits, sound.walk.congr others, sound.perm, sound.apart, sound.arrays, sound.blocks, sound.placed,
    sound.freed⟩

theorem step (step : Step s t) : ∃ free, Sound t free := by
  cases step with
  | new ap array struct chunks => exact sound.new_sound struct chunks
  | delete p held => exact ⟨_, sound.delete_sound held⟩
  | write m same => exact ⟨free, sound.write_sound same⟩

theorem right : Right s := by
  have wide := (stride_spec sound.positive.1).1
  have member : ∀ p ∈ s.live, p ∈ all s.size s.nmemb s.arena := fun p held => sound.perm.subset (List.mem_append_right _ held)
  have nodup := List.nodup_append.mp sound.nodup
  constructor
  · have pairs := (List.Perm.pairwise_iff (R := Apart (stride s.size)) (fun h => h.symm) sound.perm).mpr sound.apart
    refine (List.pairwise_append.mp pairs).2.1.imp fun apart => ?_
    unfold Apart at apart
    omega
  · intro p held
    obtain ⟨a, -, -, -, -, aligned, -⟩ := sound.place (member p held)
    exact aligned
  · intro p held
    obtain ⟨a, owned, block, low, high, -⟩ := sound.place (member p held)
    exact ⟨a, owned, _, block, low, by omega⟩
  · refine ⟨free, sound.walk, nodup.1, fun null => ?_, fun p => ⟨fun inside => ?_, fun ⟨inside, other⟩ => ?_⟩⟩
    · obtain ⟨a, -, -, -, -, -, positive, -⟩ := sound.place (sound.perm.subset (List.mem_append_left _ null))
      exact Nat.lt_irrefl 0 positive
    · exact ⟨sound.perm.subset (List.mem_append_left _ inside), fun held => nodup.2.2 p inside p held rfl⟩
    · exact (List.mem_append.mp (sound.perm.symm.subset inside)).resolve_right other
  · have starts : (s.blocks.map Prod.fst).Nodup := by
      refine List.pairwise_map.mpr (sound.blocks.imp_of_mem fun one other apart same => ?_)
      have placed := sound.placed _ one
      have placed' := sound.placed _ other
      omega
    refine ⟨sound.freed.nodup_iff.mpr starts, fun b => ?_⟩
    refine sound.freed.mem_iff.trans ?_
    simp

end Sound

end Scc.Libscc.Alloc
