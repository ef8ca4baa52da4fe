import Mathlib.Data.List.Basic

set_option linter.all false

/-! A heap of blocks whose names are never used again. -/
namespace Scc.Memory

/-- The blocks that are allocated; those from `next` on never were. -/
structure Blocks (α : Type) where
  next : Nat
  content : Nat → Option (List α)
  fresh : ∀ b, next ≤ b → content b = none

namespace Blocks
variable {α : Type}

def alloc (h : Blocks α) (xs : List α) : Nat × Blocks α :=
  (h.next, { next := h.next + 1
             content := fun b => if b = h.next then some xs else h.content b
             fresh := fun b above => by rw [if_neg (by omega)]; exact h.fresh b (by omega) })

/-- Writes to an allocated block. -/
def write (h : Blocks α) (b : Nat) (xs : List α) : Blocks α where
  next := h.next
  content := fun c => if c = b then (h.content b).map fun _ => xs else h.content c
  fresh := fun c above => by
    split
    case isTrue same => rw [h.fresh b (same ▸ above)]; rfl
    case isFalse => exact h.fresh c above

/-- The block keeps its place, or it is freed and its content is in a new one. -/
def move (h : Blocks α) (moves : Bool) (b : Nat) (xs : List α) : Nat × Blocks α :=
  if moves then
    (h.next, { next := h.next + 1
               content := fun c => if c = h.next then some xs else if c = b then none else h.content c
               fresh := fun c above => by rw [if_neg (by omega)]; split; rfl; exact h.fresh c (by omega) })
  else (b, h.write b xs)

variable {h : Blocks α} {b c : Nat} {xs ys : List α}

theorem below (live : h.content b = some xs) : b < h.next := by
  by_contra above
  rw [h.fresh b (by omega)] at live
  cases live

@[simp] theorem alloc_content : (h.alloc xs).2.content (h.alloc xs).1 = some xs := if_pos rfl

theorem alloc_other (old : b < h.next) : (h.alloc xs).2.content b = h.content b := if_neg (by omega)

theorem alloc_next (h : Blocks α) (xs : List α) : (h.alloc xs).2.next = h.next + 1 := rfl

theorem write_content (live : h.content b = some ys) : (h.write b xs).content b = some xs := by simp [write, live]

theorem write_other (other : c ≠ b) : (h.write b xs).content c = h.content c := if_neg other

theorem move_content (moves : Bool) (xs : List α) (live : h.content b = some ys) :
    (h.move moves b xs).2.content (h.move moves b xs).1 = some xs := by
  cases moves with
  | true => simp [move]
  | false => exact write_content live

theorem move_gone (live : h.content b = some ys) : (h.move true b xs).2.content b = none := by
  have := below live
  simp [move]
  omega

theorem move_other (moves : Bool) (xs : List α) (other : c ≠ b) (old : c < h.next) : (h.move moves b xs).2.content c = h.content c := by
  cases moves with
  | true =>
    have : c ≠ h.next := by omega
    simp [move, this, other]
  | false => exact write_other other

theorem move_next (h : Blocks α) (moves : Bool) (b : Nat) (xs : List α) : h.next ≤ (h.move moves b xs).2.next := by
  cases moves <;> simp [move, write]

theorem move_place {moves : Bool} (other : c ≠ b) (old : c < h.next) : c ≠ (h.move moves b xs).1 := by
  cases moves with
  | true => simp [move]; omega
  | false => exact other

end Blocks

end Scc.Memory
