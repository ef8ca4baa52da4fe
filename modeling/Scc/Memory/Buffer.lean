import Mathlib.Data.List.Basic

set_option linter.all false

/-! A buffer that is filled through a pointer. Nothing can be stored behind its end. -/
namespace Scc.Memory

/-- A buffer and the offset of a pointer into it, or to its end. -/
structure Cursor (α : Type) where
  bytes : List α
  pos : Nat
  inside : pos ≤ bytes.length

namespace Cursor
variable {α : Type}

/-- What is before the pointer. -/
def filled (b : Cursor α) : List α := b.bytes.take b.pos

/-- `*p++ = x` -/
def put (b : Cursor α) (x : α) : Option (Cursor α) :=
  if room : b.pos < b.bytes.length then
    some { bytes := b.bytes.set b.pos x
           pos := b.pos + 1
           inside := by rw [List.length_set]; exact room }
  else none

def puts (b : Cursor α) : List α → Option (Cursor α)
  | [] => some b
  | x :: xs => (b.put x).bind (·.puts xs)

/-- `p -= n` -/
def back (b : Cursor α) (n : Nat) : Cursor α := ⟨b.bytes, b.pos - n, Nat.le_trans (Nat.sub_le _ _) b.inside⟩

/-- `p = buffer + pos` -/
def seek (b : Cursor α) (pos : Nat) : Option (Cursor α) := if within : pos ≤ b.bytes.length then some ⟨b.bytes, pos, within⟩ else none

/-- `*p = x` -/
def store (b : Cursor α) (x : α) : Option (Cursor α) := (b.put x).map (·.back 1)

/-- A buffer with the same value everywhere. -/
def blank (size : Nat) (x : α) : Cursor α := ⟨List.replicate size x, 0, Nat.zero_le _⟩

/-- A buffer of a size that is filled so far. -/
structure Holds (b : Cursor α) (size : Nat) (out : List α) : Prop where
  length : b.bytes.length = size
  filled : b.filled = out

variable {b b' : Cursor α} {size : Nat} {out : List α} {x : α}

theorem filled_length (b : Cursor α) : b.filled.length = b.pos := by
  rw [filled, List.length_take, Nat.min_eq_left b.inside]

theorem seek_pos (b : Cursor α) : b.seek b.pos = some b := dif_pos b.inside

theorem blank_holds (size : Nat) (x : α) : (blank size x).Holds size [] := ⟨List.length_replicate, rfl⟩

namespace Holds

theorem pos (holds : Holds b size out) : b.pos = out.length := by
  rw [← holds.filled, filled_length]

theorem le (holds : Holds b size out) : out.length ≤ size := by
  rw [← holds.pos, ← holds.length]
  exact b.inside

theorem start (holds : Holds b size out) : Holds (b.back b.pos) size [] := by
  refine ⟨holds.length, ?_⟩
  simp [Cursor.filled, Cursor.back]

theorem back (xs : List α) (holds : Holds b size (out ++ xs)) : Holds (b.back xs.length) size out := by
  refine ⟨holds.length, ?_⟩
  have pos : b.pos - xs.length = out.length := by
    rw [holds.pos, List.length_append, Nat.add_sub_cancel]
  have whole : b.bytes.take b.pos = out ++ xs := holds.filled
  calc b.bytes.take (b.pos - xs.length)
      = (b.bytes.take b.pos).take out.length := by
        rw [pos, List.take_take, holds.pos, List.length_append, Nat.min_eq_left (Nat.le_add_right _ _)]
    _ = out := by rw [whole, List.take_left]

/-- A byte is stored where there is room for it. -/
theorem put (holds : Holds b size out) (room : out.length < size) (x : α) :
    ∃ b', b.put x = some b' ∧ Holds b' size (out ++ [x]) := by
  have inside : b.pos < b.bytes.length := by
    rw [holds.pos, holds.length]
    exact room
  have within : b.pos < (b.bytes.set b.pos x).length := by rwa [List.length_set]
  refine ⟨_, dif_pos inside, by rw [List.length_set, holds.length], ?_⟩
  calc (b.bytes.set b.pos x).take (b.pos + 1)
      = (b.bytes.set b.pos x).take b.pos ++ [(b.bytes.set b.pos x)[b.pos]] := List.take_succ_eq_append_getElem within
    _ = b.bytes.take b.pos ++ [x] := by rw [List.take_set_of_le (Nat.le_refl _), List.getElem_set_self]
    _ = out ++ [x] := congrArg (· ++ [x]) holds.filled

theorem put_full (holds : Holds b size out) (full : size ≤ out.length) (x : α) : b.put x = none := by
  refine dif_neg ?_
  rw [holds.pos, holds.length]
  omega

theorem puts (holds : Holds b size out) (xs : List α) (room : out.length + xs.length ≤ size) :
    ∃ b', b.puts xs = some b' ∧ Holds b' size (out ++ xs) := by
  induction xs generalizing b out with
  | nil => exact ⟨b, rfl, by rwa [List.append_nil]⟩
  | cons x xs ih =>
    rw [List.length_cons] at room
    obtain ⟨next, stored, holds'⟩ := holds.put (by omega) x
    obtain ⟨last, later, holds''⟩ := ih holds' (by rw [List.length_append, List.length_singleton]; omega)
    refine ⟨last, ?_, by rwa [List.append_assoc] at holds''⟩
    rw [Cursor.puts, stored]
    exact later

theorem store (holds : Holds b size out) (room : out.length < size) (x : α) :
    ∃ b', b.store x = some b' ∧ Holds b' size out ∧ b'.bytes[out.length]? = some x := by
  obtain ⟨next, stored, holds'⟩ := holds.put room x
  refine ⟨next.back 1, ?_, back [x] holds', ?_⟩
  · rw [Cursor.store, stored]
    rfl
  · have filled : next.bytes.take next.pos = out ++ [x] := holds'.filled
    have there : (next.bytes.take next.pos)[out.length]? = some x := by
      rw [filled, List.getElem?_concat_length]
    rwa [List.getElem?_take_of_lt (by rw [holds'.pos, List.length_append]; exact Nat.lt_succ_self _)] at there

/-- The buffer is what it is filled with and what is at the pointer and behind it. -/
theorem split (holds : Holds b size out) (here : b.bytes[out.length]? = some x) : ∃ rest, b.bytes = out ++ x :: rest := by
  obtain ⟨inside, same⟩ := List.getElem?_eq_some_iff.mp here
  refine ⟨b.bytes.drop (out.length + 1), ?_⟩
  have filled : b.bytes.take out.length = out := holds.pos ▸ holds.filled
  calc b.bytes
      = b.bytes.take out.length ++ b.bytes.drop out.length := (List.take_append_drop _ _).symm
    _ = out ++ x :: b.bytes.drop (out.length + 1) := by rw [filled, List.drop_eq_getElem_cons inside, same]

end Holds

end Cursor

end Scc.Memory
