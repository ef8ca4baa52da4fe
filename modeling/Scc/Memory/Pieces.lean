import Mathlib.Data.List.Basic

set_option linter.all false

/-! Pieces of a file that follow each other, each with the place where it is said to start. -/
namespace Scc.Memory

structure Piece where
  start : Int
  bytes : List UInt8

def Piece.fin (p : Piece) : Int := p.start + p.bytes.length

/-- The bytes of pieces that are written one after the other. -/
def written (ps : List Piece) : List UInt8 := ps.flatMap Piece.bytes

/-- Written one after the other from `base` on, the pieces start where they are said to. -/
def Consecutive : Int → List Piece → Prop
  | _, [] => True
  | base, p :: ps => p.start = base ∧ Consecutive (base + p.bytes.length) ps

variable {base : Int} {p : Piece} {ps qs : List Piece}

theorem written_append : written (ps ++ qs) = written ps ++ written qs :=
  List.flatMap_append

theorem consecutive_append :
    Consecutive base (ps ++ qs) ↔
      Consecutive base ps ∧ Consecutive (base + (written ps).length) qs := by
  induction ps generalizing base with
  | nil => simp [Consecutive, written]
  | cons p ps ih =>
    have whole : base + (written (p :: ps)).length =
        base + p.bytes.length + (written ps).length := by
      simp [written, Int.add_assoc]
    simp only [List.cons_append, Consecutive, ih, whole, and_assoc]

namespace Consecutive

theorem above (h : Consecutive base ps) (mem : p ∈ ps) : base ≤ p.start := by
  induction ps generalizing base with
  | nil => cases mem
  | cons q ps ih =>
    obtain ⟨start, later⟩ := h
    rcases List.mem_cons.mp mem with rfl | mem
    · exact Int.le_of_eq start.symm
    · have := ih later mem
      omega

/-- No two pieces overlap. -/
theorem apart (h : Consecutive base ps) : ps.Pairwise fun p q => p.fin ≤ q.start := by
  induction ps generalizing base with
  | nil => exact .nil
  | cons p ps ih =>
    obtain ⟨rfl, later⟩ := h
    exact .cons (fun q mem => later.above mem) (ih later)

/-- A piece is found where it is said to start. -/
theorem found (h : Consecutive base ps) (mem : p ∈ ps) {before after : List UInt8}
    (length : base = before.length) :
    ∃ before' after', before ++ (written ps ++ after) = before' ++ (p.bytes ++ after') ∧
      p.start = before'.length := by
  obtain ⟨first, rest, rfl⟩ := List.append_of_mem mem
  obtain ⟨-, start, -⟩ := consecutive_append.mp h
  refine ⟨before ++ written first, written rest ++ after, ?_, ?_⟩
  · simp [written]
  · rw [start, length, List.length_append, Int.natCast_add]

end Consecutive

end Scc.Memory
