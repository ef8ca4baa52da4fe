import Mathlib.Data.Int.Notation

set_option linter.all false

/-! The character classes of ctype.h. A character is what a `char` is promoted to, and `__ctype` has entries from -1
to 255. -/
namespace Scc.Libc

/-- What the memory outside of `__ctype` says of a character with an index there. -/
structure Outside where
  space : Int → Bool
  lower : Int → Bool
  digit : Int → Bool

variable (o : Outside) (c : Int)

def isspace : Bool := if -1 ≤ c ∧ c ≤ 255 then (9 ≤ c ∧ c ≤ 13) ∨ c = 32 else o.space c

def islower : Bool := if -1 ≤ c ∧ c ≤ 255 then 97 ≤ c ∧ c ≤ 122 else o.lower c

def isdigit : Bool := if -1 ≤ c ∧ c ≤ 255 then 48 ≤ c ∧ c ≤ 57 else o.digit c

/-- `c & ~0x20` where it is lower. -/
def toupper : Int := if islower o c ∧ c / 32 % 2 = 1 then c - 32 else c

/-- White space as the C locale has it. -/
def White : Prop := (9 ≤ c ∧ c ≤ 13) ∨ c = 32

instance : Decidable (White c) := inferInstanceAs (Decidable (_ ∨ _))

variable {o c}

theorem isspace_white (white : White c) : isspace o c = true := by
  unfold White at white
  unfold isspace
  rw [if_pos (by omega)]
  exact decide_eq_true white

theorem isspace_inside (inside : -1 ≤ c ∧ c ≤ 255) : isspace o c = true ↔ White c := by
  unfold isspace
  rw [if_pos inside]
  exact decide_eq_true_iff

theorem isdigit_digit (digit : 48 ≤ c ∧ c ≤ 57) : isdigit o c = true := by
  unfold isdigit
  rw [if_pos (by omega)]
  exact decide_eq_true digit

end Scc.Libc
