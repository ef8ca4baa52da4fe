import Mathlib.Logic.Function.Basic
import Mathlib.Algebra.Group.Nat.Defs

set_option linter.all false

/-! Numbers in the bytes of a memory, the lowest byte first. -/
namespace Scc.Memory

abbrev Mem := Nat → UInt8

/-- The number in the `w` bytes from `a` on. -/
def load : Nat → Mem → Nat → Nat
  | 0, _, _ => 0
  | w + 1, m, a => (m a).toNat + 256 * load w m (a + 1)

/-- The memory with the low `w` bytes of `v` from `a` on. -/
def store : Nat → Mem → Nat → Nat → Mem
  | 0, m, _, _ => m
  | w + 1, m, a, v => store w (Function.update m a (UInt8.ofNat v)) (a + 1) (v / 256)

/-- The memory after `n` bytes from `source` on were copied to `a`. -/
def copy (m : Mem) (a source n : Nat) : Mem := fun x =>
  if a ≤ x ∧ x < a + n then m (source + (x - a)) else m x

/-- The memories hold the same from `a` to `b`. -/
def Same (a b : Nat) (m m' : Mem) : Prop := ∀ x, a ≤ x → x < b → m' x = m x

variable {m m' m'' : Mem} {a b c d w v x : Nat}

theorem Same.refl (a b : Nat) (m : Mem) : Same a b m m := fun _ _ _ => rfl

theorem Same.trans (h : Same a b m m') (h' : Same a b m' m'') : Same a b m m'' :=
  fun x low high => (h' x low high).trans (h x low high)

theorem Same.within (h : Same a b m m') (low : a ≤ c) (high : d ≤ b) : Same c d m m' :=
  fun x low' high' => h x (Nat.le_trans low low') (Nat.lt_of_lt_of_le high' high)

theorem load_congr (w : Nat) (same : Same a (a + w) m m') : load w m' a = load w m a := by
  induction w generalizing a with
  | zero => rfl
  | succ w ih =>
    rw [load, load, same a (by omega) (by omega), ih (same.within (by omega) (by omega))]

theorem store_outside (w : Nat) (out : x < a ∨ a + w ≤ x) : store w m a v x = m x := by
  induction w generalizing m a v with
  | zero => rfl
  | succ w ih =>
    rw [store, ih (by omega), Function.update_of_ne (by omega)]

theorem store_same (w : Nat) (out : b ≤ a ∨ a + w ≤ c) : Same c b m (store w m a v) :=
  fun x low high => store_outside w (by omega)

theorem load_store (w : Nat) : load w (store w m a v) a = v % 256 ^ w := by
  induction w generalizing m a v with
  | zero => simp [load, Nat.mod_one]
  | succ w ih =>
    have byte : (UInt8.ofNat v).toNat = v % 256 := UInt8.toNat_ofNat'
    rw [load, store, ih, store_outside w (by omega), Function.update_self, byte,
      Nat.pow_succ, Nat.mul_comm (256 ^ w) 256, Nat.mod_mul]

theorem load_store_apart (w w' : Nat) (apart : a + w ≤ b ∨ b + w' ≤ a) :
    load w' (store w m a v) b = load w' m b :=
  load_congr w' (store_same w (by omega))

theorem copy_outside {source n : Nat} (out : x < a ∨ a + n ≤ x) : copy m a source n x = m x :=
  if_neg (by omega)

theorem copy_inside {source n i : Nat} (inside : i < n) :
    copy m a source n (a + i) = m (source + i) := by
  rw [copy, if_pos (by omega), Nat.add_sub_cancel_left]

end Scc.Memory
