import Mathlib.Algebra.Group.Nat.Defs
import Mathlib.Order.Bounds.Basic
import Mathlib.Tactic.Common

set_option linter.all false

/-! Rounding up to a multiple, and the masks that do it for powers of two in a word. -/
namespace Scc.Arithmetic

def roundup (n a : Nat) : Nat := (n + (a - 1)) / a * a

variable {n m a k w : Nat}

theorem dvd_roundup (n a : Nat) : a ∣ roundup n a := Nat.dvd_mul_left a _

theorem le_roundup (positive : 0 < a) (n : Nat) : n ≤ roundup n a := by
  have rest := Nat.mod_lt (n + (a - 1)) positive
  have whole := Nat.div_add_mod (n + (a - 1)) a
  rw [Nat.mul_comm] at whole
  unfold roundup
  omega

theorem roundup_le (positive : 0 < a) (above : n ≤ m) (multiple : a ∣ m) : roundup n a ≤ m := by
  obtain ⟨q, rfl⟩ := multiple
  have bound : (n + (a - 1)) / a ≤ q := by
    rw [← Nat.lt_succ_iff, Nat.div_lt_iff_lt_mul positive, Nat.succ_mul, Nat.mul_comm]
    omega
  calc
    roundup n a ≤ q * a := Nat.mul_le_mul_right a bound
    _ = a * q := Nat.mul_comm q a

theorem roundup_least (positive : 0 < a) (n : Nat) : IsLeast {m | n ≤ m ∧ a ∣ m} (roundup n a) :=
  ⟨⟨le_roundup positive n, dvd_roundup n a⟩, fun _ bound => roundup_le positive bound.1 bound.2⟩

theorem roundup_one (n : Nat) : roundup n 1 = n := by
  rw [roundup, Nat.sub_self, Nat.add_zero, Nat.div_one, Nat.mul_one]

/-- Clearing the low bits of a word. -/
theorem toNat_clear (x : BitVec w) (k : Nat) :
    (x &&& ~~~BitVec.ofNat w (2 ^ k - 1)).toNat = x.toNat / 2 ^ k * 2 ^ k := by
  have same : x &&& ~~~BitVec.ofNat w (2 ^ k - 1) = (x >>> k) <<< k := by
    apply BitVec.eq_of_getLsbD_eq
    intro i inside
    simp only [BitVec.getLsbD_and, BitVec.getLsbD_not, BitVec.getLsbD_ofNat, Nat.testBit_two_pow_sub_one,
      BitVec.getLsbD_shiftLeft, BitVec.getLsbD_ushiftRight, inside, decide_true, Bool.true_and]
    by_cases low : i < k
    · simp [low]
    · simp [low, Nat.add_sub_cancel' (Nat.le_of_not_lt low)]
  rw [same, BitVec.toNat_shiftLeft, BitVec.toNat_ushiftRight, Nat.shiftRight_eq_div_pow, Nat.shiftLeft_eq]
  have room : x.toNat / 2 ^ k * 2 ^ k ≤ x.toNat := Nat.div_mul_le_self _ _
  exact Nat.mod_eq_of_lt (Nat.lt_of_le_of_lt room x.isLt)

/-- Rounding up in a word: the multiple, or nothing where it has no room. -/
theorem toNat_roundup (x : BitVec w) (below : k < w) :
    ((x + BitVec.ofNat w (2 ^ k - 1)) &&& ~~~BitVec.ofNat w (2 ^ k - 1)).toNat =
      if roundup x.toNat (2 ^ k) < 2 ^ w then roundup x.toNat (2 ^ k) else 0 := by
  have positive : 0 < 2 ^ k := Nat.two_pow_pos k
  have mask : 2 ^ k < 2 ^ w := Nat.pow_lt_pow_right (by decide) below
  have inside := x.isLt
  have sum : (x + BitVec.ofNat w (2 ^ k - 1)).toNat = (x.toNat + (2 ^ k - 1)) % 2 ^ w := by
    rw [BitVec.toNat_add, BitVec.toNat_ofNat, Nat.mod_eq_of_lt (show 2 ^ k - 1 < 2 ^ w by omega)]
  rw [toNat_clear, sum, roundup]
  by_cases room : x.toNat + (2 ^ k - 1) < 2 ^ w
  · have below : (x.toNat + (2 ^ k - 1)) / 2 ^ k * 2 ^ k < 2 ^ w := Nat.lt_of_le_of_lt (Nat.div_mul_le_self _ _) room
    rw [Nat.mod_eq_of_lt room, if_pos below]
  · -- The sum wraps to a number below the unit, and the word's size is a multiple that it passes.
    have wrapped : (x.toNat + (2 ^ k - 1)) % 2 ^ w = x.toNat + (2 ^ k - 1) - 2 ^ w := by
      rw [Nat.mod_eq_sub_mod (by omega), Nat.mod_eq_of_lt (by omega)]
    have multiple : 2 ^ w / 2 ^ k * 2 ^ k = 2 ^ w :=
      Nat.div_mul_cancel (Nat.pow_dvd_pow 2 (Nat.le_of_lt below))
    have above : 2 ^ w ≤ (x.toNat + (2 ^ k - 1)) / 2 ^ k * 2 ^ k := by
      rw [← multiple]
      exact Nat.mul_le_mul_right _ (Nat.div_le_div_right (by omega))
    rw [wrapped, if_neg (Nat.not_lt.mpr above), Nat.div_eq_of_lt (by omega), Nat.zero_mul]

end Scc.Arithmetic
