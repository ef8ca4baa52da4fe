import Mathlib.Data.Nat.Basic
import Mathlib.Algebra.Group.Nat.Defs

set_option linter.all false

/-! When an operation on bits gives the same with the signed and with the unsigned reading of
its operands. -/
namespace Scc.Arithmetic

variable {m a b w : Nat} {x y : BitVec w}

/-- `m - n`, or 0 for 0: the negation modulo `m`. -/
theorem negated {n : Nat} (small : n < m) : (m - n) % m = if n = 0 then 0 else m - n := by
  split
  case isTrue zero => rw [zero, Nat.sub_zero, Nat.mod_self]
  case isFalse => exact Nat.mod_eq_of_lt (by omega)

/-- The quotient of a negative dividend. -/
theorem quotient_negative_dividend (high : m ≤ 2 * a) (below : a < m) (low : 2 * b < m) (nonzero : b ≠ 0) :
    (m - (m - a) / b) % m = a / b ↔ b = 1 := by
  have small : (m - a) / b ≤ m - a := Nat.div_le_self _ _
  rw [negated (by omega)]
  constructor
  · intro same
    refine Decidable.byContradiction fun other => ?_
    have half : (m - a) / b ≤ (m - a) / 2 := Nat.div_le_div_left (by omega) (by decide)
    have half' : a / b ≤ a / 2 := Nat.div_le_div_left (by omega) (by decide)
    have positive : 0 < a / b := Nat.div_pos (by omega) (by omega)
    split at same
    · omega
    · omega
  · rintro rfl
    rw [Nat.div_one, Nat.div_one, if_neg (by omega)]
    omega

/-- The quotient by a negative divisor. -/
theorem quotient_negative_divisor (low : 2 * a < m) (high : m ≤ 2 * b) (below : b < m) :
    (m - a / (m - b)) % m = a / b ↔ a + b < m := by
  have small : a / (m - b) ≤ a := Nat.div_le_self _ _
  have zero : a / (m - b) = 0 ↔ a < m - b := Nat.div_eq_zero_iff_lt (by omega)
  rw [negated (by omega), Nat.div_eq_of_lt (show a < b by omega)]
  split
  · omega
  · omega

/-- The quotient of two negative numbers. -/
theorem quotient_negative (high : m ≤ 2 * a) (below : a < m) (high' : m ≤ 2 * b) (below' : b < m) :
    (m - a) / (m - b) = a / b ↔ a = b := by
  rcases Nat.lt_trichotomy a b with less | rfl | greater
  · have one : 0 < (m - a) / (m - b) := Nat.div_pos (by omega) (by omega)
    rw [Nat.div_eq_of_lt less]
    omega
  · rw [Nat.div_self (by omega), Nat.div_self (by omega)]
    simp
  · have one : 0 < a / b := Nat.div_pos (by omega) (by omega)
    rw [Nat.div_eq_of_lt (show m - a < m - b by omega)]
    omega

/-- The remainder of a negative dividend. -/
theorem remainder_negative_dividend (below : a < m) (low : 2 * b < m) (nonzero : b ≠ 0) :
    (m - (m - a) % b) % m = a % b ↔ b ∣ a ∧ b ∣ m - a := by
  have small : (m - a) % b < b := Nat.mod_lt _ (by omega)
  have small' : a % b < b := Nat.mod_lt _ (by omega)
  rw [negated (by omega), Nat.dvd_iff_mod_eq_zero, Nat.dvd_iff_mod_eq_zero]
  split
  · omega
  · omega

/-- The remainder by a negative divisor. -/
theorem remainder_negative_divisor (low : 2 * a < m) (high : m ≤ 2 * b) (below : b < m) :
    a % (m - b) = a % b ↔ a + b < m := by
  have small : a % (m - b) < m - b := Nat.mod_lt _ (by omega)
  rw [Nat.mod_eq_of_lt (show a < b by omega)]
  constructor
  · omega
  · intro sum
    exact Nat.mod_eq_of_lt (by omega)

/-- The remainder of two negative numbers. -/
theorem remainder_negative (high : m ≤ 2 * a) (below : a < m) (high' : m ≤ 2 * b) (below' : b < m) :
    (m - (m - a) % (m - b)) % m = a % b ↔ a = b := by
  have small : (m - a) % (m - b) < m - b := Nat.mod_lt _ (by omega)
  rw [negated (by omega)]
  rcases Nat.lt_trichotomy a b with less | rfl | greater
  · rw [Nat.mod_eq_of_lt less]
    split
    · omega
    · omega
  · rw [Nat.mod_self, Nat.mod_self]
    simp
  · rw [Nat.mod_eq_of_lt (show m - a < m - b by omega), Nat.mod_eq_sub_mod (by omega),
      Nat.mod_eq_of_lt (show a - b < b by omega)]
    split
    · omega
    · omega

/-- The condition under which a signed and an unsigned quotient have the same bits. -/
def QuotientsAgree (x y : BitVec w) : Prop :=
  match x.msb, y.msb with
  | false, false => True
  | true, false => y.toNat = 1
  | false, true => x.toNat + y.toNat < 2 ^ w
  | true, true => x = y

/-- The condition under which a signed and an unsigned remainder have the same bits. -/
def RemaindersAgree (x y : BitVec w) : Prop :=
  match x.msb, y.msb with
  | false, false => True
  | true, false => y.toNat ∣ x.toNat ∧ y.toNat ∣ 2 ^ w - x.toNat
  | false, true => x.toNat + y.toNat < 2 ^ w
  | true, true => x = y

theorem toNat_neg_of_msb (negative : x.msb = true) : (-x).toNat = 2 ^ w - x.toNat := by
  have high := BitVec.msb_eq_true_iff_two_mul_ge.mp negative
  have small := x.isLt
  rw [BitVec.toNat_neg, Nat.mod_eq_of_lt (by omega)]

theorem udiv_eq_sdiv_iff (nonzero : y.toNat ≠ 0) : x.udiv y = x.sdiv y ↔ QuotientsAgree x y := by
  have below := x.isLt
  have below' := y.isLt
  rw [eq_comm, BitVec.sdiv_eq, QuotientsAgree, ← BitVec.toNat_inj]
  cases signx : x.msb with
  | false =>
    have low := BitVec.msb_eq_false_iff_two_mul_lt.mp signx
    cases signy : y.msb with
    | false => exact iff_of_true rfl trivial
    | true =>
      have high := BitVec.msb_eq_true_iff_two_mul_ge.mp signy
      dsimp only
      rw [BitVec.toNat_neg, BitVec.udiv_eq, BitVec.udiv_eq, BitVec.toNat_udiv, BitVec.toNat_udiv, toNat_neg_of_msb signy]
      exact quotient_negative_divisor low high below'
  | true =>
    have high := BitVec.msb_eq_true_iff_two_mul_ge.mp signx
    cases signy : y.msb with
    | false =>
      have low := BitVec.msb_eq_false_iff_two_mul_lt.mp signy
      dsimp only
      rw [BitVec.toNat_neg, BitVec.udiv_eq, BitVec.udiv_eq, BitVec.toNat_udiv, BitVec.toNat_udiv, toNat_neg_of_msb signx]
      exact quotient_negative_dividend high below low nonzero
    | true =>
      have high' := BitVec.msb_eq_true_iff_two_mul_ge.mp signy
      dsimp only
      rw [BitVec.udiv_eq, BitVec.udiv_eq, BitVec.toNat_udiv, BitVec.toNat_udiv, toNat_neg_of_msb signx,
        toNat_neg_of_msb signy, ← BitVec.toNat_inj]
      exact quotient_negative high below high' below'

theorem umod_eq_srem_iff (nonzero : y.toNat ≠ 0) : x.umod y = x.srem y ↔ RemaindersAgree x y := by
  have below := x.isLt
  have below' := y.isLt
  rw [eq_comm, BitVec.srem_eq, RemaindersAgree, ← BitVec.toNat_inj]
  cases signx : x.msb with
  | false =>
    have low := BitVec.msb_eq_false_iff_two_mul_lt.mp signx
    cases signy : y.msb with
    | false => exact iff_of_true rfl trivial
    | true =>
      have high := BitVec.msb_eq_true_iff_two_mul_ge.mp signy
      dsimp only
      rw [BitVec.umod_eq, BitVec.toNat_umod, BitVec.toNat_umod, toNat_neg_of_msb signy]
      exact remainder_negative_divisor low high below'
  | true =>
    have high := BitVec.msb_eq_true_iff_two_mul_ge.mp signx
    cases signy : y.msb with
    | false =>
      have low := BitVec.msb_eq_false_iff_two_mul_lt.mp signy
      dsimp only
      rw [BitVec.toNat_neg, BitVec.umod_eq, BitVec.toNat_umod, BitVec.toNat_umod, toNat_neg_of_msb signx]
      exact remainder_negative_dividend below low nonzero
    | true =>
      have high' := BitVec.msb_eq_true_iff_two_mul_ge.mp signy
      dsimp only
      rw [BitVec.toNat_neg, BitVec.umod_eq, BitVec.toNat_umod, BitVec.toNat_umod, toNat_neg_of_msb signx,
        toNat_neg_of_msb signy, ← BitVec.toNat_inj]
      exact remainder_negative high below high' below'

/-- A shift to the right fills up with the sign, which is seen unless nothing is shifted. -/
theorem ushiftRight_eq_sshiftRight_iff {n : Nat} (few : n < w) :
    x >>> n = x.sshiftRight n ↔ x.msb = false ∨ n = 0 := by
  cases sign : x.msb with
  | false => exact iff_of_true (BitVec.sshiftRight_eq_of_msb_false sign).symm (.inl rfl)
  | true =>
    constructor
    · intro same
      refine .inr (Decidable.byContradiction fun some_ => ?_)
      have top := congrArg BitVec.msb same
      rw [BitVec.msb_sshiftRight, sign, BitVec.msb_ushiftRight] at top
      simp [some_] at top
    · rintro (positive | rfl)
      · cases positive
      · simp

theorem eq_xor_bne (a b c : Bool) : c = (a != b ^^ c) ↔ a = b := by
  cases a with
  | false => cases b with
    | false => simp
    | true => simp
  | true => cases b with
    | false => simp
    | true => simp

/-- The two orders are the same on operands of the same sign, and opposite on others. -/
theorem ult_eq_slt_iff : x.ult y = x.slt y ↔ x.msb = y.msb := by
  rw [BitVec.slt_eq_ult]
  exact eq_xor_bne _ _ _

theorem ule_eq_sle_iff : x.ule y = x.sle y ↔ x.msb = y.msb := by
  rw [BitVec.sle_eq_ule]
  exact eq_xor_bne _ _ _

end Scc.Arithmetic
