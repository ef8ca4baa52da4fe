import Mathlib.Algebra.Group.Nat.Defs
import Mathlib.Algebra.Group.Int.Defs

set_option linter.all false

/-! Integer types: the values of a type, the conversion to it, and the operators on its
values. `none` stands for an operation that has no result. -/
namespace Scc.Arithmetic

structure IntType where
  width : Nat
  signed : Bool
  deriving DecidableEq, Repr

namespace IntType

def min (t : IntType) : Int := if t.signed then -2 ^ (t.width - 1) else 0

def max (t : IntType) : Int := if t.signed then 2 ^ (t.width - 1) - 1 else 2 ^ t.width - 1

def Fits (t : IntType) (i : Int) : Prop := t.min ≤ i ∧ i ≤ t.max

instance (t : IntType) (i : Int) : Decidable (t.Fits i) := inferInstanceAs (Decidable (_ ∧ _))

/-- The value of the type that is congruent to `i`. -/
def convert (t : IntType) (i : Int) : Int :=
  if t.signed then i.bmod (2 ^ t.width) else i % 2 ^ t.width

/-- What an operator gives whose mathematical result is `i`. -/
def result (t : IntType) (i : Int) : Option Int :=
  if t.signed then if t.Fits i then some i else none else some (i % 2 ^ t.width)

def add (t : IntType) (l r : Int) : Option Int := t.result (l + r)
def sub (t : IntType) (l r : Int) : Option Int := t.result (l - r)
def mul (t : IntType) (l r : Int) : Option Int := t.result (l * r)
def neg (t : IntType) (l : Int) : Option Int := t.result (-l)

def div (t : IntType) (l r : Int) : Option Int :=
  if r = 0 then none else t.result (l.tdiv r)

/-- A remainder has the quotient of its operands to go with it. -/
def mod (t : IntType) (l r : Int) : Option Int :=
  (t.div l r).map fun _ => l.tmod r

def shl (t : IntType) (l r : Int) : Option Int :=
  if r < 0 ∨ t.width ≤ r ∨ l < 0 then none else t.result (l * 2 ^ r.toNat)

def shr (t : IntType) (l r : Int) : Option Int :=
  if r < 0 ∨ t.width ≤ r then none else some (l / 2 ^ r.toNat)

def cpl (t : IntType) (l : Int) : Int := t.convert (-l - 1)

/-- An operator on the bits of its operands. -/
def bitwise (t : IntType) (f : (w : Nat) → BitVec w → BitVec w → BitVec w) (l r : Int) : Int :=
  t.convert (f t.width (BitVec.ofInt t.width l) (BitVec.ofInt t.width r)).toInt

variable {t : IntType} {i : Int}

theorem fits_signed (signed : t.signed = true) : t.Fits i ↔ -2 ^ (t.width - 1) ≤ i ∧ i < 2 ^ (t.width - 1) := by
  simp only [Fits, min, max, signed, ↓reduceIte]
  omega

theorem fits_unsigned (unsigned : t.signed = false) : t.Fits i ↔ 0 ≤ i ∧ i < 2 ^ t.width := by
  simp only [Fits, min, max, unsigned, Bool.false_eq_true, ↓reduceIte]
  omega

theorem result_fits (signed : t.signed = true) (fits : t.Fits i) : t.result i = some i := by
  rw [result, if_pos signed, if_pos fits]

theorem result_undefined (signed : t.signed = true) (outside : ¬t.Fits i) : t.result i = none := by
  rw [result, if_pos signed, if_neg outside]

theorem result_unsigned (unsigned : t.signed = false) (i : Int) : t.result i = some (i % 2 ^ t.width) := by
  simp [result, unsigned]

theorem convert_fits (wide : 0 < t.width) (fits : t.Fits i) : t.convert i = i := by
  have double : (2 : Int) ^ t.width = 2 * 2 ^ (t.width - 1) := by
    rw [← pow_succ', Nat.sub_add_cancel wide]
  cases signed : t.signed with
  | true =>
    obtain ⟨low, high⟩ := (fits_signed signed).mp fits
    rw [convert, if_pos signed]
    apply Int.bmod_eq_of_le_mul_two
    all_goals push_cast; omega
  | false =>
    obtain ⟨low, high⟩ := (fits_unsigned signed).mp fits
    rw [convert, if_neg (by simp [signed]), Int.emod_eq_of_lt low high]

theorem fits_convert (wide : 0 < t.width) (i : Int) : t.Fits (t.convert i) := by
  have double : (2 : Int) ^ t.width = 2 * 2 ^ (t.width - 1) := by
    rw [← pow_succ', Nat.sub_add_cancel wide]
  have positive : (0 : Int) < 2 ^ (t.width - 1) := Int.pow_pos (by decide)
  cases signed : t.signed with
  | true =>
    rw [fits_signed signed, convert, if_pos signed]
    have low := Int.le_bmod (x := i) (m := 2 ^ t.width) (Nat.two_pow_pos _)
    have high := Int.bmod_lt (x := i) (m := 2 ^ t.width) (Nat.two_pow_pos _)
    push_cast at low high
    omega
  | false =>
    rw [fits_unsigned signed, convert, if_neg (by simp [signed])]
    exact ⟨Int.emod_nonneg _ (by omega), Int.emod_lt_of_pos _ (by omega)⟩

/-- Two conversions of congruent numbers are one. -/
theorem convert_congr {j : Int} (same : i % 2 ^ t.width = j % 2 ^ t.width) : t.convert i = t.convert j := by
  have bmod (k : Int) : k.bmod (2 ^ t.width) = (k % 2 ^ t.width).bmod (2 ^ t.width) := by
    have h := Int.emod_bmod k (2 ^ t.width)
    push_cast at h
    exact h.symm
  rw [convert, convert, bmod i, bmod j, same]

theorem convert_emod (t : IntType) (i : Int) : t.convert i % 2 ^ t.width = i % 2 ^ t.width := by
  unfold convert
  split
  case isTrue => exact_mod_cast Int.bmod_emod
  case isFalse => exact Int.emod_emod_of_dvd _ (Int.dvd_refl _)

/-- The conversion identifies the congruent numbers and no others. -/
theorem convert_inj {j : Int} : t.convert i = t.convert j ↔ i % 2 ^ t.width = j % 2 ^ t.width :=
  ⟨fun same => by rw [← convert_emod t i, same, convert_emod], convert_congr⟩

/-- The value of the low bits of a number. -/
theorem convert_ofInt (t : IntType) (i : Int) : t.convert (BitVec.ofInt t.width i).toInt = t.convert i := by
  rw [convert_inj, BitVec.toInt_ofInt]
  exact_mod_cast Int.bmod_emod

/-- The conversion keeps the low bits of a number. -/
theorem ofInt_convert (t : IntType) (i : Int) : BitVec.ofInt t.width (t.convert i) = BitVec.ofInt t.width i := by
  apply BitVec.eq_of_toInt_eq
  rw [BitVec.toInt_ofInt, BitVec.toInt_ofInt]
  exact convert_congr (t := ⟨t.width, true⟩) (convert_emod t i)

/-- The values of a signed type are values of each wider one. -/
theorem Fits.widen {v w : Nat} (le : w ≤ v) (fits : (IntType.mk w true).Fits i) : (IntType.mk v true).Fits i := by
  have power : (2 : Int) ^ (w - 1) ≤ 2 ^ (v - 1) := by
    exact_mod_cast Nat.pow_le_pow_right (by decide) (by omega)
  rw [fits_signed rfl] at fits ⊢
  dsimp only at fits ⊢
  omega

theorem toInt_ofInt {w : Nat} (wide : 0 < w) (fits : (IntType.mk w true).Fits i) :
    (BitVec.ofInt w i).toInt = i := by
  rw [BitVec.toInt_ofInt]
  exact convert_fits (t := ⟨w, true⟩) wide fits

theorem ofInt_signExtend {v w : Nat} (wide : 0 < w) (le : w ≤ v) (fits : (IntType.mk w true).Fits i) :
    BitVec.ofInt v i = (BitVec.ofInt w i).signExtend v := by
  apply BitVec.eq_of_toInt_eq
  rw [BitVec.toInt_signExtend_of_le le, toInt_ofInt wide fits, toInt_ofInt (by omega) (fits.widen le)]

theorem fits_toInt {w : Nat} (x : BitVec w) : (IntType.mk w true).Fits x.toInt := by
  rw [fits_signed rfl]
  have low := BitVec.le_toInt x
  have high := BitVec.toInt_lt (x := x)
  exact ⟨low, high⟩

/-- An operator on bits that commutes with sign extension does in a wider type what it does
in a narrow one. -/
theorem bitwise_widen {v w : Nat} {l r : Int} (wide : 0 < w) (le : w ≤ v)
    (f : (n : Nat) → BitVec n → BitVec n → BitVec n)
    (extends_ : ∀ x y, (f w x y).signExtend v = f v (x.signExtend v) (y.signExtend v))
    (left : (IntType.mk w true).Fits l) (right : (IntType.mk w true).Fits r) :
    (IntType.mk v true).bitwise f l r = (IntType.mk w true).bitwise f l r := by
  have narrow := fits_toInt (f w (BitVec.ofInt w l) (BitVec.ofInt w r))
  rw [bitwise, bitwise, ofInt_signExtend wide le left, ofInt_signExtend wide le right, ← extends_,
    BitVec.toInt_signExtend_of_le le, convert_fits wide narrow, convert_fits (by dsimp only; omega) (narrow.widen le)]

theorem fits_low {n : Nat} (below : n < t.width) {j : Int} (nonneg : 0 ≤ j) (small : j < 2 ^ n) : t.Fits j := by
  have power : (2 : Int) ^ n ≤ 2 ^ (t.width - 1) := by
    exact_mod_cast Nat.pow_le_pow_right (by decide) (by omega)
  have power' : (2 : Int) ^ n ≤ 2 ^ t.width := by
    exact_mod_cast Nat.pow_le_pow_right (by decide) (by omega)
  cases signed : t.signed with
  | true =>
    rw [fits_signed signed]
    omega
  | false =>
    rw [fits_unsigned signed]
    omega

/-- The mask of the low `n` bits takes a number modulo `2 ^ n`. -/
theorem bitwise_low {n : Nat} {l m : Int} (below : n < t.width) (mask : m % 2 ^ t.width = 2 ^ n - 1) :
    t.bitwise (fun _ a b => a &&& b) l m = l % 2 ^ n := by
  have power (k : Nat) : (2 : Int) ^ k = (2 ^ k : Nat) := by
    push_cast
    rfl
  have low : ((BitVec.ofInt t.width l &&& BitVec.ofInt t.width m).toNat : Int) = l % 2 ^ n := by
    have ones : (m % (2 ^ t.width : Nat)).toNat = 2 ^ n - 1 := by
      have positive := Nat.two_pow_pos n
      rw [← power, mask, power]
      omega
    have divides : ((2 ^ n : Nat) : Int) ∣ (2 ^ t.width : Nat) := by
      exact_mod_cast Nat.pow_dvd_pow 2 (Nat.le_of_lt below)
    have nonneg := Int.emod_nonneg l (b := (2 ^ t.width : Nat)) (by have := Nat.two_pow_pos t.width; omega)
    rw [BitVec.toNat_and, BitVec.toNat_ofInt, BitVec.toNat_ofInt, ones, Nat.and_two_pow_sub_one_eq_mod, Int.natCast_emod,
      Int.toNat_of_nonneg nonneg, Int.emod_emod_of_dvd l divides, power]
  have value : t.convert (BitVec.ofInt t.width l &&& BitVec.ofInt t.width m).toInt = t.convert (l % 2 ^ n) := by
    apply convert_congr
    rw [← low, BitVec.toInt_eq_toNat_bmod]
    exact_mod_cast Int.bmod_emod
  have positive : (0 : Int) < 2 ^ n := Int.pow_pos (by decide)
  rw [bitwise, value, convert_fits (by omega) (fits_low below (Int.emod_nonneg l (by omega)) (Int.emod_lt_of_pos l positive))]

/-- A power of two as a value of the type: the sign bit of a signed type is a negative number. -/
theorem convert_power {n : Nat} (below : n < t.width) : t.convert (2 ^ n) = 2 ^ n ∨ t.convert (2 ^ n) = -2 ^ n := by
  have positive : (0 : Int) < 2 ^ n := Int.pow_pos (by decide)
  have double : (2 : Int) ^ (n + 1) = 2 * 2 ^ n := by
    rw [pow_succ']
  by_cases sign : t.signed = true ∧ n + 1 = t.width
  · right
    have negative : t.Fits (-2 ^ n) := by
      rw [fits_signed sign.1, ← sign.2, Nat.add_sub_cancel]
      omega
    rw [← convert_fits (by omega) negative]
    apply convert_congr
    rw [Int.emod_eq_emod_iff_emod_sub_eq_zero, ← sign.2, double]
    have sum : (2 : Int) ^ n - -2 ^ n = 2 * 2 ^ n := by
      omega
    rw [sum, Int.emod_self]
  · left
    apply convert_fits (by omega)
    cases signed : t.signed with
    | true =>
      have lower : n + 1 ≠ t.width := fun same => sign ⟨signed, same⟩
      apply fits_low (n := n + 1)
      all_goals omega
    | false =>
      have power : (2 : Int) ^ (n + 1) ≤ 2 ^ t.width := by
        exact_mod_cast Nat.pow_le_pow_right (by decide) below
      rw [fits_unsigned signed]
      omega

theorem convert_power_zero {n : Nat} (above : t.width ≤ n) : t.convert (2 ^ n) = 0 := by
  have zero : t.convert 0 = 0 := by
    simp [convert]
  rw [← zero]
  apply convert_congr
  rw [Int.zero_emod]
  apply Int.emod_eq_zero_of_dvd
  exact_mod_cast Nat.pow_dvd_pow 2 above

/-- The only quotient out of range is that of the minimum by -1. -/
theorem tdiv_fits {l r : Int} (signed : t.signed = true) (fits : t.Fits l) (nonzero : r ≠ 0) :
    t.Fits (l.tdiv r) ↔ ¬(l = t.min ∧ r = -1) := by
  rw [fits_signed signed] at fits ⊢
  have minimum : t.min = -2 ^ (t.width - 1) := if_pos signed
  rw [minimum]
  have small := Int.natAbs_tdiv_le_natAbs l r
  constructor
  · rintro ⟨low, high⟩ ⟨rfl, rfl⟩
    rw [Int.tdiv_neg, Int.tdiv_one] at high
    omega
  · intro other
    by_cases one : r = -1
    · subst one
      rw [Int.tdiv_neg, Int.tdiv_one]
      omega
    · by_cases extreme : l = -2 ^ (t.width - 1)
      · by_cases unit : r = 1
        · subst unit
          rw [Int.tdiv_one]
          omega
        · have half : (l.tdiv r).natAbs ≤ l.natAbs / 2 := by
            rw [Int.natAbs_tdiv]
            exact Nat.div_le_div_left (by omega) (by decide)
          omega
      · omega

theorem tmod_fits {l r : Int} (signed : t.signed = true) (fits : t.Fits l) : t.Fits (l.tmod r) := by
  rw [fits_signed signed] at fits ⊢
  have positive : (0 : Int) < 2 ^ (t.width - 1) := Int.pow_pos (by decide)
  have size := Int.natAbs_tmod l r
  have le : l.natAbs % r.natAbs ≤ l.natAbs := Nat.mod_le _ _
  rcases Int.le_total 0 l with nonneg | nonpos
  · have sign := Int.tmod_nonneg r nonneg
    omega
  · have sign := Int.tmod_nonneg r (Int.neg_nonneg_of_nonpos nonpos)
    rw [Int.neg_tmod] at sign
    omega

theorem Fits.tmod {l : Int} (fits : t.Fits l) (r : Int) : t.Fits (l.tmod r) := by
  cases signed : t.signed with
  | true => exact tmod_fits signed fits
  | false =>
    rw [fits_unsigned signed] at fits ⊢
    have size := Int.natAbs_tmod l r
    have le : l.natAbs % r.natAbs ≤ l.natAbs := Nat.mod_le _ _
    have sign := Int.tmod_nonneg r fits.1
    omega

theorem ediv_fits {d : Int} (signed : t.signed = true) (fits : t.Fits i) (positive : 0 < d) : t.Fits (i / d) := by
  rw [fits_signed signed] at fits ⊢
  have power : (0 : Int) < 2 ^ (t.width - 1) := Int.pow_pos (by decide)
  rcases Int.le_total 0 i with nonneg | nonpos
  · have low := Int.ediv_nonneg nonneg (Int.le_of_lt positive)
    have high := Int.ediv_le_self d nonneg
    omega
  · have high := Int.ediv_le_ediv positive nonpos
    rw [Int.zero_ediv] at high
    have low : i ≤ i / d := by
      rw [Int.le_ediv_iff_mul_le positive]
      simpa using Int.mul_le_mul_of_nonpos_left nonpos (show 1 ≤ d by omega)
    omega

/-! Results are values of the type. -/

theorem fits_result {x : Int} (defined : t.result i = some x) : t.Fits x := by
  unfold result at defined
  split at defined
  case isTrue =>
    split at defined
    case isTrue fits =>
      cases defined
      exact fits
    case isFalse => cases defined
  case isFalse unsigned =>
    cases defined
    rw [fits_unsigned (Bool.not_eq_true _ ▸ unsigned)]
    have positive : (0 : Int) < 2 ^ t.width := Int.pow_pos (by decide)
    exact ⟨Int.emod_nonneg i (by omega), Int.emod_lt_of_pos i positive⟩

theorem fits_shl {l r x : Int} (defined : t.shl l r = some x) : (0 ≤ r ∧ r < t.width) ∧ t.Fits x := by
  unfold shl at defined
  split at defined
  case isTrue => cases defined
  case isFalse inside => exact ⟨by omega, fits_result defined⟩

/-- A shift to the right comes closer to 0 or stays. -/
theorem fits_shr {l r x : Int} (fits : t.Fits l) (defined : t.shr l r = some x) :
    (0 ≤ r ∧ r < t.width) ∧ t.Fits x := by
  unfold shr at defined
  split at defined
  case isTrue => cases defined
  case isFalse inside =>
    cases defined
    refine ⟨by omega, ?_⟩
    have positive : (0 : Int) < 2 ^ r.toNat := Int.pow_pos (by decide)
    have whole := Int.mul_ediv_add_emod l (2 ^ r.toNat)
    cases signed : t.signed with
    | true =>
      rw [fits_signed signed] at fits ⊢
      have half : (0 : Int) < 2 ^ (t.width - 1) := Int.pow_pos (by decide)
      have scaled : (2 : Int) ^ (t.width - 1) * 1 ≤ 2 ^ (t.width - 1) * 2 ^ r.toNat :=
        Int.mul_le_mul_of_nonneg_left positive (Int.le_of_lt half)
      rw [Int.mul_one] at scaled
      constructor
      · rw [Int.le_ediv_iff_mul_le positive, Int.neg_mul]
        omega
      · rw [Int.ediv_lt_iff_lt_mul positive]
        omega
    | false =>
      rw [fits_unsigned signed] at fits ⊢
      refine ⟨Int.ediv_nonneg fits.1 (by omega), ?_⟩
      have le : l / 2 ^ r.toNat ≤ l := Int.ediv_le_self _ fits.1
      omega

end IntType

/-- `a && b` where `b` may have no value. -/
def land (a : Bool) (b : Option Bool) : Option Bool := if a then b else some false

/-- `c || ...` where a condition may have no value. -/
def lor : List (Option Bool) → Option Bool
  | [] => some false
  | some false :: rest => lor rest
  | first :: _ => first

theorem land_some {a : Bool} {b : Option Bool} {c : Bool} (value : a = true → b = some c) :
    land a b = some (a && c) := by
  cases a with
  | false => rfl
  | true => exact value rfl

/-- A disjunction all of whose conditions have values. -/
theorem lor_some (cs : List Bool) : lor (cs.map some) = some (cs.any id) := by
  induction cs with
  | nil => rfl
  | cons c cs ih =>
    cases c with
    | false => exact ih
    | true => rfl

end Scc.Arithmetic
