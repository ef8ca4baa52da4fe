import Scc.Cc1.Identities

set_option linter.all false

/-! The reduction of a remainder by a power of two to the bits below it, which counts the
constant down in its symbol. -/
namespace Scc.Cc1.Fold
open Arithmetic

/-- The trees within a tree, itself included. -/
def Node.subtrees : Node → List Node
  | .nil => []
  | .mk op nconst type sym left right => .mk op nconst type sym left right :: (left.subtrees ++ right.subtrees)

/-- The reduced tree has the value and the effects of the tree before, and every expression
within the other ones keeps its value. -/
def Reduces {σ : Type} (M : Machine σ) (syms : Symbols) (np : Node) (others : List Node) (s : σ) (out : Int × σ) : Prop :=
  ∃ np' syms', reduce syms np = some (np', syms') ∧ eval M syms' np' s = some out ∧
    ∀ t ∈ others, ∀ e ∈ t.subtrees, eval M syms' e = eval M syms e

/-- The symbol of a remainder's right operand if it is counted down. -/
def reduced (syms : Symbols) (r : Node) : Option Nat := if power2node syms r then r.constant else none

section
variable {σ : Type} {M : Machine σ} {syms : Symbols} {tp : CType} {op : Op} {nconst : Bool} {sym : Option Nat}
  {l r np : Node} {s : σ} {out : Int × σ} {v w x : Int} {a : Nat}

theorem odd_iff {u : BitVec 64} : u &&& 1 = 1 ↔ u.toNat % 2 = 1 := by
  rw [← BitVec.toNat_inj, BitVec.toNat_and]
  exact iff_of_eq (congrArg (· = 1) (Nat.and_one_is_mod u.toNat))

theorem toNat_half (u : BitVec 64) : (u >>> 1).toNat = u.toNat / 2 := by
  rw [BitVec.toNat_ushiftRight, Nat.shiftRight_one]

theorem setBits_zero {steps : Nat} {u : BitVec 64} (small : u.toNat < 2 ^ steps) (empty : setBits steps u = 0) :
    u.toNat = 0 := by
  induction steps generalizing u with
  | zero => omega
  | succ steps ih =>
    rw [setBits] at empty
    split at empty
    case isTrue zero => rw [zero, BitVec.ofNat_eq_ofNat, BitVec.toNat_zero]
    case isFalse =>
      rw [Nat.add_eq_zero_iff] at empty
      have half := ih (by rw [toNat_half]; omega) empty.2
      have even : ¬u &&& 1 = 1 := fun odd => absurd empty.1 (by rw [if_pos odd]; decide)
      rw [toNat_half] at half
      rw [odd_iff] at even
      omega

/-- A number with one bit set is a power of two. -/
theorem setBits_one {steps : Nat} {u : BitVec 64} (small : u.toNat < 2 ^ steps) (one : setBits steps u = 1) :
    ∃ n, n < steps ∧ u.toNat = 2 ^ n := by
  induction steps generalizing u with
  | zero => cases one
  | succ steps ih =>
    have below : (u >>> 1).toNat < 2 ^ steps := by
      rw [toNat_half]
      omega
    rw [setBits] at one
    split at one
    case isTrue => cases one
    case isFalse =>
      split at one
      case isTrue odd =>
        have half := setBits_zero below (by omega)
        rw [toNat_half] at half
        rw [odd_iff] at odd
        exact ⟨0, Nat.succ_pos steps, by omega⟩
      case isFalse even =>
        obtain ⟨n, less, power⟩ := ih below (by omega)
        rw [toNat_half] at power
        rw [odd_iff] at even
        exact ⟨n + 1, Nat.succ_lt_succ less, by omega⟩

theorem power2node_constant (power : power2node syms r = true) (constant : r.constant = some a) :
    ∃ n, n < 64 ∧ (syms.get a).u.toNat = 2 ^ n := by
  rw [power2node, constant] at power
  simp only [Bool.and_eq_true, decide_eq_true_eq] at power
  exact setBits_one (syms.get a).u.isLt power.2

/-- The remainder by a power of two is what the low bits are, for the numbers that are not
negative and the multiples of it. -/
theorem low_eq_remainder {n : Nat} : v % 2 ^ n = v.tmod (2 ^ n) ↔ 0 ≤ v ∨ (2 ^ n : Int) ∣ v := by
  have positive : (0 : Int) < 2 ^ n := Int.pow_pos (by decide)
  rw [Int.tmod_eq_emod]
  split
  case isTrue either => simpa using either
  case isFalse neither =>
    refine iff_of_false ?_ neither
    omega

theorem subtree_constants {e : Node} (within : e ∈ np.subtrees) : ∀ a ∈ e.constants, a ∈ np.constants := by
  induction np with
  | nil => cases within
  | mk op nconst tp sym left right ihl ihr =>
    intro a known
    simp only [Node.subtrees, List.mem_cons, List.mem_append] at within
    rcases within with rfl | within | within
    · exact known
    · exact List.mem_append_left _ (List.mem_append_right _ (ihl within a known))
    · exact List.mem_append_right _ (ihr within a known)

theorem self_subtree (present : np ≠ .nil) : np ∈ np.subtrees := by
  cases np with
  | nil => exact absurd rfl present
  | mk op nconst tp sym left right => exact List.mem_cons_self

theorem constant_subtree (known : a ∈ np.constants) :
    ∃ tp left right, (.mk .OSYM true tp (some a) left right) ∈ np.subtrees := by
  induction np with
  | nil => cases known
  | mk op nconst tp sym left right ihl ihr =>
    simp only [Node.constants, List.mem_append] at known
    rcases known with (known | known) | known
    · split at known
      case isTrue leaf =>
        obtain ⟨rfl, rfl⟩ := leaf
        obtain rfl := Option.mem_toList.mp known
        exact ⟨tp, left, right, List.mem_cons_self ..⟩
      case isFalse => cases known
    · obtain ⟨tp, l, r, within⟩ := ihl known
      exact ⟨tp, l, r, List.mem_cons_of_mem _ (List.mem_append_left _ within)⟩
    · obtain ⟨tp, l, r, within⟩ := ihr known
      exact ⟨tp, l, r, List.mem_cons_of_mem _ (List.mem_append_right _ within)⟩

theorem counted_emod (integer : Integral tp) (u : BitVec 64) :
    (u - 1).toInt % 2 ^ (ints tp).width = (u.toInt - 1) % 2 ^ (ints tp).width := by
  rw [← Int.emod_emod_of_dvd _ integer.narrow, ← Int.emod_emod_of_dvd (u.toInt - 1) integer.narrow, BitVec.toInt_sub]
  exact congrArg (· % 2 ^ (ints tp).width) Int.bmod_emod

/-- A constant that is counted down has another value. -/
theorem counted_differs (integer : Integral tp) (u : BitVec 64) : inType tp (u - 1).toInt ≠ inType tp u.toInt := by
  rw [integer.inType_eq, integer.inType_eq, ne_eq, IntType.convert_inj, counted_emod integer]
  intro same
  have one := Int.emod_eq_emod_iff_emod_sub_eq_zero.mp same
  have wide : (2 : Int) ^ 1 ≤ 2 ^ (ints tp).width := by
    exact_mod_cast Nat.pow_le_pow_right (by decide) integer.wide
  have divides := Int.le_of_dvd (a := 2 ^ (ints tp).width) (b := 1) (by decide)
    (Int.dvd_neg.mp (by
      have step : u.toInt - 1 - u.toInt = -1 := by omega
      rw [step] at one
      exact Int.dvd_of_emod_eq_zero one))
  omega

/-- The value of the mask that takes the place of a power of two. -/
theorem mask_value {n : Nat} (integer : Integral tp) {u : BitVec 64} (power : u.toNat = 2 ^ n)
    (below : n < (ints tp).width) : inType tp (u - 1).toInt % 2 ^ (ints tp).width = 2 ^ n - 1 := by
  have less : (2 : Int) ^ n < 2 ^ (ints tp).width := by
    exact_mod_cast Nat.pow_lt_pow_right (by decide) below
  have positive : (0 : Int) < 2 ^ n := Int.pow_pos (by decide)
  have bits : u.toInt % 2 ^ (ints tp).width = 2 ^ n := by
    rw [← Int.emod_emod_of_dvd _ integer.narrow, toInt_emod, power]
    push_cast
    exact Int.emod_eq_of_lt (Int.le_of_lt positive) less
  rw [integer.inType_eq, IntType.convert_emod, counted_emod integer, ← Int.emod_sub_emod, bits]
  apply Int.emod_eq_of_lt
  all_goals omega

/-- The right operand of a remainder, as a power of two. -/
theorem power_value {n : Nat} (integer : Integral tp) {u : BitVec 64} (power : u.toNat = 2 ^ n) :
    inType tp u.toInt = (ints tp).convert (2 ^ n) := by
  rw [integer.inType_eq]
  apply IntType.convert_congr
  rw [← Int.emod_emod_of_dvd _ integer.narrow, toInt_emod, power]
  push_cast
  rfl

/-- The trees whose reduction is harmless: the left operand is not negative or a multiple of the
constant, and nothing else refers to the symbol of the constant. -/
def SafeReduction (M : Machine σ) (syms : Symbols) (l r : Node) (others : List Node) (s : σ) : Prop :=
  ∀ a, reduced syms r = some a →
    (∀ v s', eval M syms l s = some (v, s') → 0 ≤ v ∨ ((syms.get a).u.toNat : Int) ∣ v) ∧
      ∀ t ∈ l :: others, a ∉ t.constants

theorem reduce_reduced (constant : reduced syms r = some a) :
    reduce syms (.mk .OMOD nconst tp sym l r) =
      some (.mk .OBAND nconst tp sym l r, syms.setu a ((syms.get a).u - 1)) := by
  unfold reduced at constant
  split at constant
  case isTrue power => simp only [reduce, power, constant]
  case isFalse => cases constant

theorem reduce_unreduced (other : reduced syms r = none) :
    reduce syms (.mk .OMOD nconst tp sym l r) = some (.mk .OMOD nconst tp sym l r, syms) := by
  unfold reduced at other
  split at other
  case isTrue power => simp only [reduce, power, other]
  case isFalse power => simp only [reduce, power]

/-- Counting a symbol down changes the expressions that refer to it and no others. -/
theorem counted_keeps (t : Node) (typed : ∀ e ∈ t.subtrees, e.constant = some a → Integral e.type) (s : σ) :
    (∀ e ∈ t.subtrees, eval M (syms.setu a ((syms.get a).u - 1)) e = eval M syms e) ↔ a ∉ t.constants := by
  constructor
  · intro keeps known
    obtain ⟨tp, l, r, within⟩ := constant_subtree known
    have integer : Integral tp := typed _ within rfl
    have same := congrFun (keeps _ within) s
    rw [eval_constant, eval_constant, integer.constantValue, integer.constantValue] at same
    have value := (Prod.mk.inj (Option.some.inj same)).1
    simp only [Symbols.setu, if_true] at value
    exact counted_differs integer _ value
  · intro unknown e within
    refine (eval_congr e fun b known => ?_).1
    have other : b ≠ a := by
      rintro rfl
      exact unknown (subtree_constants within b known)
    simp only [Symbols.setu, if_neg other]

/-- The bits that take the place of a remainder, where it is defined. -/
theorem remainder_bits {n : Nat} {u : BitVec 64} (integer : Integral tp) (power : u.toNat = 2 ^ n)
    (own : inType tp v = v) (evaluated : binary M tp .OMOD v (inType tp u.toInt) = some x) :
    inType tp x = v.tmod (2 ^ n) ∧
      ∃ y, binary M tp .OBAND v (inType tp (u - 1).toInt) = some y ∧ inType tp y = v % 2 ^ n := by
  rw [binary, if_pos integer.integral, intBinary, power_value integer power, IntType.mod] at evaluated
  obtain ⟨q, quotient, rfl⟩ := Option.map_eq_some_iff.mp evaluated
  have below : n < (ints tp).width := by
    refine Nat.lt_of_not_le fun above => ?_
    rw [IntType.convert_power_zero above, IntType.div, if_pos rfl] at quotient
    cases quotient
  have fits := integer.fits.mp own
  constructor
  · have same : v.tmod ((ints tp).convert (2 ^ n)) = v.tmod (2 ^ n) := by
      rcases IntType.convert_power below with same | same
      · rw [same]
      · rw [same, Int.tmod_neg]
    rw [same]
    exact integer.fits.mpr (fits.tmod _)
  · refine ⟨_, if_pos integer.integral, ?_⟩
    have positive : (0 : Int) < 2 ^ n := Int.pow_pos (by decide)
    rw [IntType.bitwise_low below (mask_value integer power below), integer.fits]
    exact IntType.fits_low below (Int.emod_nonneg v (Int.ne_of_gt positive)) (Int.emod_lt_of_pos v positive)

/-- A remainder by a power of two keeps its value if the left operand is not negative or a multiple
of it, and the other expressions keep theirs if they do not refer to the symbol of the constant. -/
theorem reduce_keeps {others : List Node} (integer : Integral tp) (left : l.type = tp) (right : r.type = tp)
    (sane : Sane syms r)
    (typed : ∀ a, reduced syms r = some a → ∀ t ∈ l :: others, ∀ e ∈ t.subtrees, e.constant = some a → Integral e.type)
    (value : eval M syms (.mk .OMOD nconst tp sym l r) s = some out) :
    Reduces M syms (.mk .OMOD nconst tp sym l r) (l :: others) s out ↔ SafeReduction M syms l r others s := by
  unfold Reduces SafeReduction
  cases known : reduced syms r with
  | none =>
    rw [reduce_unreduced known]
    exact iff_of_true ⟨_, _, rfl, value, fun _ _ _ _ => rfl⟩ nofun
  | some a =>
    obtain ⟨power, constant⟩ : power2node syms r = true ∧ r.constant = some a := by
      unfold reduced at known
      split at known
      case isTrue power => exact ⟨power, known⟩
      case isFalse => cases known
    obtain ⟨n, -, bits⟩ := power2node_constant power constant
    obtain ⟨⟨tp', l', r', rfl⟩, -⟩ := sane a constant
    obtain rfl : tp' = tp := right
    obtain ⟨o, s'⟩ := out
    have operand : Node.mk .OSYM true tp' (some a) l' r' ≠ .nil := nofun
    obtain ⟨v, s₁, w, x, leftValue, rightValue, evaluated, result⟩ :=
      (eval_binary_some (by decide) operand).mp value
    cases rightValue
    rw [integer.constantValue] at evaluated
    have own := eval_inType l leftValue
    rw [left] at own
    obtain ⟨before, y, reduced_, after⟩ := remainder_bits integer bits own evaluated
    have others_keep : (∀ t ∈ l :: others, ∀ e ∈ t.subtrees,
        eval M (syms.setu a ((syms.get a).u - 1)) e = eval M syms e) ↔ ∀ t ∈ l :: others, a ∉ t.constants :=
      forall₂_congr fun t member => counted_keeps t (typed a known t member) s
    have left_nonneg : (∀ v' s₂, eval M syms l s = some (v', s₂) → 0 ≤ v' ∨ ((syms.get a).u.toNat : Int) ∣ v') ↔
        v % 2 ^ n = v.tmod (2 ^ n) := by
      rw [low_eq_remainder, bits]
      push_cast
      constructor
      · exact fun every => every v s' leftValue
      · intro safe v' s₂ value'
        cases leftValue.symm.trans value'
        exact safe
    -- the left operand itself is one of the expressions that must keep their value
    have bits_value (keep : ∀ t ∈ l :: others, ∀ e ∈ t.subtrees,
        eval M (syms.setu a ((syms.get a).u - 1)) e = eval M syms e) :
        eval M (syms.setu a ((syms.get a).u - 1)) (.mk .OBAND nconst tp' sym l (.mk .OSYM true tp' (some a) l' r')) s =
          some (v % 2 ^ n, s') := by
      have counted : eval M (syms.setu a ((syms.get a).u - 1)) (.mk .OSYM true tp' (some a) l' r') s' =
          some (inType tp' ((syms.get a).u - 1).toInt, s') := by
        rw [eval_constant, integer.constantValue]
        simp only [Symbols.setu, if_true]
      have left' : eval M (syms.setu a ((syms.get a).u - 1)) l s = some (v, s') := by
        rw [keep l List.mem_cons_self l (self_subtree (by rintro rfl; cases leftValue))]
        exact leftValue
      exact (eval_binary_some (by decide) operand).mpr ⟨v, s', _, y, left', counted, reduced_, after.symm⟩
    rw [reduce_reduced known]
    simp only [Option.some.injEq, forall_eq', left_nonneg, ← others_keep]
    constructor
    · rintro ⟨np', syms', reduced', same, keep⟩
      cases reduced'
      have equal := (Prod.mk.inj (Option.some.inj ((bits_value keep).symm.trans same))).1
      exact ⟨equal.trans (result.trans before), keep⟩
    · rintro ⟨same, keep⟩
      refine ⟨_, _, rfl, ?_, keep⟩
      rw [bits_value keep, same, ← before, ← result]

end

/-- `-3 % 2` comes out as 1, and after `x % A` an enumerator `A` of 4 is 3. -/
theorem reduce_differs :
    eval oneVariable (twoConstants ⟨inttype, true, 2⟩ ⟨inttype, false, 0⟩)
        (node .OMOD inttype (varnode 1 inttype) (constnode 0 inttype)) (-3) = some (-1, -3) ∧
      ¬Reduces oneVariable (twoConstants ⟨inttype, true, 2⟩ ⟨inttype, false, 0⟩)
        (node .OMOD inttype (varnode 1 inttype) (constnode 0 inttype)) [] (-3) (-1, -3) ∧
      eval oneVariable (twoConstants ⟨inttype, true, 4⟩ ⟨inttype, false, 0⟩)
        (node .OMOD inttype (varnode 1 inttype) (constnode 0 inttype)) 6 = some (2, 6) ∧
      ¬Reduces oneVariable (twoConstants ⟨inttype, true, 4⟩ ⟨inttype, false, 0⟩)
        (node .OMOD inttype (varnode 1 inttype) (constnode 0 inttype)) [constnode 0 inttype] 6 (2, 6) := by
  refine ⟨by decide, ?_, by decide, ?_⟩
  · rintro ⟨np, syms, reduced, value, -⟩
    cases reduced
    exact absurd value (by decide)
  · rintro ⟨np, syms, reduced, -, keep⟩
    cases reduced
    have same := congrFun (keep _ (List.mem_singleton.mpr rfl) _ List.mem_cons_self) 6
    exact absurd same (by decide)

theorem reduce_keeps_positive :
    Reduces oneVariable (twoConstants ⟨inttype, true, 8⟩ ⟨inttype, false, 0⟩)
        (.mk .OMOD false inttype none (varnode 1 inttype) (constnode 0 inttype)) [varnode 1 inttype] 21 (5, 21) ↔
      SafeReduction oneVariable (twoConstants ⟨inttype, true, 8⟩ ⟨inttype, false, 0⟩) (varnode 1 inttype)
        (constnode 0 inttype) [] 21 := by
  refine reduce_keeps ⟨by decide, by decide⟩ rfl rfl ?_ ?_ (by decide)
  · intro a same
    cases same
    exact ⟨⟨_, _, _, rfl⟩, by decide⟩
  · intro a _ t member e within constant
    cases List.mem_singleton.mp member
    cases List.mem_singleton.mp within
    cases constant

end Scc.Cc1.Fold
