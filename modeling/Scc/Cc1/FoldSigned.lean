import Scc.Cc1.Fold

set_option linter.all false

/-! What folding does with the operands of a signed type: each validator against the
mathematical result, and exactly when the folded operation is that of C. -/
namespace Scc.Cc1.Fold
open Arithmetic

/-- The values of an integer type. -/
def ints (tp : CType) : IntType := ⟨8 * tp.size, tp.tsigned⟩

structure Signed (tp : CType) : Prop where
  op : tp.op = .INT
  tsigned : tp.tsigned = true
  size : tp.size ∈ [1, 2, 4, 8]

/-- The mathematical result of an operator on values of `t`, where C gives it one. -/
def exact (t : IntType) (op : Op) (l r : Int) : Option Int :=
  match op with
  | .OADD => some (l + r)
  | .OSUB => some (l - r)
  | .OMUL => some (l * r)
  | .ODIV => if r = 0 then none else some (l.tdiv r)
  | .OMOD => if r = 0 then none else some (l.tmod r)
  | .OSHL => if r < 0 ∨ t.width ≤ r ∨ l < 0 then none else some (l * 2 ^ r.toNat)
  | .OSHR => if r < 0 ∨ t.width ≤ r then none else some (l / 2 ^ r.toNat)
  | .OBAND => some (t.bitwise (fun _ a b => a &&& b) l r)
  | .OBXOR => some (t.bitwise (fun _ a b => a ^^^ b) l r)
  | .OBOR => some (t.bitwise (fun _ a b => a ||| b) l r)
  | .OAND => some (if l ≠ 0 ∧ r ≠ 0 then 1 else 0)
  | .OOR => some (if l ≠ 0 ∨ r ≠ 0 then 1 else 0)
  | .OLT => some (if l < r then 1 else 0)
  | .OGT => some (if r < l then 1 else 0)
  | .OGE => some (if r ≤ l then 1 else 0)
  | .OLE => some (if l ≤ r then 1 else 0)
  | .OEQ => some (if l = r then 1 else 0)
  | .ONE => some (if l = r then 0 else 1)
  | .ONEG => some (if l = 0 then 1 else 0)
  | .OSNEG => some (-l)
  | .OCPL => some (-l - 1)
  | _ => none

/-- The operation is refused, or its exact result is stored and is a value of the type. -/
def Exact (t : IntType) (op : Op) (l r : Int) : Option (Folding Int) → Prop
  | none => False
  | some .refused => True
  | some (.stored i) => exact t op l r = some i ∧ t.Fits i

/-- The operands with which the operator is folded as C defines it. -/
def Safe (tp : CType) (op : Op) (l r : Int) : Prop :=
  match op with
  | .OSUB => r = (ints tp).min → l ≠ 0 ∧ tp.size ≠ 8
  | .OMUL => tp.size = 8 → l < 0 → r < 0 → l ≠ (ints tp).min ∧ r ≠ (ints tp).min
  | .ODIV => tp.size ≠ 8 → l = (ints tp).min → r ≠ -1
  | .OSHL => 0 ≤ r → r < 8 * tp.size →
    r < 31 ∧ (l < 0 → l * 2 ^ r.toNat < (ints tp).min) ∧ (l = 1 → r + 1 < 8 * tp.size)
  | .OSNEG => l ≠ (ints tp).min
  | _ => True

variable {tp : CType} {l r : Int}

section
attribute [local simp] exact Exact Safe validate getlimits addi subi muli divi lshi
end

/-- The limits of a signed type are its least and its greatest value. The negation of the
least one in `TUINT` is no value of the type, but for 8 bytes, where it is that value. -/
theorem Signed.limits (h : Signed tp) : ∃ lim, getlimits tp = some lim ∧
    lim.max.toInt = (ints tp).max ∧ lim.min.toInt = (ints tp).min ∧
    (-lim.min).toInt = if tp.size = 8 then (ints tp).min else -(ints tp).min := by
  obtain ⟨op, tsigned, size⟩ := h
  simp only [List.mem_cons, List.not_mem_nil, or_false] at size
  unfold getlimits ints
  rw [op, tsigned]
  rcases size with size | size | size | size
  all_goals
    rw [size]
    exact ⟨_, rfl, by decide, by decide, by decide⟩

/-- The bounds of the type as numbers. -/
theorem Signed.bounds (h : Signed tp) : ∃ m : Int, (∀ i, (ints tp).Fits i ↔ -m ≤ i ∧ i < m) ∧
    (ints tp).min = -m ∧ (ints tp).max = m - 1 ∧ 1 < m ∧ m ≤ 2 ^ 63 ∧ (tp.size = 8 ↔ m = 2 ^ 63) := by
  refine ⟨2 ^ ((ints tp).width - 1), fun i => IntType.fits_signed h.tsigned, if_pos h.tsigned, if_pos h.tsigned, ?_⟩
  have size := h.size
  simp only [List.mem_cons, List.not_mem_nil, or_false] at size
  dsimp only [ints]
  rcases size with size | size | size | size
  all_goals
    rw [size]
    decide

theorem tint_fits {i : Int} : tint.Fits i ↔ -2 ^ 63 ≤ i ∧ i < 2 ^ 63 :=
  IntType.fits_signed rfl

theorem tint_result {i : Int} (low : -2 ^ 63 ≤ i) (high : i < 2 ^ 63) : tint.result i = some i :=
  IntType.result_fits rfl (tint_fits.mpr ⟨low, high⟩)

/-- The validator of a sum has a value for all operands. -/
theorem addi_value (h : Signed tp) (right : tint.Fits r) :
    addi l r tp = some (decide (l = 0 ∨ r = 0 ∨ l < 0 ∧ 0 < r ∨ 0 < l ∧ r < 0 ∨ (ints tp).Fits (l + r))) := by
  obtain ⟨lim, limits, max, min, -⟩ := h.limits
  obtain ⟨m, fits, minimum, maximum, positive, wide, -⟩ := h.bounds
  have range := tint_fits.mp right
  rw [minimum] at min
  rw [maximum] at max
  have below : r < 0 → tint.sub (-m) r = some (-m - r) := fun neg => tint_result (by omega) (by omega)
  have above : r > 0 → tint.sub (m - 1) r = some (m - 1 - r) := fun pos => tint_result (by omega) (by omega)
  have first : land (l < 0 && r < 0) ((tint.sub (-m) r).bind fun d => pure (decide (l ≥ d))) =
      some ((l < 0 && r < 0) && l ≥ -m - r) :=
    land_some fun clause => by
      simp only [Bool.and_eq_true, decide_eq_true_eq] at clause
      rw [below clause.2]
      rfl
  have last : land (l > 0 && r > 0) ((tint.sub (m - 1) r).bind fun d => pure (decide (l ≤ d))) =
      some ((l > 0 && r > 0) && l ≤ m - 1 - r) :=
    land_some fun clause => by
      simp only [Bool.and_eq_true, decide_eq_true_eq] at clause
      rw [above clause.2]
      rfl
  simp only [addi, limits, max, min, Option.bind_eq_bind, Option.bind_some, first, last]
  refine (lor_some [_, _, _, _, _, _]).trans (congrArg some ?_)
  rw [Bool.eq_iff_iff]
  simp only [fits, List.any_cons, List.any_nil, id, Bool.or_false, Bool.or_eq_true, Bool.and_eq_true, decide_eq_true_eq]
  omega

theorem addi_spec (h : Signed tp) (left : (ints tp).Fits l) (low : (ints tp).min ≤ r)
    (high : r ≤ -(ints tp).min) (right : tint.Fits r) :
    addi l r tp = some (decide (l = 0 ∨ (ints tp).Fits (l + r))) := by
  obtain ⟨m, fits, minimum, -⟩ := h.bounds
  rw [fits] at left
  rw [minimum] at low high
  rw [addi_value h right]
  refine congrArg some ?_
  rw [decide_eq_decide, fits]
  omega

/-- The right operand is negated in `TINT`. -/
theorem subi_spec (h : Signed tp) (left : (ints tp).Fits l) (right : (ints tp).Fits r) :
    subi l r tp = if tp.size = 8 ∧ r = (ints tp).min then none
      else some (decide (l = 0 ∨ (ints tp).Fits (l - r))) := by
  obtain ⟨m, fits, minimum, -, positive, wide, full⟩ := h.bounds
  have bounds := right
  rw [fits] at bounds
  rw [subi, minimum]
  split
  case isTrue extreme =>
    rw [full] at extreme
    rw [IntType.neg, IntType.result_undefined rfl (by rw [tint_fits]; omega)]
    rfl
  case isFalse inside =>
    rw [full] at inside
    rw [IntType.neg, tint_result (by omega) (by omega)]
    exact addi_spec h left (by omega) (by omega) (tint_fits.mpr (by omega))

/-- The division of the limits by a positive operand bounds the product. -/
theorem le_tdiv_iff {a b c : Int} (nonneg : 0 ≤ a) (positive : 0 < b) : c ≤ a.tdiv b ↔ c * b ≤ a := by
  rw [Int.tdiv_eq_ediv_of_nonneg nonneg]
  exact Int.le_ediv_iff_mul_le positive

theorem tdiv_le_iff {a b c : Int} (nonneg : 0 ≤ a) (positive : 0 < b) : (-a).tdiv b ≤ c ↔ -a ≤ c * b := by
  rw [Int.neg_tdiv]
  have bound := le_tdiv_iff (c := -c) nonneg positive
  rw [Int.neg_mul] at bound
  omega

/-- The clauses of `muli`: the case of each pair of signs bounds the product. -/
theorem product_bounds {m : Int} (positive : 0 < m) :
    (l > -1 ∧ l ≤ 1 ∨ r > -1 ∧ r ≤ 1 ∨ (l < 0 ∧ r < 0) ∧ -l ≤ (m - 1).tdiv (-r) ∨
      (l < 0 ∧ r > 0) ∧ l ≥ (-m).tdiv r ∨ (l > 0 ∧ r < 0) ∧ r ≥ (-m).tdiv l ∨
      (l > 0 ∧ r > 0) ∧ l ≤ (m - 1).tdiv r) ↔ l = 1 ∨ r = 1 ∨ -m ≤ l * r ∧ l * r < m := by
  rcases Int.lt_trichotomy l 0 with negl | rfl | posl
  · rcases Int.lt_trichotomy r 0 with negr | rfl | posr
    · have product := Int.mul_pos_of_neg_of_neg negl negr
      have bound := le_tdiv_iff (a := m - 1) (c := -l) (by omega) (show 0 < -r by omega)
      rw [Int.neg_mul_neg] at bound
      omega
    · rw [Int.mul_zero]
      omega
    · have product := Int.mul_neg_of_neg_of_pos negl posr
      have bound := tdiv_le_iff (c := l) (Int.le_of_lt positive) posr
      omega
  · rw [Int.zero_mul]
    omega
  · rcases Int.lt_trichotomy r 0 with negr | rfl | posr
    · have product := Int.mul_neg_of_pos_of_neg posl negr
      have bound := tdiv_le_iff (c := r) (Int.le_of_lt positive) posl
      rw [Int.mul_comm] at bound
      omega
    · rw [Int.mul_zero]
      omega
    · have product := Int.mul_pos posl posr
      have bound := le_tdiv_iff (a := m - 1) (c := l) (by omega) posr
      omega

theorem tint_div {a b : Int} (fits : tint.Fits a) (nonzero : b ≠ 0) (other : b ≠ -1) :
    tint.div a b = some (a.tdiv b) := by
  rw [IntType.div, if_neg nonzero]
  apply IntType.result_fits rfl
  rw [IntType.tdiv_fits rfl fits nonzero]
  exact fun overflow => other overflow.2

/-- The validator of a product negates both operands in `TINT` if they are negative. -/
theorem muli_value (h : Signed tp) (left : tint.Fits l) (right : tint.Fits r) :
    muli l r tp = if l < 0 ∧ r < 0 ∧ (l = -2 ^ 63 ∨ r = -2 ^ 63) then none
      else some (decide (l = 1 ∨ r = 1 ∨ (ints tp).Fits (l * r))) := by
  obtain ⟨lim, limits, max, min, -⟩ := h.limits
  obtain ⟨m, fits, minimum, maximum, positive, wide, -⟩ := h.bounds
  have range' := tint_fits.mp left
  have range := tint_fits.mp right
  rw [minimum] at min
  rw [maximum] at max
  have least : tint.Fits (-m) := tint_fits.mpr (by omega)
  have greatest : tint.Fits (m - 1) := tint_fits.mpr (by omega)
  simp only [muli, limits, max, min, Option.bind_eq_bind, Option.bind_some]
  split
  case isTrue extreme =>
    obtain ⟨negl, negr, extreme⟩ := extreme
    have undefined :
        ((tint.neg l).bind fun a => (tint.neg r).bind fun b => (tint.div (m - 1) b).bind fun q =>
          pure (decide (a ≤ q))) = none := by
      rcases extreme with rfl | rfl
      · rfl
      · cases tint.neg l with
        | none => rfl
        | some a => rfl
    have clause : (decide (l < 0) && decide (r < 0)) = true := by simp [negl, negr]
    rw [undefined, clause]
    have small : (decide (l > -1) && decide (l ≤ 1)) = false := by simp; omega
    have small' : (decide (r > -1) && decide (r ≤ 1)) = false := by simp; omega
    rw [small, small']
    rfl
  case isFalse inside =>
    have both : l < 0 → r < 0 → tint.neg l = some (-l) ∧ tint.neg r = some (-r) ∧
        tint.div (m - 1) (-r) = some ((m - 1).tdiv (-r)) := fun negl negr =>
      ⟨tint_result (by omega) (by omega), tint_result (by omega) (by omega),
        tint_div greatest (by omega) (by omega)⟩
    have third : land (l < 0 && r < 0) ((tint.neg l).bind fun a => (tint.neg r).bind fun b =>
        (tint.div (m - 1) b).bind fun q => pure (decide (a ≤ q))) =
        some ((l < 0 && r < 0) && -l ≤ (m - 1).tdiv (-r)) :=
      land_some fun clause => by
        simp only [Bool.and_eq_true, decide_eq_true_eq] at clause
        obtain ⟨negl, negr, quotient⟩ := both clause.1 clause.2
        rw [negl, Option.bind_some, negr, Option.bind_some, quotient]
        rfl
    have fourth : land (l < 0 && r > 0) ((tint.div (-m) r).bind fun q => pure (decide (l ≥ q))) =
        some ((l < 0 && r > 0) && l ≥ (-m).tdiv r) :=
      land_some fun clause => by
        simp only [Bool.and_eq_true, decide_eq_true_eq] at clause
        rw [tint_div least (by omega) (by omega)]
        rfl
    have fifth : land (l > 0 && r < 0) ((tint.div (-m) l).bind fun q => pure (decide (r ≥ q))) =
        some ((l > 0 && r < 0) && r ≥ (-m).tdiv l) :=
      land_some fun clause => by
        simp only [Bool.and_eq_true, decide_eq_true_eq] at clause
        rw [tint_div least (by omega) (by omega)]
        rfl
    have sixth : land (l > 0 && r > 0) ((tint.div (m - 1) r).bind fun q => pure (decide (l ≤ q))) =
        some ((l > 0 && r > 0) && l ≤ (m - 1).tdiv r) :=
      land_some fun clause => by
        simp only [Bool.and_eq_true, decide_eq_true_eq] at clause
        rw [tint_div greatest (by omega) (by omega)]
        rfl
    rw [third, fourth, fifth, sixth]
    refine (lor_some [_, _, _, _, _, _]).trans (congrArg some ?_)
    rw [Bool.eq_iff_iff]
    simp only [fits, List.any_cons, List.any_nil, id, Bool.or_false, Bool.or_eq_true, Bool.and_eq_true,
      decide_eq_true_eq]
    exact product_bounds (by omega)

theorem muli_spec (h : Signed tp) (left : (ints tp).Fits l) (right : tint.Fits r) :
    muli l r tp = if l < 0 ∧ r < 0 ∧ (l = -2 ^ 63 ∨ r = -2 ^ 63) then none
      else some (decide (l = 1 ∨ (ints tp).Fits (l * r))) := by
  obtain ⟨m, fits, -, -, -, wide, -⟩ := h.bounds
  have range := (fits l).mp left
  have left' : tint.Fits l := tint_fits.mpr (by omega)
  rw [muli_value h left' right]
  refine if_congr Iff.rfl rfl (congrArg some ?_)
  rw [decide_eq_decide]
  constructor
  · rintro (one | rfl | fits)
    · exact .inl one
    · exact .inr (by rwa [Int.mul_one])
    · exact .inr fits
  · rintro (one | fits)
    · exact .inl one
    · exact .inr (.inr fits)

/-- The shift that gives the factor is one of `int`. -/
theorem lshi_spec (h : Signed tp) (left : (ints tp).Fits l) :
    lshi l r tp = if r < 0 ∨ 8 * tp.size ≤ r then some false
      else if 31 ≤ r then none
      else some (decide (l = 1 ∨ (ints tp).Fits (l * 2 ^ r.toNat))) := by
  have count : (r < 0 || r ≥ tp.size * 8) = decide (r < 0 ∨ 8 * tp.size ≤ r) := by
    rw [Bool.eq_iff_iff]
    simp only [Bool.or_eq_true, decide_eq_true_eq]
    omega
  rw [lshi, count]
  by_cases outside : r < 0 ∨ 8 * tp.size ≤ r
  · simp only [outside, decide_true, ↓reduceIte]
  · simp only [outside, decide_false, Bool.false_eq_true, ↓reduceIte]
    split
    case isTrue large =>
      have undefined : cint.shl 1 r = none := by
        rw [IntType.shl]
        split
        case isTrue => rfl
        case isFalse narrow =>
          have last : r = 31 := by
            have width : cint.width = 32 := rfl
            omega
          subst last
          rfl
      rw [undefined]
      rfl
    case isFalse small =>
      have power : (2 : Int) ^ r.toNat ≤ 2 ^ 30 := by
        exact_mod_cast Nat.pow_le_pow_right (by decide) (by omega)
      have positive : (0 : Int) < 2 ^ r.toNat := Int.pow_pos (by decide)
      have factor : cint.shl 1 r = some (2 ^ r.toNat) := by
        rw [IntType.shl, if_neg (by dsimp only [cint]; omega), Int.one_mul]
        exact IntType.result_fits rfl ((IntType.fits_signed rfl).mpr (by dsimp only [cint]; omega))
      rw [factor, Option.bind_eq_bind, Option.bind_some, muli_spec h left (tint_fits.mpr (by omega)),
        if_neg (by omega)]

theorem divi_spec (h : Signed tp) (left : (ints tp).Fits l) :
    divi l r tp = some (decide (r ≠ 0 ∧ ¬(tp.size = 8 ∧ l = (ints tp).min ∧ r = -1))) := by
  obtain ⟨lim, limits, -, min, negated⟩ := h.limits
  obtain ⟨m, fits, minimum, -, positive, wide, full⟩ := h.bounds
  rw [fits] at left
  have least : BitVec.ofInt 64 l = -lim.min ↔ tp.size = 8 ∧ l = (ints tp).min := by
    rw [← BitVec.toInt_inj, negated, IntType.toInt_ofInt (by decide) (tint_fits.mpr (by omega)), minimum]
    split
    case isTrue eight => simp [eight]
    case isFalse short =>
      simp only [short, false_and, iff_false]
      omega
  rw [divi, limits, Option.bind_eq_bind, Option.bind_some]
  refine congrArg some ?_
  rw [Bool.eq_iff_iff]
  simp only [Bool.not_eq_true', Bool.or_eq_false_iff, Bool.and_eq_false_iff, decide_eq_false_iff_not,
    decide_eq_true_eq, least, ne_eq]
  refine and_congr_right fun _ => ?_
  rw [← not_and_or, and_assoc]

theorem Signed.ints_eq (h : Signed tp) : ints tp = ⟨8 * tp.size, true⟩ := by
  rw [ints, h.tsigned]

theorem Signed.wide (h : Signed tp) : 0 < 8 * tp.size ∧ 8 * tp.size ≤ 64 := by
  have size := h.size
  simp only [List.mem_cons, List.not_mem_nil, or_false] at size
  omega

/-- What `TINT` computes is exact where the mathematical result is a value of the type. -/
theorem exact_result (h : Signed tp) {op : Op} {i : Int} (value : exact (ints tp) op l r = some i) :
    Exact (ints tp) op l r (.stored <$> tint.result i) ↔ (ints tp).Fits i := by
  obtain ⟨m, fits, -, -, positive, wide, -⟩ := h.bounds
  by_cases range : tint.Fits i
  · rw [IntType.result_fits rfl range]
    simp [Exact, value]
  · rw [IntType.result_undefined rfl range, fits]
    rw [tint_fits] at range
    simp only [Option.map_eq_map, Option.map_none, Exact, false_iff]
    omega

theorem exact_refused {t : IntType} {op : Op} : Exact t op l r (pure .refused) := trivial

theorem exact_stored {t : IntType} {op : Op} {i : Int} (value : exact t op l r = some i) (fits : t.Fits i) :
    Exact t op l r (some (.stored i)) := ⟨value, fits⟩

theorem Signed.fits_truth (h : Signed tp) (b : Bool) : (ints tp).Fits (truth b) := by
  obtain ⟨m, fits, -, -, positive, -, -⟩ := h.bounds
  rw [fits]
  cases b with
  | false =>
    have value : truth false = 0 := rfl
    omega
  | true =>
    have value : truth true = 1 := rfl
    omega

theorem Signed.fits_power (h : Signed tp) {n : Nat} : (ints tp).Fits (2 ^ n) ↔ n + 1 < 8 * tp.size := by
  have positive : (0 : Int) < 2 ^ n := Int.pow_pos (by decide)
  have wide := h.wide
  rw [IntType.fits_signed h.tsigned]
  have less : (2 : Int) ^ n < 2 ^ ((ints tp).width - 1) ↔ n < 8 * tp.size - 1 := by
    have powers := Nat.pow_lt_pow_iff_right (a := 2) (m := 8 * tp.size - 1) (n := n) (by decide)
    exact_mod_cast powers
  have negative : (0 : Int) < 2 ^ ((ints tp).width - 1) := Int.pow_pos (by decide)
  omega

theorem Signed.bitwise (h : Signed tp) (left : (ints tp).Fits l) (right : (ints tp).Fits r)
    (f : (n : Nat) → BitVec n → BitVec n → BitVec n)
    (extends_ : ∀ x y, (f (8 * tp.size) x y).signExtend 64 = f 64 (x.signExtend 64) (y.signExtend 64)) :
    tint.bitwise f l r = (ints tp).bitwise f l r := by
  rw [h.ints_eq] at left right ⊢
  exact IntType.bitwise_widen h.wide.1 h.wide.2 f extends_ left right

theorem foldint_add (h : Signed tp) (left : (ints tp).Fits l) (right : (ints tp).Fits r) :
    Exact (ints tp) .OADD l r (foldint .OADD tp l r) := by
  obtain ⟨m, fits, minimum, -, positive, wide, -⟩ := h.bounds
  have range := (fits r).mp right
  rw [foldint, validate, addi_spec h left (by omega) (by omega) (tint_fits.mpr (by omega)), Option.bind_eq_bind, Option.bind_some]
  split
  case isTrue => exact trivial
  case isFalse accepted =>
    apply (exact_result h rfl).mpr
    simp only [Bool.not_eq_true', Bool.not_eq_false, decide_eq_true_eq] at accepted
    rcases accepted with rfl | sum
    · rwa [Int.zero_add]
    · exact sum

theorem foldint_sub (h : Signed tp) (left : (ints tp).Fits l) (right : (ints tp).Fits r) :
    Exact (ints tp) .OSUB l r (foldint .OSUB tp l r) ↔ Safe tp .OSUB l r := by
  obtain ⟨m, fits, minimum, -, positive, wide, -⟩ := h.bounds
  have range := (fits r).mp right
  have range' := (fits l).mp left
  rw [foldint, validate, subi_spec h left right]
  dsimp only [Safe]
  by_cases extreme : tp.size = 8 ∧ r = (ints tp).min
  · rw [if_pos extreme]
    simp [Exact, extreme]
  · rw [if_neg extreme, Option.bind_eq_bind, Option.bind_some]
    split
    case isTrue refused =>
      simp only [Bool.not_eq_true', decide_eq_false_iff_not, fits] at refused
      refine iff_of_true exact_refused ?_
      omega
    case isFalse accepted =>
      simp only [Bool.not_eq_true', Bool.not_eq_false, decide_eq_true_eq, fits] at accepted
      rw [IntType.sub, exact_result h rfl, fits]
      omega

theorem foldint_mul (h : Signed tp) (left : (ints tp).Fits l) (right : (ints tp).Fits r) :
    Exact (ints tp) .OMUL l r (foldint .OMUL tp l r) ↔ Safe tp .OMUL l r := by
  obtain ⟨m, fits, minimum, -, positive, wide, full⟩ := h.bounds
  have range := (fits r).mp right
  have range' := (fits l).mp left
  rw [foldint, validate, muli_spec h left (tint_fits.mpr (by omega))]
  dsimp only [Safe]
  by_cases extreme : l < 0 ∧ r < 0 ∧ (l = -2 ^ 63 ∨ r = -2 ^ 63)
  · rw [if_pos extreme]
    simp only [Option.bind_eq_bind, Option.bind_none, Exact, false_iff]
    omega
  · rw [if_neg extreme, Option.bind_eq_bind, Option.bind_some]
    have safe : tp.size = 8 → l < 0 → r < 0 → l ≠ (ints tp).min ∧ r ≠ (ints tp).min := by omega
    refine iff_of_true ?_ safe
    split
    case isTrue => exact exact_refused
    case isFalse accepted =>
      simp only [Bool.not_eq_true', Bool.not_eq_false, decide_eq_true_eq] at accepted
      apply (exact_result h rfl).mpr
      rcases accepted with rfl | product
      · rwa [Int.one_mul]
      · exact product

theorem foldint_div (h : Signed tp) (left : (ints tp).Fits l) :
    Exact (ints tp) .ODIV l r (foldint .ODIV tp l r) ↔ Safe tp .ODIV l r := by
  rw [foldint, validate, divi_spec h left, Option.bind_eq_bind, Option.bind_some]
  dsimp only [Safe]
  split
  case isTrue refused =>
    simp only [Bool.not_eq_true', decide_eq_false_iff_not] at refused
    refine iff_of_true exact_refused fun short least one => ?_
    omega
  case isFalse accepted =>
    simp only [Bool.not_eq_true', Bool.not_eq_false, decide_eq_true_eq] at accepted
    rw [IntType.div, if_neg accepted.1, exact_result h (show exact _ .ODIV l r = _ from if_neg accepted.1), IntType.tdiv_fits h.tsigned left accepted.1]
    tauto

/-- The remainder is exact even where the quotient is out of range, since `TINT` has it. -/
theorem foldint_mod (h : Signed tp) (left : (ints tp).Fits l) : Exact (ints tp) .OMOD l r (foldint .OMOD tp l r) := by
  obtain ⟨m, fits, minimum, -, positive, wide, full⟩ := h.bounds
  have range := (fits l).mp left
  rw [foldint, validate, divi_spec h left, Option.bind_eq_bind, Option.bind_some]
  split
  case isTrue => exact exact_refused
  case isFalse accepted =>
    simp only [Bool.not_eq_true', Bool.not_eq_false, decide_eq_true_eq] at accepted
    have quotient : tint.div l r = some (l.tdiv r) := by
      rw [IntType.div, if_neg accepted.1]
      apply IntType.result_fits rfl
      rw [IntType.tdiv_fits rfl (tint_fits.mpr (by omega)) accepted.1]
      have least : tint.min = -2 ^ 63 := rfl
      omega
    rw [IntType.mod, quotient]
    exact exact_stored (if_neg accepted.1) (IntType.tmod_fits h.tsigned left)

theorem foldint_shl (h : Signed tp) (left : (ints tp).Fits l) :
    Exact (ints tp) .OSHL l r (foldint .OSHL tp l r) ↔ Safe tp .OSHL l r := by
  obtain ⟨m, fits, minimum, -, positive, wide, full⟩ := h.bounds
  have range := (fits l).mp left
  rw [foldint, validate, lshi_spec h left]
  dsimp only [Safe]
  split
  case isTrue outside =>
    refine iff_of_true exact_refused ?_
    omega
  case isFalse inside =>
    split
    case isTrue large => exact iff_of_false id (by omega)
    case isFalse small =>
      rw [Option.bind_eq_bind, Option.bind_some]
      have factor : (0 : Int) < 2 ^ r.toNat := Int.pow_pos (by decide)
      split
      case isTrue refused =>
        simp only [Bool.not_eq_true', decide_eq_false_iff_not, fits] at refused
        refine iff_of_true exact_refused fun low high => ⟨by omega, fun neg => ?_, by omega⟩
        have product := Int.mul_neg_of_neg_of_pos neg factor
        omega
      case isFalse accepted =>
        simp only [Bool.not_eq_true', Bool.not_eq_false, decide_eq_true_eq, fits] at accepted
        by_cases neg : l < 0
        · rw [IntType.shl, if_pos (.inr (.inr neg))]
          exact iff_of_false id (by omega)
        · have count : ¬(r < 0 ∨ (ints tp).width ≤ r ∨ l < 0) := by
            dsimp only [ints]
            omega
          have count' : ¬(r < 0 ∨ tint.width ≤ r ∨ l < 0) := by
            have width := h.wide.2
            dsimp only [tint]
            omega
          rw [IntType.shl, if_neg count', exact_result h (show exact _ .OSHL l r = _ from if_neg count)]
          by_cases one : l = 1
          · rw [one, Int.one_mul, h.fits_power]
            omega
          · rw [fits]
            omega

theorem foldint_shr (h : Signed tp) (left : (ints tp).Fits l) : Exact (ints tp) .OSHR l r (foldint .OSHR tp l r) := by
  rw [foldint, validate, rshi, Option.bind_eq_bind, Option.bind_some]
  split
  case isTrue => exact exact_refused
  case isFalse accepted =>
    simp only [Bool.not_not, Bool.or_eq_true, decide_eq_true_eq] at accepted
    have width := h.wide.2
    have count : ¬(r < 0 ∨ tint.width ≤ r) := by
      dsimp only [tint]
      omega
    have count' : ¬(r < 0 ∨ (ints tp).width ≤ r) := by
      dsimp only [ints]
      omega
    rw [IntType.shr, if_neg count]
    exact exact_stored (if_neg count') (IntType.ediv_fits h.tsigned left (Int.pow_pos (by decide)))

theorem foldint_neg (h : Signed tp) (left : (ints tp).Fits l) :
    Exact (ints tp) .OSNEG l r (foldint .OSNEG tp l r) ↔ Safe tp .OSNEG l r := by
  obtain ⟨m, fits, minimum, -, positive, wide, full⟩ := h.bounds
  have range := (fits l).mp left
  refine (exact_result h rfl).trans ?_
  dsimp only [Safe]
  rw [fits]
  omega

theorem foldint_cpl (h : Signed tp) (left : (ints tp).Fits l) : Exact (ints tp) .OCPL l r (foldint .OCPL tp l r) := by
  obtain ⟨m, fits, -, -, positive, wide, -⟩ := h.bounds
  have range := (fits l).mp left
  have complement : tint.cpl l = -l - 1 := IntType.convert_fits (by decide) (tint_fits.mpr (by omega))
  refine exact_stored (congrArg some complement.symm) ?_
  rw [complement, fits]
  omega

theorem foldint_bitwise (h : Signed tp) (left : (ints tp).Fits l) (right : (ints tp).Fits r) {op : Op}
    {f : (n : Nat) → BitVec n → BitVec n → BitVec n}
    (extends_ : ∀ x y, (f (8 * tp.size) x y).signExtend 64 = f 64 (x.signExtend 64) (y.signExtend 64))
    (value : exact (ints tp) op l r = some ((ints tp).bitwise f l r)) :
    Exact (ints tp) op l r (some (.stored (tint.bitwise f l r))) := by
  rw [h.bitwise left right f extends_]
  exact exact_stored value (IntType.fits_convert h.wide.1 _)

/-- An operator that yields 0 or 1. -/
theorem foldint_truth (h : Signed tp) {op : Op} {b : Bool} (value : exact (ints tp) op l r = some (if b then 1 else 0)) :
    Exact (ints tp) op l r (some (.stored (truth b))) :=
  exact_stored value (h.fits_truth b)

/-- Folding in a signed type refuses an operator or stores its exact result, unless the
operands are among the few of `Safe`. -/
theorem foldint_exact (h : Signed tp) (op : Op) (left : (ints tp).Fits l) (right : (ints tp).Fits r) :
    Exact (ints tp) op l r (foldint op tp l r) ↔ Safe tp op l r := by
  cases op with
  | OADD => exact iff_of_true (foldint_add h left right) trivial
  | OSUB => exact foldint_sub h left right
  | OMUL => exact foldint_mul h left right
  | ODIV => exact foldint_div h left
  | OMOD => exact iff_of_true (foldint_mod h left) trivial
  | OSHL => exact foldint_shl h left
  | OSHR => exact iff_of_true (foldint_shr h left) trivial
  | OBAND => exact iff_of_true (foldint_bitwise h left right (fun _ _ => BitVec.signExtend_and) rfl) trivial
  | OBXOR => exact iff_of_true (foldint_bitwise h left right (fun _ _ => BitVec.signExtend_xor) rfl) trivial
  | OBOR => exact iff_of_true (foldint_bitwise h left right (fun _ _ => BitVec.signExtend_or) rfl) trivial
  | OSNEG => exact foldint_neg h left
  | OCPL => exact iff_of_true (foldint_cpl h left) trivial
  | OAND | OOR | OLT | OGT | OGE | OLE | OEQ | ONE | ONEG =>
    refine iff_of_true (foldint_truth h ?_) trivial
    simp [exact]
  | _ => exact iff_of_true exact_refused trivial

/-- The minimum of `int` by -1 is folded to 2147483648. -/
theorem foldint_min_inexact :
    Signed inttype ∧ (ints inttype).Fits (-2147483648) ∧ (ints inttype).Fits (-1) ∧
      ¬Exact (ints inttype) .ODIV (-2147483648) (-1) (foldint .ODIV inttype (-2147483648) (-1)) := by
  refine ⟨⟨rfl, rfl, by decide⟩, by decide, by decide, ?_⟩
  rw [show foldint .ODIV inttype (-2147483648) (-1) = some (.stored 2147483648) by decide]
  rintro ⟨-, -, high⟩
  exact absurd high (by decide)

theorem foldint_exact_sum :
    Exact (ints inttype) .OADD 2147483647 (-1) (foldint .OADD inttype 2147483647 (-1)) ↔
      Safe inttype .OADD 2147483647 (-1) :=
  foldint_exact ⟨rfl, rfl, by decide⟩ .OADD (by decide) (by decide)

end Scc.Cc1.Fold
