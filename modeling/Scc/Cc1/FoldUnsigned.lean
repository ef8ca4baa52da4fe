import Scc.Cc1.FoldSigned
import Scc.Cc1.Simplify

set_option linter.all false

/-! What folding does with the constants of unsigned, enumerated and pointer types, from the
comparison with zero in `fold` to the operation in `folduint`. -/
namespace Scc.Cc1.Fold
open Arithmetic

/-- An unsigned integer type, an enumeration or a pointer. -/
structure Unsigned (tp : CType) : Prop where
  op : tp.op ∈ [.INT, .ENUM, .PTR]
  unsigned : tp.tsigned = false
  size : tp.size ∈ [1, 2, 4, 8]

/-- A constant of an unsigned type with the value `u`. -/
structure Operand (syms : Symbols) (np : Node) (s : Nat) : Prop where
  constant : np.constant = some s
  type : ∃ op nconst tp sym left right, np = .mk op nconst tp sym left right ∧ Unsigned tp
  symbol : Unsigned (syms.get s).type

/-- The operator is left alone, or its exact result modulo the size of the type is stored. -/
def ExactModulo (tp : CType) (op : Op) (l r : BitVec 64) : Option (Folding (BitVec 64)) → Prop
  | none => False
  | some .refused => True
  | some (.stored u) => ∃ i, exact tuint op l.toNat r.toNat = some i ∧ (u.toNat : Int) = i % 2 ^ (8 * tp.size)

section
attribute [local simp] folduint foldconst ones ExactModulo
end

variable {tp : CType} {l r u : BitVec 64}

theorem toNat_ones (size : tp.size ∈ [1, 2, 4, 8]) : (ones tp.size).toNat = 2 ^ (8 * tp.size) - 1 := by
  simp only [List.mem_cons, List.not_mem_nil, or_false] at size
  rcases size with size | size | size | size
  all_goals
    rw [size]
    decide

/-- The mask takes the result modulo the size of the type. -/
theorem stored_modulo (size : tp.size ∈ [1, 2, 4, 8]) {i : Int} (value : (u.toNat : Int) = i % 2 ^ 64) :
    ((u &&& ones tp.size).toNat : Int) = i % 2 ^ (8 * tp.size) := by
  have narrow : 8 * tp.size ≤ 64 := by
    simp only [List.mem_cons, List.not_mem_nil, or_false] at size
    omega
  rw [BitVec.toNat_and, toNat_ones size, Nat.and_two_pow_sub_one_eq_mod]
  push_cast
  rw [value]
  exact Int.emod_emod_of_dvd i (by exact_mod_cast Nat.pow_dvd_pow 2 narrow)

theorem exact_modulo (size : tp.size ∈ [1, 2, 4, 8]) {op : Op} {i : Int}
    (result : exact tuint op l.toNat r.toNat = some i) (value : (u.toNat : Int) = i % 2 ^ 64) :
    ExactModulo tp op l r (some (.stored (u &&& ones tp.size))) :=
  ⟨i, result, stored_modulo size value⟩

theorem toInt_emod (x : BitVec 64) : x.toInt % 2 ^ 64 = x.toNat := by
  have small := x.isLt
  rw [BitVec.toInt_eq_toNat_cond]
  split
  all_goals omega

theorem toNat_bitwise (f : (n : Nat) → BitVec n → BitVec n → BitVec n) :
    ((f 64 l r).toNat : Int) = tuint.bitwise f l.toNat r.toNat % 2 ^ 64 := by
  have left : BitVec.ofInt 64 l.toNat = l := by simp
  have right : BitVec.ofInt 64 r.toNat = r := by simp
  have value : tuint.bitwise f l.toNat r.toNat = (f 64 (BitVec.ofInt 64 l.toNat) (BitVec.ofInt 64 r.toNat)).toInt % 2 ^ 64 := rfl
  rw [value, left, right, Int.emod_emod_of_dvd _ (Int.dvd_refl _), toInt_emod]

theorem toNat_truth (b : Bool) : ((if b then 1 else 0 : BitVec 64).toNat : Int) = if b then 1 else 0 := by
  cases b with
  | false => rfl
  | true => rfl

/-- A truth value is stored as it is. -/
theorem modulo_truth (size : tp.size ∈ [1, 2, 4, 8]) (b : Bool) :
    ((if b then 1 else 0 : BitVec 64).toNat : Int) = (if b then 1 else 0) % 2 ^ (8 * tp.size) := by
  rw [toNat_truth]
  have positive : (1 : Int) < 2 ^ (8 * tp.size) := by
    simp only [List.mem_cons, List.not_mem_nil, or_false] at size
    rcases size with size | size | size | size
    all_goals
      rw [size]
      decide
  cases b with
  | false => rfl
  | true => exact (Int.emod_eq_of_lt (by decide) positive).symm

theorem small_modulo {n : Nat} (small : n < 2 ^ 64) : (n : Int) = n % 2 ^ 64 := by
  omega

theorem toNat_nonzero (nonzero : r ≠ 0) : (r.toNat : Int) ≠ 0 := by
  intro zero
  exact nonzero (BitVec.eq_of_toNat_eq (by simpa using zero))

/-- Where `folduint` divides by no zero and shifts by less than 64, its result is exact. -/
theorem folduint_modulo (size : tp.size ∈ [1, 2, 4, 8]) (op : Op) :
    ExactModulo tp op l r (folduint op tp l r) ↔
      match op with
      | .ODIV | .OMOD => r ≠ 0
      | .OSHL | .OSHR => r.toNat < 64
      | _ => True := by
  have wide := l.isLt
  have wide' := r.isLt
  cases op with
  | OADD =>
    refine iff_of_true (exact_modulo size rfl ?_) trivial
    rw [BitVec.toNat_add]
    omega
  | OSUB =>
    refine iff_of_true (exact_modulo size rfl ?_) trivial
    rw [BitVec.toNat_sub]
    omega
  | OMUL =>
    refine iff_of_true (exact_modulo size rfl ?_) trivial
    rw [BitVec.toNat_mul, Int.natCast_emod, Int.natCast_mul]
    rfl
  | ODIV =>
    by_cases zero : r = 0
    · rw [folduint, if_pos zero]
      exact iff_of_false id (absurd zero)
    · have nonzero : (r.toNat : Int) ≠ 0 := toNat_nonzero zero
      rw [folduint, if_neg zero]
      refine iff_of_true (exact_modulo size (if_neg nonzero) ?_) zero
      rw [BitVec.toNat_udiv, ← Int.ofNat_tdiv]
      exact small_modulo (Nat.lt_of_le_of_lt (Nat.div_le_self _ _) wide)
  | OMOD =>
    by_cases zero : r = 0
    · rw [folduint, if_pos zero]
      exact iff_of_false id (absurd zero)
    · have nonzero : (r.toNat : Int) ≠ 0 := toNat_nonzero zero
      rw [folduint, if_neg zero]
      refine iff_of_true (exact_modulo size (if_neg nonzero) ?_) zero
      rw [BitVec.toNat_umod, ← Int.ofNat_tmod]
      exact small_modulo (Nat.lt_of_le_of_lt (Nat.mod_le _ _) wide)
  | OSHL =>
    by_cases large : r.toNat ≥ 64
    · rw [folduint, if_pos large]
      exact iff_of_false id (Nat.not_lt.mpr large)
    · have count : ¬((r.toNat : Int) < 0 ∨ (tuint.width : Int) ≤ r.toNat ∨ (l.toNat : Int) < 0) := by
        dsimp only [tuint]
        omega
      rw [folduint, if_neg large]
      refine iff_of_true (exact_modulo size (if_neg count) ?_) (Nat.lt_of_not_le large)
      rw [BitVec.shiftLeft_eq', BitVec.toNat_shiftLeft, Nat.shiftLeft_eq, Int.natCast_emod, Int.natCast_mul]
      rfl
  | OSHR =>
    by_cases large : r.toNat ≥ 64
    · rw [folduint, if_pos large]
      exact iff_of_false id (Nat.not_lt.mpr large)
    · have count : ¬((r.toNat : Int) < 0 ∨ (tuint.width : Int) ≤ r.toNat) := by
        dsimp only [tuint]
        omega
      rw [folduint, if_neg large]
      refine iff_of_true (exact_modulo size (if_neg count) ?_) (Nat.lt_of_not_le large)
      rw [BitVec.ushiftRight_eq', BitVec.toNat_ushiftRight, Nat.shiftRight_eq_div_pow]
      have value : (l.toNat : Int) / 2 ^ (r.toNat : Int).toNat = (l.toNat / 2 ^ r.toNat : Nat) := by
        rw [Int.toNat_natCast]
        push_cast
        rfl
      rw [value]
      exact small_modulo (Nat.lt_of_le_of_lt (Nat.div_le_self _ _) wide)
  | OBAND => exact iff_of_true (exact_modulo size rfl (toNat_bitwise fun _ a b => a &&& b)) trivial
  | OBXOR => exact iff_of_true (exact_modulo size rfl (toNat_bitwise fun _ a b => a ^^^ b)) trivial
  | OBOR => exact iff_of_true (exact_modulo size rfl (toNat_bitwise fun _ a b => a ||| b)) trivial
  | ONEG =>
    refine iff_of_true (exact_modulo size rfl ?_) trivial
    by_cases zero : l = 0
    · subst zero
      rfl
    · have nonzero : (l.toNat : Int) ≠ 0 := toNat_nonzero zero
      rw [if_neg zero, if_neg nonzero]
      rfl
  | OSNEG =>
    refine iff_of_true (exact_modulo size rfl ?_) trivial
    rw [BitVec.toNat_neg]
    omega
  | OCPL =>
    refine iff_of_true (exact_modulo size rfl ?_) trivial
    rw [BitVec.toNat_not]
    omega
  | OAND | OOR | OLT | OGT | OGE | OLE | OEQ | ONE =>
    refine iff_of_true ⟨_, ?_, modulo_truth size _⟩ trivial
    simp [exact, BitVec.ult, BitVec.ule, ← BitVec.toNat_inj, Int.natCast_inj]
  | _ => exact iff_of_true trivial trivial

/-- The operators of nodes without a right operand. -/
def unaryOps : List Op := [.OADD, .OSNEG, .OCPL, .ONEG, .OADDR, .OPTR, .OCAST]

/-- The tree is left as it is, but for its flags, or a constant takes its place, which holds
the exact result modulo the size of its type. -/
def FoldsModulo (syms : Symbols) (op : Op) (tp : CType) (sym : Option Nat) (lp rp : Node) (l r : BitVec 64) :
    Option (Node × Symbols) → Prop
  | none => False
  | some (np, syms') =>
    (∃ nconst, np = .mk op nconst tp sym lp rp ∧ syms' = syms) ∨
      ∃ i u, exact tuint op l.toNat r.toNat = some i ∧ (u.toNat : Int) = i % 2 ^ (8 * tp.size) ∧
        np = constnode syms.next tp ∧ syms' = syms.newsym ⟨tp, true, u⟩

/-- No division by an enumerated zero, and no shift of more than 63 bits. -/
def SafeUnsigned (syms : Symbols) (op : Op) (rp : Node) : Prop :=
  match op with
  | .ODIV | .OMOD => ∀ rs, rp.constant = some rs → (syms.get rs).type.op = .ENUM → (syms.get rs).u ≠ 0
  | .OSHL | .OSHR => ∀ rs, rp.constant = some rs → (syms.get rs).u.toNat < 64
  | _ => True

variable {fp : Floats} {syms : Symbols} {op : Op} {nconst : Bool} {sym : Option Nat} {lp rp : Node}

/-- An operand is found to be zero unless its type is an enumeration. -/
theorem Operand.cmpnode_zero {s : Nat} (fp : Floats) (h : Operand syms rp s) :
    cmpnode fp syms rp 0 = decide ((syms.get s).type.op ≠ .ENUM ∧ (syms.get s).u = 0) := by
  obtain ⟨constant, ⟨op, nconst, tp, sym, left, right, rfl, -⟩, symbol⟩ := h
  cases nconst with
  | false => cases constant
  | true =>
    change sym = some s at constant
    subst constant
    have kind := symbol.op
    simp only [List.mem_cons, List.not_mem_nil, or_false] at kind
    rcases kind with kind | kind | kind
    all_goals simp [cmpnode, kind, -BitVec.reduceAllOnes]

/-- What `fold` does once the operands are known to be constants. -/
theorem fold_operands {ls : Nat} (left : Operand syms lp ls) (right : rp = .nil ∨ ∃ rs, Operand syms rp rs) :
    fold fp syms (.mk op nconst tp sym lp rp) =
      if zerodiv fp syms op rp then some (.mk op nconst tp sym lp rp, syms)
      else match folduint op tp (syms.get ls).u (rightValue syms rp) with
        | none => none
        | some .refused => some (.mk op false tp sym lp rp, syms)
        | some (.stored u) => some (constnode syms.next tp, syms.newsym ⟨tp, true, u⟩) := by
  obtain ⟨constant, ⟨_, _, optype, _, _, _, rfl, optypes⟩, -⟩ := left
  have unsigned : arith optype = some .PTR ∨ arith optype = some .UNSIGNED := by
    have kind := optypes.op
    simp only [List.mem_cons, List.not_mem_nil, or_false] at kind
    rcases kind with kind | kind | kind
    all_goals simp [arith, kind, optypes.unsigned]
  have go : (rp ≠ .nil && rp.constant = none) = false := by
    rcases right with rfl | ⟨rs, operand⟩
    · rfl
    · simp [operand.constant]
  rw [fold.eq_def]
  dsimp only
  split
  case isTrue => rfl
  case isFalse =>
    rw [go, constant]
    rcases unsigned with type | type
    all_goals
      rw [type]
      cases result : folduint op tp (syms.get ls).u (rightValue syms rp) with
      | none => simp [foldconst, result]
      | some folding => cases folding with
        | refused => simp [foldconst, result]
        | stored u => simp [foldconst, result]

/-- A tree is folded as its operation is. -/
theorem foldsModulo_iff {l r : BitVec 64} (some_ : lp ≠ .nil) (folding : Option (Folding (BitVec 64))) :
    FoldsModulo syms op tp sym lp rp l r
      (match folding with
        | none => none
        | some .refused => some (.mk op false tp sym lp rp, syms)
        | some (.stored u) => some (constnode syms.next tp, syms.newsym ⟨tp, true, u⟩)) ↔
      ExactModulo tp op l r folding := by
  cases folding with
  | none => rfl
  | some folding => cases folding with
    | refused => exact iff_of_true (.inl ⟨_, rfl, rfl⟩) trivial
    | stored u =>
      constructor
      · rintro (⟨nconst, same, -⟩ | ⟨i, u', value, modulo, -, symbols⟩)
        · cases same
          exact absurd rfl some_
        · have get := congrArg (fun s => (s.get syms.next).u) symbols
          simp only [Symbols.newsym, ↓reduceIte] at get
          subst get
          exact ⟨i, value, modulo⟩
      · rintro ⟨i, value, modulo⟩
        exact .inr ⟨i, u, value, modulo, rfl, rfl⟩

/-- Constants of unsigned, enumerated and pointer types are folded exactly, unless a division
is by an enumerated zero or a shift by 64 or more. -/
theorem fold_modulo {ls : Nat} (left : Operand syms lp ls) (right : rp = .nil ∨ ∃ rs, Operand syms rp rs)
    (arity : rp = .nil → op ∈ unaryOps) (size : tp.size ∈ [1, 2, 4, 8]) :
    FoldsModulo syms op tp sym lp rp (syms.get ls).u (rightValue syms rp)
        (fold fp syms (.mk op nconst tp sym lp rp)) ↔ SafeUnsigned syms op rp := by
  have some_ : lp ≠ .nil := by
    obtain ⟨-, ⟨_, _, _, _, _, _, rfl, -⟩, -⟩ := left
    exact Node.noConfusion
  rw [fold_operands left right]
  rcases right with rfl | ⟨rs, operand⟩
  · have divides : zerodiv fp syms op .nil = false := by simp [zerodiv, cmpnode]
    rw [divides, if_neg Bool.false_ne_true, foldsModulo_iff some_, folduint_modulo size]
    have unary := arity rfl
    cases op with
    | ODIV | OMOD | OSHL | OSHR => exact absurd unary (by decide)
    | _ => exact Iff.rfl
  · have value : rightValue syms rp = (syms.get rs).u := by rw [rightValue, operand.constant]
    have zero := operand.cmpnode_zero fp
    rw [value]
    by_cases divides : zerodiv fp syms op rp = true
    · rw [if_pos divides]
      refine iff_of_true (.inl ⟨_, rfl, rfl⟩) ?_
      rw [zerodiv, zero] at divides
      simp only [Bool.and_eq_true, Bool.or_eq_true, decide_eq_true_eq] at divides
      obtain ⟨rfl | rfl, other, -⟩ := divides
      · intro rs' constant enum
        cases operand.constant.symm.trans constant
        exact absurd enum other
      · intro rs' constant enum
        cases operand.constant.symm.trans constant
        exact absurd enum other
    · rw [if_neg divides, foldsModulo_iff some_, folduint_modulo size]
      simp only [zerodiv, zero, Bool.and_eq_true, Bool.or_eq_true, decide_eq_true_eq] at divides
      cases op with
      | ODIV | OMOD =>
        simp only [SafeUnsigned, operand.constant, Option.some.injEq, forall_eq']
        tauto
      | OSHL | OSHR => simp only [SafeUnsigned, operand.constant, Option.some.injEq, forall_eq']
      | _ => exact Iff.rfl

/-- Floating arithmetic that folds nothing. -/
def noFloats : Floats := ⟨fun _ _ _ _ => none, fun u v => u = v, id, id, id⟩

/-- The constant `l` at 0 and the constant `r` at 1. -/
def twoConstants (l r : Symbol) : Symbols := ⟨2, fun s => if s = 0 then l else r⟩

/-- `6u / (enum e)0` divides by zero, and `1u << 64` shifts by all the bits. -/
theorem fold_undefined :
    fold noFloats (twoConstants ⟨uinttype, true, 6⟩ ⟨enumType 1, true, 0⟩)
        (node .ODIV uinttype (constnode 0 uinttype) (constnode 1 (enumType 1))) = none ∧
      fold noFloats (twoConstants ⟨uinttype, true, 1⟩ ⟨uinttype, true, 64⟩)
        (node .OSHL uinttype (constnode 0 uinttype) (constnode 1 uinttype)) = none := by
  decide

theorem fold_modulo_quotient :
    FoldsModulo (twoConstants ⟨uinttype, true, 6⟩ ⟨uinttype, true, 4⟩) .ODIV uinttype none
        (constnode 0 uinttype) (constnode 1 uinttype) 6 4
        (fold noFloats (twoConstants ⟨uinttype, true, 6⟩ ⟨uinttype, true, 4⟩)
          (node .ODIV uinttype (constnode 0 uinttype) (constnode 1 uinttype))) ↔
      SafeUnsigned (twoConstants ⟨uinttype, true, 6⟩ ⟨uinttype, true, 4⟩) .ODIV (constnode 1 uinttype) :=
  have unsigned : Unsigned uinttype := ⟨by decide, rfl, by decide⟩
  have operand (s : Nat) (type : ((twoConstants ⟨uinttype, true, 6⟩ ⟨uinttype, true, 4⟩).get s).type = uinttype) :
      Operand (twoConstants ⟨uinttype, true, 6⟩ ⟨uinttype, true, 4⟩) (constnode s uinttype) s :=
    ⟨rfl, ⟨_, _, _, _, _, _, rfl, unsigned⟩, by rw [type]; exact unsigned⟩
  fold_modulo (operand 0 rfl) (.inr ⟨1, operand 1 rfl⟩) Node.noConfusion (by decide)

end Scc.Cc1.Fold
