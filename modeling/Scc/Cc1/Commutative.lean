import Scc.Cc1.EvaluationProofs

set_option linter.all false

/-! The exchange of the operands of a binary operator. A relation is exchanged with its
negation, which is another relation than its converse where the operands are equal. -/
namespace Scc.Cc1.Fold
open Arithmetic

section
attribute [local simp] intBinary binary floatBinary
end

def relations : List Op := [.OLT, .OGT, .OGE, .OLE]

/-- The operators whose operands can be exchanged as they are. -/
def commutatives : List Op := [.OEQ, .ONE, .OADD, .OMUL, .OBAND, .OBXOR, .OBOR]

section
variable {σ : Type} {M : Machine σ} {syms : Symbols} {tp : CType} {op : Op} {nconst : Bool} {sym : Option Nat}
  {l r : Node} {s : σ} {out : Int × σ} {v w : Int}

theorem bitwise_comm {t : IntType} {f : (w : Nat) → BitVec w → BitVec w → BitVec w}
    (comm : ∀ a b : BitVec t.width, f t.width a b = f t.width b a) : t.bitwise f v w = t.bitwise f w v := by
  rw [IntType.bitwise, comm]
  rfl

theorem binary_comm (commutes : op ∈ commutatives) :
    binary M tp op v w = binary M tp op w v := by
  simp only [commutatives, List.mem_cons, List.not_mem_nil, or_false] at commutes
  unfold binary
  split
  case isTrue =>
    rcases commutes with rfl | rfl | rfl | rfl | rfl | rfl | rfl
    · simp only [intBinary, eq_comm]
    · simp only [intBinary, ne_comm]
    · simp only [intBinary, IntType.add, Int.add_comm]
    · simp only [intBinary, IntType.mul, Int.mul_comm]
    · exact congrArg some (bitwise_comm BitVec.and_comm)
    · exact congrArg some (bitwise_comm BitVec.xor_comm)
    · exact congrArg some (bitwise_comm BitVec.or_comm)
  case isFalse =>
    rcases commutes with rfl | rfl | rfl | rfl | rfl | rfl | rfl
    · simp only [floatBinary, M.float.eq_comm tp v w]
    · simp only [floatBinary, M.float.eq_comm tp v w]
    · simp only [floatBinary, M.float.add_comm tp v w]
    · simp only [floatBinary, M.float.mul_comm tp v w]
    all_goals rfl

/-- The operands of an exchanged relation compare equal. -/
def Equal (M : Machine σ) (tp : CType) (v w : Int) : Prop := binary M tp .OEQ v w = some 1

theorem truth_inj {a b : Bool} : truth a = truth b ↔ a = b := by
  cases a <;> cases b <;> decide

theorem equal_integral (integer : integral tp = true) : Equal M tp v w ↔ v = w := by
  have one : (1 : Int) = truth true := rfl
  rw [Equal, binary, if_pos integer, intBinary, Option.some_inj, one, truth_inj, decide_eq_true_iff]

theorem equal_float (float : integral tp = false) : Equal M tp v w ↔ M.float.eq tp v w = true := by
  have one : (1 : Int) = truth true := rfl
  rw [Equal, binary, if_neg (by simp [float]), floatBinary, Option.some_inj, one, truth_inj]

/-- What a relation and its negation give for exchanged operands. -/
theorem binary_negop (M : Machine σ) (tp : CType) (v w : Int) (relation : op ∈ relations) :
    ∃ a b : Bool, binary M tp op v w = some (truth a) ∧ binary M tp (negop op) w v = some (truth b) ∧
      (b = a ↔ ¬Equal M tp v w) := by
  simp only [relations, List.mem_cons, List.not_mem_nil, or_false] at relation
  cases integer : integral tp with
  | true =>
    rw [equal_integral integer]
    unfold binary
    rcases relation with rfl | rfl | rfl | rfl
    all_goals
      rw [if_pos integer, if_pos integer]
      refine ⟨_, _, rfl, rfl, ?_⟩
      rw [decide_eq_decide]
      omega
  | false =>
    rw [equal_float integer]
    unfold binary
    have less := M.float.lt_ne tp v w
    have greater := M.float.lt_ne tp w v
    rw [M.float.eq_comm tp w v] at greater
    rcases relation with rfl | rfl | rfl | rfl
    all_goals
      rw [if_neg (by simp [integer]), if_neg (by simp [integer])]
      refine ⟨_, _, rfl, rfl, ?_⟩
      try rw [M.float.eq_comm tp w v]
      revert less greater
      cases M.float.lt tp v w <;> cases M.float.lt tp w v <;> cases M.float.eq tp v w <;> decide

theorem inType_truth (sized : 0 < tp.size) {a b : Bool} : inType tp (truth a) = inType tp (truth b) ↔ a = b := by
  refine ⟨fun same => ?_, congrArg (inType tp ∘ truth)⟩
  rw [← truth_inj]
  unfold inType at same
  split at same
  case isFalse => exact same
  case isTrue =>
    rw [IntType.convert_inj] at same
    have large : 1 ≤ (ints tp).width := by
      dsimp only [ints]
      omega
    have wide : (2 : Int) ^ 1 ≤ 2 ^ (ints tp).width := by
      exact_mod_cast Nat.pow_le_pow_right (by decide) large
    rwa [Int.emod_eq_of_lt, Int.emod_eq_of_lt] at same
    all_goals
      cases a <;> cases b <;> simp only [truth] <;> omega

/-- Exchanging the operands gives a tree with the same value and the same effects. -/
def Exchanges (M : Machine σ) (syms : Symbols) (np : Node) (s : σ) (out : Int × σ) : Prop :=
  ∃ np', commutative np = some np' ∧ eval M syms np' s = some out

/-- The operands of a tree, evaluated from left to right, compare equal. -/
def EqualOperands (M : Machine σ) (syms : Symbols) (tp : CType) (l r : Node) (s : σ) : Prop :=
  ∃ v w s₁ s₂, eval M syms l s = some (v, s₁) ∧ eval M syms r s₁ = some (w, s₂) ∧ Equal M tp v w

theorem commutative_some (constant : l.nconst = true) (variable_ : r.nconst = false) (operand : r ≠ .nil) :
    commutative (.mk op nconst tp sym l r) =
      if op ∈ relations then some (.mk (negop op) nconst tp sym r l)
      else if op ∈ commutatives then some (.mk op nconst tp sym r l)
      else some (.mk op nconst tp sym l r) := by
  have left : l ≠ .nil := by
    rintro rfl
    cases constant
  simp only [commutative, operand, variable_, left, constant, Bool.not_true, Bool.or_false, decide_false, Bool.false_eq_true,
    if_false]
  cases op
  all_goals rfl

/-- A static operand can be evaluated after the other one. -/
theorem eval_exchanged (known : static l = true) (left : ∀ s, eval M syms l s = some (v, s))
    (right : eval M syms r s = some (w, out.2)) (operator : op ∈ operators) :
    eval M syms (.mk op nconst tp sym r l) s = some out ↔ ∃ x, binary M tp op w v = some x ∧ out.1 = inType tp x := by
  have operand : l ≠ .nil := by
    rintro rfl
    cases known
  rw [eval_binary_some operator operand]
  constructor
  · rintro ⟨w', s₁, v', x, right', left', exchanged⟩
    cases right.symm.trans right'
    cases (left _).symm.trans left'
    exact ⟨x, exchanged⟩
  · rintro ⟨x, exchanged⟩
    exact ⟨w, out.2, v, x, right, left _, exchanged⟩

/-- For a constant and an operand that is none, the exchanged tree has the value of the tree, unless the
operator is one of `<`, `<=`, `>` and `>=` and the operands are equal. -/
theorem commutative_exchanges (sized : 0 < tp.size) (constant : l.nconst = true) (known : static l = true)
    (variable_ : r.nconst = false) (value : eval M syms (.mk op nconst tp sym l r) s = some out) :
    Exchanges M syms (.mk op nconst tp sym l r) s out ↔ (op ∈ relations → ¬EqualOperands M syms tp l r s) := by
  by_cases operand : r = .nil
  · subst operand
    refine iff_of_true ⟨_, rfl, value⟩ fun _ => ?_
    rintro ⟨v, w, s₁, s₂, -, right, -⟩
    cases right
  unfold Exchanges
  rw [commutative_some constant variable_ operand]
  by_cases relation : op ∈ relations
  · have operator : op ∈ operators := by
      revert relation
      cases op <;> decide
    have negated : negop op ∈ operators := by
      revert relation
      cases op <;> decide
    obtain ⟨v, s₁, w, x, left, right, evaluated, result⟩ := (eval_binary_some operator operand).mp value
    obtain ⟨rfl, values⟩ := static_value known left
    obtain ⟨a, b, direct, exchanged, same⟩ := binary_negop M tp v w relation
    cases direct.symm.trans evaluated
    have operands : EqualOperands M syms tp l r s₁ ↔ Equal M tp v w := by
      constructor
      · rintro ⟨v', w', s₂, s₃, left', right', equal⟩
        cases left.symm.trans left'
        cases right.symm.trans right'
        exact equal
      · exact fun equal => ⟨v, w, s₁, out.2, left, right, equal⟩
    rw [if_pos relation, operands, forall_prop_of_true relation, ← same, ← inType_truth sized, ← result]
    simp only [Option.some_inj, exists_eq_left', eval_exchanged known values right negated, exchanged]
    exact eq_comm
  · refine iff_of_true ?_ fun h => absurd h relation
    rw [if_neg relation]
    by_cases commutes : op ∈ commutatives
    · have operator : op ∈ operators := by
        revert commutes
        cases op <;> decide
      obtain ⟨v, s₁, w, x, left, right, evaluated, result⟩ := (eval_binary_some operator operand).mp value
      obtain ⟨rfl, values⟩ := static_value known left
      rw [binary_comm commutes] at evaluated
      exact ⟨_, if_pos commutes, (eval_exchanged known values right operator).mpr ⟨x, evaluated, result⟩⟩
    · exact ⟨_, if_neg commutes, value⟩

end

/-- `3 < x` becomes `x >= 3`. -/
theorem commutative_negates :
    eval oneVariable (twoConstants ⟨inttype, true, 3⟩ ⟨inttype, false, 0⟩)
        (node .OLT inttype (constnode 0 inttype) (varnode 1 inttype)) 3 = some (0, 3) ∧
      ¬Exchanges oneVariable (twoConstants ⟨inttype, true, 3⟩ ⟨inttype, false, 0⟩)
        (node .OLT inttype (constnode 0 inttype) (varnode 1 inttype)) 3 (0, 3) := by
  refine ⟨by decide, ?_⟩
  rintro ⟨np, exchanged, value⟩
  cases exchanged
  exact absurd value (by decide)

theorem commutative_exchanges_less :
    Exchanges oneVariable (twoConstants ⟨inttype, true, 3⟩ ⟨inttype, false, 0⟩)
        (.mk .OLT false inttype none (constnode 0 inttype) (varnode 1 inttype)) 5 (1, 5) ↔
      (.OLT ∈ relations → ¬EqualOperands oneVariable (twoConstants ⟨inttype, true, 3⟩ ⟨inttype, false, 0⟩) inttype
        (constnode 0 inttype) (varnode 1 inttype) 5) :=
  commutative_exchanges (by decide) rfl rfl rfl (by decide)

end Scc.Cc1.Fold
