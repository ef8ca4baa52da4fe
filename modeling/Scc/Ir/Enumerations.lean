import Scc.Arithmetic.Signedness
import Scc.Cc1.FoldCast
import Scc.Cc2.Qbe.Inst
import Scc.Ir.Trees

set_option linter.all false

/-! The operations on enumerated operands: what cc1 folds, where an enumeration is unsigned,
against what the code does that cc2 generates, for which its letter is that of `int`. -/
namespace Scc.Ir
open Arithmetic Cc1 Cc1.Fold

/-- An operand is converted by `convert` and folded by `foldcast`. -/
def foldedOperand (fp : Floats) (tp oldtp : Cc1.CType) (u : BitVec 64) : Option (BitVec 64) :=
  if eqtype tp oldtp then some u else castconst fp tp oldtp u

/-- The types of the operands after `arithconv`, which converts at most one of them. -/
def converted (tp1 tp2 : Cc1.CType) : Cc1.CType × Cc1.CType :=
  if convDirection tp1 tp2 > 0 then (tp1, tp1)
  else if convDirection tp1 tp2 < 0 then (tp2, tp2)
  else (tp1, tp2)

/-- The constant that cc1 makes of an operator on two constants. -/
def compileTime (fp : Floats) (op : Cc1.Op) (tp1 tp2 : Cc1.CType) (l r : BitVec 64) : Option (BitVec 64) := do
  let (ltp, rtp) := converted tp1 tp2
  let l ← foldedOperand fp ltp tp1 l
  let r ← foldedOperand fp rtp tp2 r
  match ← foldconst fp (← arith ltp) op ltp l r with
  | .refused => none
  | .stored u => if isComparison op then foldedOperand fp inttype ltp u else some u

/-- The word that the code of cc2 computes for the operator with the type of the tree. -/
def runTime (op : Cc1.Op) (tp : Cc1.CType) (l r : BitVec 32) : Option (BitVec 32) :=
  match binaryOp op, (lettertype tp.letter).bind Cc2.Qbe.opclass with
  | some op, some (.w, unsigned) => some (Cc2.Qbe.alu op unsigned l r)
  | _, _ => none

/-- A constant of an enumerated type or of `int` with the low word `a`. -/
inductive IntOrEnum : Cc1.CType → BitVec 32 → BitVec 64 → Prop where
  | enumerated (id : Nat) (a : BitVec 32) : IntOrEnum (enumType id) a (a.setWidth 64)
  | int (a : BitVec 32) : IntOrEnum inttype a (a.signExtend 64)

/-- The operators whose result depends on whether the operands have a sign, with `==` and `!=`. -/
def signOps : List Cc1.Op := [.OEQ, .ONE, .OLT, .OGT, .OGE, .OLE, .ODIV, .OMOD, .OSHR]

variable {fp : Floats} {tp1 tp2 : Cc1.CType} {a b : BitVec 32} {l r : BitVec 64} {id : Nat}

theorem scalar_enum (id : Nat) : Scalar (enumType id) := ⟨by simp [enumType], nofun, by simp [enumType]⟩

theorem scalar_int : Scalar inttype := ⟨by decide, fun _ => rfl, by decide⟩

/-- A conversion of an `int` to an enumerated type takes its word. -/
theorem extend_mask (a : BitVec 32) : a.signExtend 64 &&& ones 4 = a.setWidth 64 := by
  apply BitVec.eq_of_getLsbD_eq
  intro k small
  have mask : (ones inttype.size).getLsbD k = decide (k < 8 * inttype.size) := getLsbD_ones (by decide) k
  change (ones 4).getLsbD k = decide (k < 32) at mask
  rw [BitVec.getLsbD_and, mask, BitVec.getLsbD_signExtend, BitVec.getLsbD_setWidth]
  by_cases low : k < 32
  · simp [low, small]
  · simp [low, BitVec.getLsbD_of_ge a k (by omega)]

theorem folded_self (tp : Cc1.CType) (u : BitVec 64) : foldedOperand fp tp tp u = some u := by
  simp [foldedOperand, eqtype]

theorem folded_int (id : Nat) (a : BitVec 32) :
    foldedOperand fp (enumType id) inttype (a.signExtend 64) = some (a.setWidth 64) := by
  have other : eqtype (enumType id) inttype = false := by simp [eqtype, enumType, inttype, integerType]
  rw [foldedOperand, other, if_neg Bool.false_ne_true, castconst_scalar (scalar_enum id) scalar_int]
  exact congrArg some (extend_mask a)

theorem direction_enumerated (i j : Nat) : convDirection (enumType i) (enumType j) = 0 := by
  unfold convDirection
  split
  · rfl
  · rfl

theorem direction_left (i : Nat) : convDirection (enumType i) inttype = 1 := by
  simp [convDirection, enumType, inttype, integerType]

theorem direction_right (j : Nat) : convDirection inttype (enumType j) = -1 := by
  simp [convDirection, enumType, inttype, integerType]

theorem converted_enumerated (fp : Floats) (left : IntOrEnum tp1 a l) (right : IntOrEnum tp2 b r) (mixed : ¬(tp1 = inttype ∧ tp2 = inttype)) :
    ∃ i j, converted tp1 tp2 = (enumType i, enumType j) ∧
      foldedOperand fp (enumType i) tp1 l = some (a.setWidth 64) ∧
      foldedOperand fp (enumType j) tp2 r = some (b.setWidth 64) := by
  cases left with
  | enumerated i =>
    cases right with
    | enumerated j =>
      refine ⟨i, j, ?_, folded_self _ _, folded_self _ _⟩
      simp [converted, direction_enumerated]
    | int =>
      refine ⟨i, i, ?_, folded_self _ _, folded_int i b⟩
      simp [converted, direction_left]
  | int =>
    cases right with
    | enumerated j =>
      refine ⟨j, j, ?_, folded_int j a, folded_self _ _⟩
      simp [converted, direction_right]
    | int => exact absurd ⟨rfl, rfl⟩ mixed

theorem promote_operand {np : Cc1.Node} (operand : IntOrEnum np.type a l) : Cc1.promote np = np := by
  generalize type : np.type = tp at operand
  cases operand with
  | enumerated i => simp [Cc1.promote, type, enumType, inttype, integerType]
  | int => simp [Cc1.promote, type, inttype, integerType]

theorem convert_type {np : Cc1.Node} (id : Nat) (type : np.type = inttype) :
    (Cc1.convert np (enumType id) true).type = enumType id := by
  have cast : Cc1.convert np (enumType id) true = Cc1.node .OCAST (enumType id) np .nil := by
    simp [Cc1.convert, type, eqtype, enumType, inttype, integerType]
  rw [cast]
  rfl

/-- `arithconv` gives these types to the operands, which it does not promote. -/
theorem arithconv_types {p1 p2 : Cc1.Node} (left : IntOrEnum p1.type a l) (right : IntOrEnum p2.type b r) :
    ((Cc1.arithconv p1 p2).1.type, (Cc1.arithconv p1 p2).2.type) = converted p1.type p2.type := by
  rw [Cc1.arithconv, promote_operand left, promote_operand right]
  generalize type1 : p1.type = t1 at left
  generalize type2 : p2.type = t2 at right
  cases left with
  | enumerated i =>
    cases right with
    | enumerated j =>
      simp [converted, direction_enumerated, type1, type2]
    | int =>
      simp [converted, direction_left, type1, convert_type i type2]
  | int =>
    cases right with
    | enumerated j =>
      simp [converted, direction_right, type2, convert_type j type1]
    | int => simp [converted, convDirection, type1, type2]

theorem folded_truth (id : Nat) (c : Bool) :
    foldedOperand fp inttype (enumType id) (if c then 1 else 0) = some ((if c then 1 else 0 : BitVec 32).setWidth 64) := by
  have other : eqtype inttype (enumType id) = false := by simp [eqtype, enumType, inttype, integerType]
  rw [foldedOperand, other, if_neg Bool.false_ne_true, castconst_scalar scalar_int (scalar_enum id)]
  cases c with
  | false => decide
  | true => decide

@[simp] theorem toNat_wide (a : BitVec 32) : (a.setWidth 64).toNat = a.toNat :=
  BitVec.toNat_setWidth_of_le (by decide)

theorem wide_inj : a.setWidth 64 = b.setWidth 64 ↔ a = b := by
  rw [← BitVec.toNat_inj, ← BitVec.toNat_inj, toNat_wide, toNat_wide]

theorem ult_wide : (a.setWidth 64).ult (b.setWidth 64) = a.ult b := by
  rw [BitVec.ult, BitVec.ult, toNat_wide, toNat_wide]

theorem ule_wide : (a.setWidth 64).ule (b.setWidth 64) = a.ule b := by
  rw [BitVec.ule, BitVec.ule, toNat_wide, toNat_wide]

theorem word_mask {u : BitVec 64} {w : BitVec 32} (word : u.toNat = w.toNat) : u &&& ones 4 = w.setWidth 64 := by
  have mask : (ones 4).toNat = 2 ^ 32 - 1 := by decide
  apply BitVec.eq_of_toNat_eq
  rw [BitVec.toNat_and, mask, Nat.and_two_pow_sub_one_eq_mod, word, toNat_wide, Nat.mod_eq_of_lt w.isLt]

/-- What cc1 folds is what the unsigned instruction computes. -/
theorem compileTime_unsigned (left : IntOrEnum tp1 a l) (right : IntOrEnum tp2 b r)
    (mixed : ¬(tp1 = inttype ∧ tp2 = inttype)) {op : Cc1.Op} {op' : Cc2.Op} (known : binaryOp op = some op')
    (sign : op ∈ signOps) (divisor : op = .ODIV ∨ op = .OMOD → b ≠ 0) (count : op = .OSHR → b.toNat < 32) :
    compileTime fp op tp1 tp2 l r = some ((Cc2.Qbe.alu op' true a b).setWidth 64) := by
  obtain ⟨i, j, types, foldl, foldr⟩ := converted_enumerated fp left right mixed
  have unsigned : arith (enumType i) = some .UNSIGNED := rfl
  have step {u : BitVec 64}
      (folded : folduint op (enumType i) (a.setWidth 64) (b.setWidth 64) = some (.stored u)) :
      compileTime fp op tp1 tp2 l r =
        if isComparison op then foldedOperand fp inttype (enumType i) u else some u := by
    simp [compileTime, types, foldl, foldr, unsigned, foldconst, folded]
  have truth {c : Bool} {w : BitVec 32} (same : w = if c then 1 else 0) :
      foldedOperand fp inttype (enumType i) (if c then 1 else 0) = some (w.setWidth 64) := by
    rw [same]
    exact folded_truth i c
  simp only [signOps, List.mem_cons, List.not_mem_nil, or_false] at sign
  rcases sign with rfl | rfl | rfl | rfl | rfl | rfl | rfl | rfl | rfl
  · cases known
    refine (step rfl).trans (truth ?_)
    simp [Cc2.Qbe.alu, wide_inj]
  · cases known
    refine (step rfl).trans (truth ?_)
    simp [Cc2.Qbe.alu, wide_inj]
  · cases known
    refine (step rfl).trans (truth ?_)
    simp [Cc2.Qbe.alu, ult_wide]
  · cases known
    refine (step rfl).trans (truth ?_)
    simp [Cc2.Qbe.alu, ult_wide]
  · cases known
    refine (step rfl).trans (truth ?_)
    simp [Cc2.Qbe.alu, ule_wide]
  · cases known
    refine (step rfl).trans (truth ?_)
    simp [Cc2.Qbe.alu, ule_wide]
  · cases known
    have nonzero : b.setWidth 64 ≠ 0 := fun zero => divisor (.inl rfl) (wide_inj.mp zero)
    refine step ?_
    rw [folduint, if_neg nonzero]
    refine congrArg (some ∘ Folding.stored) (word_mask ?_)
    rw [BitVec.toNat_udiv, toNat_wide, toNat_wide]
    exact BitVec.toNat_udiv.symm
  · cases known
    have nonzero : b.setWidth 64 ≠ 0 := fun zero => divisor (.inr rfl) (wide_inj.mp zero)
    refine step ?_
    rw [folduint, if_neg nonzero]
    refine congrArg (some ∘ Folding.stored) (word_mask ?_)
    rw [BitVec.toNat_umod, toNat_wide, toNat_wide]
    exact BitVec.toNat_umod.symm
  · cases known
    have few := count rfl
    have small : ¬(b.setWidth 64).toNat ≥ 64 := by
      rw [toNat_wide]
      omega
    refine step ?_
    rw [folduint, if_neg small]
    refine congrArg (some ∘ Folding.stored) (word_mask ?_)
    simp only [Cc2.Qbe.alu, ↓reduceIte, BitVec.ushiftRight_eq', BitVec.toNat_ushiftRight, toNat_wide, Nat.mod_eq_of_lt few]

/-- The operands on which the operator does the same with and without a sign. -/
def Unsighted (op : Cc1.Op) (a b : BitVec 32) : Prop :=
  match op with
  | .OLT | .OGT | .OGE | .OLE => a.msb = b.msb
  | .ODIV => QuotientsAgree a b
  | .OMOD => RemaindersAgree a b
  | .OSHR => a.msb = false ∨ b = 0
  | _ => True

theorem choose_inj {c d : Bool} : (if c then 1 else 0 : BitVec 32) = (if d then 1 else 0) ↔ c = d := by
  cases c with
  | false => cases d with
    | false => simp
    | true => simp
  | true => cases d with
    | false => simp
    | true => simp

theorem alu_unsigned {op : Cc1.Op} {op' : Cc2.Op} (known : binaryOp op = some op') (sign : op ∈ signOps)
    (divisor : op = .ODIV ∨ op = .OMOD → b ≠ 0) (count : op = .OSHR → b.toNat < 32) :
    Cc2.Qbe.alu op' true a b = Cc2.Qbe.alu op' false a b ↔ Unsighted op a b := by
  have nonzero : b ≠ 0 → b.toNat ≠ 0 := fun other zero => other (BitVec.eq_of_toNat_eq zero)
  simp only [signOps, List.mem_cons, List.not_mem_nil, or_false] at sign
  rcases sign with rfl | rfl | rfl | rfl | rfl | rfl | rfl | rfl | rfl
  · cases known
    exact iff_of_true rfl trivial
  · cases known
    exact iff_of_true rfl trivial
  · cases known
    exact choose_inj.trans ult_eq_slt_iff
  · cases known
    exact choose_inj.trans (ult_eq_slt_iff.trans eq_comm)
  · cases known
    exact choose_inj.trans (ule_eq_sle_iff.trans eq_comm)
  · cases known
    exact choose_inj.trans ule_eq_sle_iff
  · cases known
    exact udiv_eq_sdiv_iff (nonzero (divisor (.inl rfl)))
  · cases known
    exact umod_eq_srem_iff (nonzero (divisor (.inr rfl)))
  · cases known
    have few := count rfl
    have zero : b.toNat = 0 ↔ b = 0 := by rw [← BitVec.toNat_inj]; rfl
    simp only [Cc2.Qbe.alu, ↓reduceIte, Bool.false_eq_true, Nat.mod_eq_of_lt few, Unsighted, ← zero]
    exact ushiftRight_eq_sshiftRight_iff few

/-- The code has the sign of `int`, whichever of the operands is enumerated. -/
theorem runTime_signed (left : IntOrEnum tp1 a l) (right : IntOrEnum tp2 b r) (mixed : ¬(tp1 = inttype ∧ tp2 = inttype))
    {op : Cc1.Op} {op' : Cc2.Op} (known : binaryOp op = some op') :
    runTime op (converted tp1 tp2).1 a b = some (Cc2.Qbe.alu op' false a b) := by
  obtain ⟨i, j, types, -, -⟩ := converted_enumerated ⟨fun _ _ _ _ => none, fun _ _ => false, id, id, id⟩ left right mixed
  rw [types, runTime, known]
  rfl

/-- The types of 8 bytes to which an enumeration is widened. -/
def Widening (newtp : Cc1.CType) : Prop :=
  newtp ∈ [longtype, ulongtype, llongtype, ullongtype] ∨
    newtp.op = .PTR ∧ newtp.letter = 'P' ∧ newtp.size = 8 ∧ newtp.tsigned = false

/-- What the code of cc2 makes of a word that is cast. -/
def runTimeCast (newtp tp : Cc1.CType) (a : BitVec 32) : Option (BitVec 64) := do
  return Cc2.Qbe.castint (← lettertype newtp.letter) (← lettertype tp.letter) (a.setWidth 64)

theorem Widening.folded {newtp : Cc1.CType} (wide : Widening newtp) (id : Nat) (u : BitVec 64) :
    foldedOperand fp newtp (enumType id) u = some u := by
  have scalar : Scalar newtp ∧ newtp.size = 8 ∧ newtp.op ≠ .ENUM := by
    rcases wide with integer | ⟨op, -, size, unsigned⟩
    · simp only [List.mem_cons, List.not_mem_nil, or_false] at integer
      rcases integer with rfl | rfl | rfl | rfl
      all_goals exact ⟨⟨by decide, fun _ => rfl, by decide⟩, rfl, by decide⟩
    · refine ⟨⟨by simp [op], fun sign => ?_, by simp [size]⟩, size, by simp [op]⟩
      rw [unsigned] at sign
      cases sign
  obtain ⟨scalar, size, other⟩ := scalar
  have differ : eqtype newtp (enumType id) = false := by
    have types : newtp ≠ enumType id := fun same => other (congrArg CType.op same)
    have ops : newtp.op ≠ (enumType id).op := other
    simp [eqtype, types, ops]
  have full : bring newtp u = u := by
    have mask : ones newtp.size = BitVec.allOnes 64 := by
      rw [size]
      rfl
    rw [bring, mask, BitVec.and_allOnes, size]
    simp
  rw [foldedOperand, differ, if_neg Bool.false_ne_true, castconst_scalar scalar (scalar_enum id), full]

theorem Widening.runTime {newtp : Cc1.CType} (wide : Widening newtp) (id : Nat) (a : BitVec 32) :
    runTimeCast newtp (enumType id) a = some (a.signExtend 64) := by
  have word : (a.setWidth 64).setWidth 32 = a := by simp
  have type : ∃ td, lettertype newtp.letter = some td ∧ td.size = 8 := by
    rcases wide with integer | ⟨-, letter, -, -⟩
    · simp only [List.mem_cons, List.not_mem_nil, or_false] at integer
      rcases integer with rfl | rfl | rfl | rfl
      all_goals exact ⟨_, rfl, rfl⟩
    · rw [letter]
      exact ⟨_, rfl, rfl⟩
  obtain ⟨td, known, size⟩ := type
  have enum : lettertype (enumType id).letter = some Cc2.int32type := rfl
  simp only [runTimeCast, known, enum, Option.bind_eq_bind, Option.bind_some, Option.pure_def, Cc2.Qbe.castint, size]
  exact congrArg (fun v => some (v.signExtend 64)) word

theorem setWidth_eq_signExtend_iff : a.setWidth 64 = a.signExtend 64 ↔ a.msb = false := by
  constructor
  · intro same
    have top := congrArg (BitVec.getLsbD · 63) same
    simp only [BitVec.getLsbD_setWidth, BitVec.getLsbD_signExtend] at top
    rw [BitVec.getLsbD_of_ge a 63 (by decide)] at top
    simpa using top.symm
  · exact fun positive => (BitVec.signExtend_eq_setWidth_of_msb_false positive).symm

/-- What cc1 folds is what the code of cc2 computes exactly where the sign does not matter: for
an operator on the two words, for a widening cast if the word is not negative. -/
theorem enumerations_agree (left : IntOrEnum tp1 a l) (right : IntOrEnum tp2 b r)
    (mixed : ¬(tp1 = inttype ∧ tp2 = inttype)) :
    (∀ op ∈ signOps, (op = .ODIV ∨ op = .OMOD → b ≠ 0) → (op = .OSHR → b.toNat < 32) →
      (compileTime fp op tp1 tp2 l r = (runTime op (converted tp1 tp2).1 a b).map (·.setWidth 64) ↔ Unsighted op a b)) ∧
    ∀ newtp, Widening newtp →
      (foldedOperand fp newtp (enumType id) (a.setWidth 64) = runTimeCast newtp (enumType id) a ↔ a.msb = false) := by
  constructor
  · intro op sign divisor count
    have known : ∃ op', binaryOp op = some op' := by
      simp only [signOps, List.mem_cons, List.not_mem_nil, or_false] at sign
      rcases sign with rfl | rfl | rfl | rfl | rfl | rfl | rfl | rfl | rfl
      all_goals exact ⟨_, rfl⟩
    obtain ⟨op', known⟩ := known
    rw [compileTime_unsigned left right mixed known sign divisor count, runTime_signed left right mixed known,
      Option.map_some, Option.some.injEq, wide_inj]
    exact alu_unsigned known sign divisor count
  · intro newtp wide
    rw [wide.folded, wide.runTime, Option.some.injEq]
    exact setWidth_eq_signExtend_iff

/-- `(enum e)-1 < (enum e)0` is folded to 0, and the code for it gives 1. -/
theorem enumerations_disagree :
    compileTime noFloats .OLT (enumType 1) (enumType 1) 0xffffffff 0 = some 0 ∧
      runTime .OLT (enumType 1) 0xffffffff 0 = some 1 ∧
      compileTime noFloats .ODIV (enumType 1) inttype 0xfffffff8 2 = some 0x7ffffffc ∧
      runTime .ODIV (enumType 1) 0xfffffff8 2 = some 0xfffffffc ∧
      foldedOperand noFloats longtype (enumType 1) 0xffffffff = some 0xffffffff ∧
      runTimeCast longtype (enumType 1) 0xffffffff = some 0xffffffffffffffff := by
  decide

theorem enumerations_agree_mixed :
    (∀ op ∈ signOps, (op = .ODIV ∨ op = .OMOD → (2 : BitVec 32) ≠ 0) → (op = .OSHR → (2 : BitVec 32).toNat < 32) →
      (compileTime noFloats op (enumType 1) inttype ((6 : BitVec 32).setWidth 64) ((2 : BitVec 32).signExtend 64) =
        (runTime op (converted (enumType 1) inttype).1 6 2).map (·.setWidth 64) ↔ Unsighted op 6 2)) ∧
    ∀ newtp, Widening newtp →
      (foldedOperand noFloats newtp (enumType 1) ((6 : BitVec 32).setWidth 64) = runTimeCast newtp (enumType 1) 6 ↔
        (6 : BitVec 32).msb = false) :=
  enumerations_agree (.enumerated 1 6) (.int 2) (by simp [enumType, inttype, integerType])

end Scc.Ir
