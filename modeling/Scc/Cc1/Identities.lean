import Scc.Cc1.EvaluationProofs

set_option linter.all false

/-! The algebraic identities of cc1: what each rule of `identity` does with the value and the
effects of a tree of an integer type. -/
namespace Scc.Cc1.Fold
open Arithmetic

/-- An integer type, an enumeration or a pointer, of a size that there is. -/
structure Integral (tp : CType) : Prop where
  integral : integral tp = true
  size : tp.size ∈ [1, 2, 4, 8]

/-- The operands of a tree have its type, apart from those of a difference of pointers. -/
structure Operands (op : Op) (tp : CType) (l r : Node) : Prop where
  type : Integral tp
  left : Integral l.type
  right : Integral r.type
  same : l.type = tp ∧ r.type = tp ∨ tp.tsigned = true ∧ op ∈ [.OSUB, .ODIV]

/-- A constant of an integer type is a leaf, and the type of its symbol is no floating one. -/
def Sane (syms : Symbols) (np : Node) : Prop :=
  ∀ a, np.constant = some a → (∃ tp l r, np = .mk .OSYM true tp (some a) l r) ∧ (syms.get a).type.op ≠ .FLOAT

/-- The tree has a truth value. -/
def Truth {σ : Type} (M : Machine σ) (syms : Symbols) (np : Node) : Prop :=
  ∀ s v s', eval M syms np s = some (v, s') → v = 0 ∨ v = 1

/-- The simplified tree has the same value and the same effects. -/
def Keeps {σ : Type} (M : Machine σ) (fp : Floats) (syms : Symbols) (np : Node) (s : σ) (out : Int × σ) : Prop :=
  ∃ np', identity fp syms np = some np' ∧ eval M syms np' s = some out

/-- The trees that keep their meaning: no remainder of a division by 1, and no shift of a 0 whose
count changes the state. -/
def SafeIdentity {σ : Type} (M : Machine σ) (fp : Floats) (syms : Symbols) (op : Op) (l r : Node) (s : σ) : Prop :=
  (op = .OMOD → cmpnode fp syms r 1 = false) ∧
    (op ∈ [.OSHL, .OSHR] → cmpnode fp syms l 0 = true → cmpnode fp syms r 0 = false →
      ∀ w s', eval M syms r s = some (w, s') → s' = s)

section
variable {σ : Type} {M : Machine σ} {syms : Symbols} {fp : Floats} {tp : CType} {op : Op} {nconst : Bool}
  {sym : Option Nat} {l r np : Node} {s : σ} {out : Int × σ} {v w x : Int}

theorem Integral.wide (integer : Integral tp) : 0 < (ints tp).width := by
  have size := integer.size
  simp only [List.mem_cons, List.not_mem_nil, or_false] at size
  dsimp only [ints]
  omega

theorem Integral.inType_eq (integer : Integral tp) (v : Int) : inType tp v = (ints tp).convert v :=
  if_pos integer.integral

theorem Integral.fits (integer : Integral tp) : inType tp v = v ↔ (ints tp).Fits v := by
  rw [integer.inType_eq]
  refine ⟨fun same => ?_, IntType.convert_fits integer.wide⟩
  rw [← same]
  exact IntType.fits_convert integer.wide v

@[simp] theorem inType_zero (tp : CType) : inType tp 0 = 0 := by
  simp [inType, IntType.convert]

theorem Integral.narrow (integer : Integral tp) : (2 ^ (ints tp).width : Int) ∣ 2 ^ 64 := by
  have size := integer.size
  simp only [List.mem_cons, List.not_mem_nil, or_false] at size
  dsimp only [ints]
  exact_mod_cast Nat.pow_dvd_pow 2 (by omega)

/-- The bits of a constant, as one of the type. -/
theorem Integral.constantValue (integer : Integral tp) (u : BitVec 64) :
    inType tp (constantValue M tp u) = inType tp u.toInt := by
  rw [integer.inType_eq, integer.inType_eq, Fold.constantValue, if_pos integer.integral, value]
  split
  case isTrue => rfl
  case isFalse =>
    apply IntType.convert_congr
    rw [← toInt_emod, Int.emod_emod_of_dvd _ integer.narrow]

theorem Integral.one (integer : Integral tp) : inType tp 1 = 1 := by
  rw [integer.fits]
  have size := integer.size
  simp only [List.mem_cons, List.not_mem_nil, or_false] at size
  unfold ints
  rcases size with size | size | size | size
  all_goals
    rw [size]
    cases tp.tsigned
    all_goals decide

/-- Constants that agree under the mask of the type have the same value. -/
theorem Integral.masked (integer : Integral tp) {u val : BitVec 64} (same : u &&& ones tp.size = val &&& ones tp.size) :
    inType tp u.toInt = inType tp val.toInt := by
  rw [integer.inType_eq, integer.inType_eq]
  apply IntType.convert_congr
  have low := congrArg BitVec.toNat same
  rw [BitVec.toNat_and, BitVec.toNat_and, toNat_ones integer.size, Nat.and_two_pow_sub_one_eq_mod,
    Nat.and_two_pow_sub_one_eq_mod] at low
  have emod (u : BitVec 64) : u.toInt % 2 ^ (ints tp).width = (u.toNat % 2 ^ (8 * tp.size) : Nat) := by
    rw [← Int.emod_emod_of_dvd _ integer.narrow, toInt_emod]
    rfl
  rw [emod, emod, low]

/-- What `cmpnode` finds is the value of the constant. -/
theorem cmpnode_eval (integer : Integral np.type) (sane : Sane syms np) {val : BitVec 64}
    (same : cmpnode fp syms np val = true) : ∀ s : σ, eval M syms np s = some (inType np.type val.toInt, s) := by
  unfold cmpnode at same
  split at same
  case h_2 => cases same
  case h_1 op tp a l r =>
    obtain ⟨⟨tp', l', r', leaf⟩, fixed⟩ := sane a rfl
    cases leaf
    replace integer : Integral tp := integer
    have masked : (syms.get a).u &&& ones tp.size = val &&& ones tp.size := by
      have wide : ∀ mask : BitVec 64, mask = (if val > 1 then ones tp.size else BitVec.allOnes 64) →
          (syms.get a).u &&& mask = val &&& mask → (syms.get a).u &&& ones tp.size = val &&& ones tp.size := by
        rintro mask rfl equal
        split at equal
        case isTrue => exact equal
        case isFalse =>
          rw [BitVec.and_allOnes, BitVec.and_allOnes] at equal
          rw [equal]
      dsimp only at same
      split at same
      case h_1 | h_2 => exact wide _ rfl (of_decide_eq_true same)
      case h_3 float => exact absurd float fixed
      case h_4 => cases same
    intro s
    rw [eval_constant, integer.constantValue, integer.masked masked]
    rfl

/-- A result that is a value of the type anyway. -/
theorem Integral.result (integer : Integral tp) (own : tp.tsigned = true ∨ inType tp v = v)
    (result : (ints tp).result v = some x) : inType tp x = v := by
  cases signed : tp.tsigned with
  | true =>
    rw [IntType.result, if_pos (show (ints tp).signed = true from signed)] at result
    split at result
    case isTrue fits =>
      cases result
      exact integer.fits.mpr fits
    case isFalse => cases result
  | false =>
    have same : inType tp v = v := by
      rcases own with own | own
      · exact absurd (signed.symm.trans own) (by decide)
      · exact own
    rw [IntType.result_unsigned (t := ints tp) signed] at result
    cases result
    rw [integer.inType_eq, IntType.convert_inj.mpr (Int.emod_emod_of_dvd _ (Int.dvd_refl _)), ← integer.inType_eq, same]

theorem Operands.own (operands : Operands op tp l r) (value : inType l.type v = v) :
    tp.tsigned = true ∨ inType tp v = v := by
  rcases operands.same with same | same
  · rw [same.1] at value
    exact .inr value
  · exact .inl same.1

theorem Operands.own_type (operands : Operands op tp l r) (value : inType l.type v = v) (other : op ∉ [.OSUB, .ODIV]) :
    inType tp v = v := by
  rcases operands.same with same | same
  · rwa [same.1] at value
  · exact absurd same.2 other

/-- `i + 0`, `i - 0`, `i | 0`, `i ^ 0`, `i << 0` and `i >> 0` are `i`. -/
theorem Operands.neutral_zero (operands : Operands op tp l r) (strict : M.wraps = false) (own : inType l.type v = v)
    (rule : op ∈ [.OBXOR, .OADD, .OBOR, .OSUB, .OSHL, .OSHR]) (value : binary M tp op v 0 = some x) :
    inType tp x = v := by
  simp only [List.mem_cons, List.not_mem_nil, or_false] at rule
  rw [binary, if_pos operands.type.integral, strict] at value
  have bits (i : BitVec (ints tp).width) (same : i = BitVec.ofInt (ints tp).width v) (other : op ∉ [.OSUB, .ODIV]) :
      inType tp ((ints tp).convert i.toInt) = v := by
    rw [same, IntType.convert_ofInt, ← operands.type.inType_eq, inType_inType, operands.own_type own other]
  rcases rule with rfl | rfl | rfl | rfl | rfl | rfl
  · cases value
    exact bits _ (by simp) (by decide)
  · apply operands.type.result (operands.own own)
    rw [← value, intBinary, IntType.add, Int.add_zero]
    rfl
  · cases value
    exact bits _ (by simp) (by decide)
  · apply operands.type.result (operands.own own)
    rw [← value, intBinary, IntType.sub, Int.sub_zero]
    rfl
  · apply operands.type.result (operands.own own)
    rw [intBinary, IntType.shl] at value
    split at value
    case isTrue => cases value
    case isFalse => rwa [Int.toNat_zero, pow_zero, Int.mul_one] at value
  · rw [intBinary, IntType.shr] at value
    split at value
    case isTrue => cases value
    case isFalse =>
      cases value
      rw [Int.toNat_zero, pow_zero, Int.ediv_one, operands.own_type own (by decide)]

/-- `i * 1` and `i / 1` are `i`. -/
theorem Operands.neutral_one (operands : Operands op tp l r) (strict : M.wraps = false) (own : inType l.type v = v)
    (rule : op ∈ [.OMUL, .ODIV]) (value : binary M tp op v 1 = some x) : inType tp x = v := by
  simp only [List.mem_cons, List.not_mem_nil, or_false] at rule
  rw [binary, if_pos operands.type.integral, strict] at value
  apply operands.type.result (operands.own own)
  rcases rule with rfl | rfl
  · rw [← value, intBinary, IntType.mul, Int.mul_one]
    rfl
  · rw [← value, intBinary, IntType.div, if_neg (by decide), Int.tdiv_one]

/-- `i & ~0` is `i`. -/
theorem Operands.neutral_ones (operands : Operands .OBAND tp l r) (own : inType l.type v = v)
    (value : binary M tp .OBAND v (inType tp (-1)) = some x) : inType tp x = v := by
  rw [binary, if_pos operands.type.integral] at value
  cases value
  have ones : BitVec.ofInt (ints tp).width (inType tp (-1)) = BitVec.allOnes (ints tp).width := by
    rw [operands.type.inType_eq, IntType.ofInt_convert, BitVec.ofInt_neg]
    exact BitVec.neg_one_eq_allOnes
  rw [IntType.bitwise, ones, BitVec.and_allOnes, IntType.convert_ofInt, ← operands.type.inType_eq, inType_inType,
    operands.own_type own (by decide)]

theorem result_zero {t : IntType} (result : t.result 0 = some x) : x = 0 := by
  unfold IntType.result at result
  split at result
  case isTrue =>
    split at result
    case isTrue =>
      cases result
      rfl
    case isFalse => cases result
  case isFalse =>
    cases result
    exact Int.zero_emod _

/-- `i * 0` is 0. -/
theorem Operands.absorbing (operands : Operands .OMUL tp l r) (value : binary M tp .OMUL v 0 = some x) :
    inType tp x = 0 := by
  rw [binary, if_pos operands.type.integral, intBinary, IntType.mul, Int.mul_zero] at value
  rw [result_zero value, inType_zero]

/-- What is evaluated after each exit. -/
def exitEval (M : Machine σ) (syms : Symbols) (np l r comma : Node) (s : σ) : Exit → Option (Int × σ)
  | .free_right => eval M syms l s
  | .free_left => eval M syms r s
  | .change_to_comma => eval M syms comma s
  | .unchanged => eval M syms np s

theorem keeps_exit (operand : r ≠ .nil) :
    Keeps M fp syms (.mk op nconst tp sym l r) s out ↔
      exitEval M syms (.mk op nconst tp sym l r) l r (.mk .OCOMMA nconst tp sym l r) s
        (identityExit fp syms op l r) = some out := by
  rw [Keeps, identity, if_neg operand]
  cases identityExit fp syms op l r
  all_goals simp [exitEval]

/-- A constant on the right can be dropped if the operator is neutral in it. -/
theorem keeps_left (operator : op ∈ operators) (operand : r ≠ .nil) (right : ∀ s : σ, eval M syms r s = some (w, s))
    (neutral : ∀ v x, inType l.type v = v → binary M tp op v w = some x → inType tp x = v)
    (value : eval M syms (.mk op nconst tp sym l r) s = some out) : eval M syms l s = some out := by
  obtain ⟨v, s₁, w', x, left, right', evaluated, result⟩ := (eval_binary_some operator operand).mp value
  cases (right s₁).symm.trans right'
  rw [left, ← neutral v x (eval_inType l left) evaluated, ← result]

/-- A constant result on the right of a comma. -/
theorem eval_comma_constant {s₁ : σ} (left : eval M syms l s = some (v, s₁)) (right : ∀ s : σ, eval M syms r s = some (w, s)) :
    eval M syms (.mk .OCOMMA nconst tp sym l r) s = some (inType tp w, s₁) := by
  simp [eval_comma, left, right]

theorem cmpnode_zero (integer : Integral np.type) (sane : Sane syms np) (same : cmpnode fp syms np 0 = true) :
    ∀ s : σ, eval M syms np s = some (0, s) := by
  intro s
  rw [cmpnode_eval integer sane same]
  exact congrArg (fun v => some (v, s)) (inType_zero _)

theorem cmpnode_one (integer : Integral np.type) (sane : Sane syms np) (same : cmpnode fp syms np 1 = true) :
    ∀ s : σ, eval M syms np s = some (1, s) := by
  intro s
  rw [cmpnode_eval integer sane same]
  exact congrArg (fun v => some (v, s)) integer.one

theorem eval_or_some : eval M syms (.mk .OOR nconst tp sym l r) s = some out ↔
    ∃ v s₁, eval M syms l s = some (v, s₁) ∧ (v ≠ 0 ∧ out = (inType tp 1, s₁) ∨
      v = 0 ∧ ∃ w, eval M syms r s₁ = some (w, out.2) ∧ out.1 = inType tp (truth (w ≠ 0))) := by
  simp only [eval, Option.bind_eq_bind, Option.bind_eq_some_iff, Prod.exists]
  refine exists_congr fun v => exists_congr fun s₁ => and_congr_right fun _ => ?_
  by_cases zero : v = 0
  · simp only [zero, ne_eq, not_true_eq_false, if_false, false_and, false_or, true_and, Option.bind_eq_some_iff,
      Option.pure_def, Option.some_inj, Prod.exists]
    refine exists_congr fun w => ⟨?_, ?_⟩
    · rintro ⟨s₂, right, rfl⟩
      exact ⟨right, rfl⟩
    · rintro ⟨right, result⟩
      exact ⟨out.2, right, by rw [← result]⟩
  · simp [zero, eq_comm]

theorem eval_and_some : eval M syms (.mk .OAND nconst tp sym l r) s = some out ↔
    ∃ v s₁, eval M syms l s = some (v, s₁) ∧ (v = 0 ∧ out = (inType tp 0, s₁) ∨
      v ≠ 0 ∧ ∃ w, eval M syms r s₁ = some (w, out.2) ∧ out.1 = inType tp (truth (w ≠ 0))) := by
  simp only [eval, Option.bind_eq_bind, Option.bind_eq_some_iff, Prod.exists]
  refine exists_congr fun v => exists_congr fun s₁ => and_congr_right fun _ => ?_
  by_cases zero : v = 0
  · simp [zero, eq_comm]
  · simp only [zero, ne_eq, not_false_eq_true, if_false, false_and, false_or, true_and, Option.bind_eq_some_iff,
      Option.pure_def, Option.some_inj, Prod.exists]
    refine exists_congr fun w => ⟨?_, ?_⟩
    · rintro ⟨s₂, right, rfl⟩
      exact ⟨right, rfl⟩
    · rintro ⟨right, result⟩
      exact ⟨out.2, right, by rw [← result]⟩

theorem Integral.truth (integer : Integral tp) (boolean : w = 0 ∨ w = 1) : inType tp (Fold.truth (w ≠ 0)) = w := by
  rcases boolean with rfl | rfl
  · exact inType_zero tp
  · exact integer.one

theorem or_exit (operands : Operands .OOR tp l r) (saneLeft : Sane syms l) (saneRight : Sane syms r)
    (truthLeft : Truth M syms l) (truthRight : Truth M syms r)
    (value : eval M syms (.mk .OOR nconst tp sym l r) s = some out) :
    exitEval M syms (.mk .OOR nconst tp sym l r) l r (.mk .OCOMMA nconst tp sym l r) s
        (identityExit fp syms .OOR l r) = some out := by
  obtain ⟨o, s₂⟩ := out
  obtain ⟨v, s₁, left, evaluated⟩ := eval_or_some.mp value
  have boolean := truthLeft s v s₁ left
  dsimp only [identityExit]
  split
  case isTrue dropped =>
    rw [exitEval, left]
    rcases Bool.or_eq_true_iff.mp dropped with isonel | iszeror
    · cases left.symm.trans (cmpnode_one operands.left saneLeft isonel s)
      rcases evaluated with ⟨-, ⟨⟩⟩ | ⟨zero, -⟩
      · rw [operands.type.one]
      · cases zero
    · rcases evaluated with ⟨nonzero, ⟨⟩⟩ | ⟨rfl, w, right, result⟩
      · rw [operands.type.one, boolean.resolve_left nonzero]
      · cases right.symm.trans (cmpnode_zero operands.right saneRight iszeror s₁)
        exact congrArg (fun v => some (v, s₂)) (result.trans (inType_zero tp)).symm
  case isFalse =>
    split
    case isTrue iszerol =>
      cases left.symm.trans (cmpnode_zero operands.left saneLeft iszerol s)
      rcases evaluated with ⟨nonzero, -⟩ | ⟨-, w, right, result⟩
      · exact absurd rfl nonzero
      · rw [exitEval, right, ← operands.type.truth (truthRight _ _ _ right), ← result]
    case isFalse =>
      split
      case isTrue isoner =>
        have one := cmpnode_one (M := M) operands.right saneRight isoner
        rw [exitEval, eval_comma_constant left one]
        rcases evaluated with ⟨-, ⟨⟩⟩ | ⟨-, w, right, result⟩
        · rfl
        · cases right.symm.trans (one s₁)
          exact congrArg (fun v => some (v, s₂)) result.symm
      case isFalse => exact value

theorem and_exit (operands : Operands .OAND tp l r) (saneLeft : Sane syms l) (saneRight : Sane syms r)
    (truthLeft : Truth M syms l) (truthRight : Truth M syms r)
    (value : eval M syms (.mk .OAND nconst tp sym l r) s = some out) :
    exitEval M syms (.mk .OAND nconst tp sym l r) l r (.mk .OCOMMA nconst tp sym l r) s
        (identityExit fp syms .OAND l r) = some out := by
  obtain ⟨o, s₂⟩ := out
  obtain ⟨v, s₁, left, evaluated⟩ := eval_and_some.mp value
  have boolean := truthLeft s v s₁ left
  dsimp only [identityExit]
  split
  case isTrue dropped =>
    rw [exitEval, left]
    rcases Bool.or_eq_true_iff.mp dropped with iszerol | isoner
    · cases left.symm.trans (cmpnode_zero operands.left saneLeft iszerol s)
      rcases evaluated with ⟨-, ⟨⟩⟩ | ⟨nonzero, -⟩
      · rw [inType_zero]
      · exact absurd rfl nonzero
    · rcases evaluated with ⟨rfl, ⟨⟩⟩ | ⟨nonzero, w, right, result⟩
      · rw [inType_zero]
      · cases right.symm.trans (cmpnode_one operands.right saneRight isoner s₁)
        rw [boolean.resolve_left nonzero]
        exact congrArg (fun v => some (v, s₂)) (result.trans operands.type.one).symm
  case isFalse =>
    split
    case isTrue isonel =>
      cases left.symm.trans (cmpnode_one operands.left saneLeft isonel s)
      rcases evaluated with ⟨zero, -⟩ | ⟨-, w, right, result⟩
      · cases zero
      · rw [exitEval, right, ← operands.type.truth (truthRight _ _ _ right), ← result]
    case isFalse =>
      split
      case isTrue iszeror =>
        have zero := cmpnode_zero (M := M) operands.right saneRight iszeror
        rw [exitEval, eval_comma_constant left zero]
        rcases evaluated with ⟨-, ⟨⟩⟩ | ⟨-, w, right, result⟩
        · rfl
        · cases right.symm.trans (zero s₁)
          exact congrArg (fun v => some (v, s₂)) result.symm
      case isFalse => exact value

theorem shift_exit (shift : op ∈ [.OSHL, .OSHR]) (strict : M.wraps = false) (operand : r ≠ .nil) (operands : Operands op tp l r)
    (saneLeft : Sane syms l) (saneRight : Sane syms r) (value : eval M syms (.mk op nconst tp sym l r) s = some out) :
    exitEval M syms (.mk op nconst tp sym l r) l r (.mk .OCOMMA nconst tp sym l r) s
        (identityExit fp syms op l r) = some out ↔
      (cmpnode fp syms l 0 = true → cmpnode fp syms r 0 = false → ∀ w s', eval M syms r s = some (w, s') → s' = s) := by
  have operator : op ∈ operators := by
    revert shift
    cases op <;> decide
  have rule : op ∈ [.OBXOR, .OADD, .OBOR, .OSUB, .OSHL, .OSHR] := by
    revert shift
    cases op <;> decide
  have exit : identityExit fp syms op l r =
      if cmpnode fp syms r 0 || cmpnode fp syms l 0 then .free_right else .unchanged := by
    revert shift
    cases op <;> first | exact fun h => absurd h (by decide) | exact fun _ => rfl
  rw [exit]
  cases iszeror : cmpnode fp syms r 0 with
  | true =>
    refine iff_of_true ?_ nofun
    exact keeps_left operator operand (cmpnode_zero operands.right saneRight iszeror)
      (fun v x own evaluated => operands.neutral_zero strict own rule evaluated) value
  | false =>
    cases iszerol : cmpnode fp syms l 0 with
    | false => exact iff_of_true value nofun
    | true =>
      obtain ⟨o, s₂⟩ := out
      have zero := cmpnode_zero (M := M) operands.left saneLeft iszerol
      obtain ⟨v, s₁, w, x, left, right, evaluated, result⟩ := (eval_binary_some operator operand).mp value
      cases left.symm.trans (zero s)
      have shifted : x = 0 := by
        rw [binary, if_pos operands.type.integral] at evaluated
        simp only [List.mem_cons, List.not_mem_nil, or_false] at shift
        rcases shift with rfl | rfl
        · rw [intBinary, IntType.shl] at evaluated
          split at evaluated
          case isTrue => cases evaluated
          case isFalse =>
            rw [Int.zero_mul] at evaluated
            exact (result_zero evaluated)
        · rw [intBinary, IntType.shr] at evaluated
          split at evaluated
          case isTrue => cases evaluated
          case isFalse =>
            cases evaluated
            exact Int.zero_ediv _
      rw [Bool.or_true, if_pos rfl, exitEval, left, forall_prop_of_true rfl, forall_prop_of_true rfl]
      constructor
      · intro same w' s' right'
        cases right.symm.trans right'
        cases same
        rfl
      · intro steady
        rw [steady w s₂ right]
        exact congrArg (fun v => some (v, s)) (result.trans (by rw [shifted, inType_zero])).symm

theorem zero_exit (rule : op ∈ [.OBXOR, .OADD, .OBOR, .OSUB]) (strict : M.wraps = false) (operand : r ≠ .nil)
    (operands : Operands op tp l r) (saneRight : Sane syms r) (value : eval M syms (.mk op nconst tp sym l r) s = some out) :
    exitEval M syms (.mk op nconst tp sym l r) l r (.mk .OCOMMA nconst tp sym l r) s
        (identityExit fp syms op l r) = some out := by
  have operator : op ∈ operators := by
    revert rule
    cases op <;> decide
  have wider : op ∈ [.OBXOR, .OADD, .OBOR, .OSUB, .OSHL, .OSHR] := by
    revert rule
    cases op <;> decide
  have exit : identityExit fp syms op l r = if cmpnode fp syms r 0 then .free_right else .unchanged := by
    revert rule
    cases op <;> first | exact fun h => absurd h (by decide) | exact fun _ => rfl
  rw [exit]
  split
  case isTrue iszeror =>
    exact keeps_left operator operand (cmpnode_zero operands.right saneRight iszeror)
      (fun v x own evaluated => operands.neutral_zero strict own wider evaluated) value
  case isFalse => exact value

theorem mul_exit (strict : M.wraps = false) (operand : r ≠ .nil) (operands : Operands .OMUL tp l r) (saneRight : Sane syms r)
    (value : eval M syms (.mk .OMUL nconst tp sym l r) s = some out) :
    exitEval M syms (.mk .OMUL nconst tp sym l r) l r (.mk .OCOMMA nconst tp sym l r) s
        (identityExit fp syms .OMUL l r) = some out := by
  dsimp only [identityExit]
  split
  case isTrue iszeror =>
    have zero := cmpnode_zero (M := M) operands.right saneRight iszeror
    obtain ⟨o, s₂⟩ := out
    obtain ⟨v, s₁, w, x, left, right, evaluated, result⟩ := (eval_binary_some (by decide) operand).mp value
    cases right.symm.trans (zero s₁)
    rw [exitEval, eval_comma_constant left zero, inType_zero]
    exact congrArg (fun v => some (v, s₂)) (result.trans (operands.absorbing evaluated)).symm
  case isFalse =>
    split
    case isTrue isoner =>
      exact keeps_left (by decide) operand (cmpnode_one operands.right saneRight isoner)
        (fun v x own evaluated => operands.neutral_one strict own (by decide) evaluated) value
    case isFalse => exact value

theorem div_exit (strict : M.wraps = false) (operand : r ≠ .nil) (operands : Operands .ODIV tp l r) (saneRight : Sane syms r)
    (value : eval M syms (.mk .ODIV nconst tp sym l r) s = some out) :
    exitEval M syms (.mk .ODIV nconst tp sym l r) l r (.mk .OCOMMA nconst tp sym l r) s
        (identityExit fp syms .ODIV l r) = some out := by
  dsimp only [identityExit]
  split
  case isTrue isoner =>
    exact keeps_left (by decide) operand (cmpnode_one operands.right saneRight isoner)
      (fun v x own evaluated => operands.neutral_one strict own (by decide) evaluated) value
  case isFalse => exact value

theorem band_exit (operand : r ≠ .nil) (operands : Operands .OBAND tp l r) (saneRight : Sane syms r)
    (value : eval M syms (.mk .OBAND nconst tp sym l r) s = some out) :
    exitEval M syms (.mk .OBAND nconst tp sym l r) l r (.mk .OCOMMA nconst tp sym l r) s
        (identityExit fp syms .OBAND l r) = some out := by
  have same : r.type = tp := by
    rcases operands.same with same | same
    · exact same.2
    · exact absurd same.2 (by decide)
  dsimp only [identityExit]
  split
  case isTrue ones =>
    have right := cmpnode_eval (M := M) operands.right saneRight ones
    rw [same] at right
    exact keeps_left (by decide) operand right (fun v x own evaluated => operands.neutral_ones own evaluated) value
  case isFalse => exact value

/-- `i % 1` is 0, and becomes the comma of `i` and 1. -/
theorem mod_exit (operand : r ≠ .nil) (operands : Operands .OMOD tp l r) (saneRight : Sane syms r)
    (value : eval M syms (.mk .OMOD nconst tp sym l r) s = some out) :
    exitEval M syms (.mk .OMOD nconst tp sym l r) l r (.mk .OCOMMA nconst tp sym l r) s
        (identityExit fp syms .OMOD l r) = some out ↔ cmpnode fp syms r 1 = false := by
  dsimp only [identityExit]
  split
  case isTrue isoner =>
    have one := cmpnode_one (M := M) operands.right saneRight isoner
    obtain ⟨v, s₁, w, x, left, right, evaluated, result⟩ := (eval_binary_some (by decide) operand).mp value
    cases right.symm.trans (one s₁)
    rw [exitEval, eval_comma_constant left one, operands.type.one]
    refine iff_of_false (fun same => ?_) fun other => absurd (isoner.symm.trans other) (by decide)
    rw [binary, if_pos operands.type.integral, intBinary, IntType.mod] at evaluated
    obtain ⟨quotient, -, rest⟩ := Option.map_eq_some_iff.mp evaluated
    rw [← Option.some_inj.mp same, ← rest, Int.tmod_one, inType_zero] at result
    cases result
  case isFalse isoner => exact iff_of_true value (by simpa using isoner)

/-- Each rule keeps the value and the effects of a tree of an integer type, but `i % 1` comes out
as 1, and the count of a shift of 0 is not evaluated. -/
theorem identity_keeps (strict : M.wraps = false) (operands : Operands op tp l r) (saneLeft : Sane syms l)
    (saneRight : Sane syms r) (boolean : op ∈ [.OAND, .OOR] → Truth M syms l ∧ Truth M syms r)
    (value : eval M syms (.mk op nconst tp sym l r) s = some out) :
    Keeps M fp syms (.mk op nconst tp sym l r) s out ↔ SafeIdentity M fp syms op l r s := by
  by_cases operand : r = .nil
  · subst operand
    exact iff_of_true ⟨_, rfl, value⟩ ⟨fun _ => rfl, fun _ _ _ => nofun⟩
  rw [keeps_exit operand]
  by_cases remainder : op = .OMOD
  · subst remainder
    rw [mod_exit operand operands saneRight value, SafeIdentity, forall_prop_of_true rfl, and_iff_left fun shift => absurd shift (by decide)]
  by_cases shift : op ∈ [.OSHL, .OSHR]
  · rw [shift_exit shift strict operand operands saneLeft saneRight value, SafeIdentity, forall_prop_of_true shift,
      and_iff_right fun same => absurd same remainder]
  refine iff_of_true ?_ ⟨fun same => absurd same remainder, fun same => absurd same shift⟩
  cases op
  case OOR => exact or_exit operands saneLeft saneRight (boolean (by decide)).1 (boolean (by decide)).2 value
  case OAND => exact and_exit operands saneLeft saneRight (boolean (by decide)).1 (boolean (by decide)).2 value
  case OMUL => exact mul_exit strict operand operands saneRight value
  case ODIV => exact div_exit strict operand operands saneRight value
  case OBAND => exact band_exit operand operands saneRight value
  case OBXOR | OADD | OBOR | OSUB => exact zero_exit (by decide) strict operand operands saneRight value
  case OMOD => exact absurd rfl remainder
  case OSHL | OSHR => exact absurd (by decide) shift
  all_goals exact value

theorem Integral.inType_truth (integer : Integral tp) (b : Bool) : inType tp (Fold.truth b) = Fold.truth b := by
  cases b with
  | false => exact inType_zero tp
  | true => exact integer.one

theorem truth_boolean (b : Bool) : Fold.truth b = 0 ∨ Fold.truth b = 1 := by
  cases b with
  | false => exact .inl rfl
  | true => exact .inr rfl

theorem binary_comparison (M : Machine σ) (tp : CType) (comparison : op ∈ [.OLT, .OGT, .OGE, .OLE, .OEQ, .ONE]) (v w : Int) :
    ∃ b, binary M tp op v w = some (Fold.truth b) := by
  simp only [List.mem_cons, List.not_mem_nil, or_false] at comparison
  unfold binary
  split
  all_goals
    rcases comparison with rfl | rfl | rfl | rfl | rfl | rfl
    all_goals exact ⟨_, rfl⟩

/-- The comparisons, which `exp2cond` lets through as operands of `&&` and `||`, have truth values. -/
theorem comparison_truth (integer : Integral tp) (comparison : op ∈ [.OLT, .OGT, .OGE, .OLE, .OEQ, .ONE])
    (operand : r ≠ .nil) : Truth M syms (.mk op nconst tp sym l r) := by
  intro s v s' value
  have operator : op ∈ operators := by
    revert comparison
    cases op <;> decide
  obtain ⟨v', s₁, w, x, -, -, evaluated, result⟩ := (eval_binary_some operator operand).mp value
  obtain ⟨b, truth⟩ := binary_comparison M tp comparison v' w
  cases truth.symm.trans evaluated
  rw [show v = _ from result, integer.inType_truth]
  exact truth_boolean b

/-- So have conjunctions, disjunctions and negations. -/
theorem logic_truth (integer : Integral tp) (logic : op ∈ [.OAND, .OOR]) : Truth M syms (.mk op nconst tp sym l r) := by
  intro s v s' value
  simp only [List.mem_cons, List.not_mem_nil, or_false] at logic
  rcases logic with rfl | rfl
  · obtain ⟨v', s₁, -, ⟨-, ⟨⟩⟩ | ⟨-, w, -, result⟩⟩ := eval_and_some.mp value
    · exact .inl (inType_zero tp)
    · rw [show v = _ from result, integer.inType_truth]
      exact truth_boolean _
  · obtain ⟨v', s₁, -, ⟨-, ⟨⟩⟩ | ⟨-, w, -, result⟩⟩ := eval_or_some.mp value
    · exact .inr integer.one
    · rw [show v = _ from result, integer.inType_truth]
      exact truth_boolean _

theorem negation_truth (integer : Integral tp) : Truth M syms (.mk .ONEG nconst tp sym l .nil) := by
  intro s v s' value
  rw [eval_unary (by decide)] at value
  obtain ⟨⟨v', s₁⟩, -, value⟩ := Option.bind_eq_some_iff.mp value
  cases value
  rw [integer.inType_truth]
  exact truth_boolean _

end

/-- Where no operand calls or stores anything, only the remainder is wrong. -/
theorem safeIdentity_pure {σ : Type} {M : Machine σ} {fp : Floats} {syms : Symbols} {op : Op} {l r : Node} {s : σ}
    (quiet : pure r = true) (other : op ≠ .OMOD) : SafeIdentity M fp syms op l r s :=
  ⟨fun same => absurd same other, fun _ _ _ w s' value => (pure_steady r quiet).1 s w s' value⟩

/-- `x % 1` becomes `x, 1`, and of `0 << f()` the call is lost. -/
theorem identity_differs :
    eval oneVariable (twoConstants ⟨inttype, true, 1⟩ ⟨inttype, false, 0⟩)
        (node .OMOD inttype (varnode 1 inttype) (constnode 0 inttype)) 5 = some (0, 5) ∧
      ¬Keeps oneVariable noFloats (twoConstants ⟨inttype, true, 1⟩ ⟨inttype, false, 0⟩)
        (node .OMOD inttype (varnode 1 inttype) (constnode 0 inttype)) 5 (0, 5) ∧
      eval oneVariable (twoConstants ⟨inttype, true, 0⟩ ⟨inttype, false, 0⟩)
        (node .OSHL inttype (constnode 0 inttype) (node .OCALL inttype (varnode 1 inttype) .nil)) 5 = some (0, 6) ∧
      ¬Keeps oneVariable noFloats (twoConstants ⟨inttype, true, 0⟩ ⟨inttype, false, 0⟩)
        (node .OSHL inttype (constnode 0 inttype) (node .OCALL inttype (varnode 1 inttype) .nil)) 5 (0, 6) := by
  refine ⟨by decide, ?_, by decide, ?_⟩
  all_goals
    rintro ⟨np, simplified, value⟩
    cases simplified
    exact absurd value (by decide)

theorem identity_keeps_product :
    Keeps oneVariable noFloats (twoConstants ⟨inttype, true, 0⟩ ⟨inttype, false, 0⟩)
        (.mk .OMUL false inttype none (varnode 1 inttype) (constnode 0 inttype)) 5 (0, 5) ↔
      SafeIdentity oneVariable noFloats (twoConstants ⟨inttype, true, 0⟩ ⟨inttype, false, 0⟩) .OMUL (varnode 1 inttype)
        (constnode 0 inttype) 5 :=
  have int : Integral inttype := ⟨by decide, by decide⟩
  identity_keeps rfl ⟨int, int, int, .inl ⟨rfl, rfl⟩⟩ nofun
    (by
      intro a same
      cases same
      exact ⟨⟨_, _, _, rfl⟩, by decide⟩)
    (fun logic => absurd logic (by decide)) (by decide)

end Scc.Cc1.Fold
