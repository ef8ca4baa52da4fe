import Scc.Cc1.Evaluation

set_option linter.all false

/-! Evaluation of binary trees, of constants, and of trees whose value is known before the
program runs or that have no effect. -/
namespace Scc.Cc1.Fold
open Arithmetic

/-- The binary operators that evaluate both of their operands. -/
def operators : List Op :=
  [.OADD, .OSUB, .OMUL, .ODIV, .OMOD, .OSHL, .OSHR, .OBAND, .OBXOR, .OBOR, .OLT, .OGT, .OGE, .OLE, .OEQ, .ONE]

def unaryOperators : List Op := [.OADD, .OSNEG, .OCPL, .ONEG]

/-! A tree whose value is known before the program runs, and an lvalue whose address is. -/

mutual

def static : Node → Bool
  | .nil => false
  | .mk op nconst _ sym left right =>
    match op with
    | .OSYM => nconst && sym.isSome
    | .OADDR => place left
    | .OCAST => static left
    | _ =>
      if right = .nil then op ∈ unaryOperators && static left
      else op ∈ operators && static left && static right

def place : Node → Bool
  | .nil => false
  | .mk op nconst _ sym left _ =>
    match op with
    | .OSYM => !nconst && sym.isSome
    | .OPTR => static left
    | .OFIELD => place left
    | _ => false

end

/-- A tree that calls nothing and stores nothing. -/
def pure : Node → Bool
  | .nil => true
  | .mk op _ _ _ left right =>
    op ∉ [.OASSIGN, .OA_MUL, .OA_DIV, .OA_MOD, .OA_ADD, .OA_SUB, .OA_SHL, .OA_SHR, .OA_AND, .OA_XOR, .OA_OR,
      .OINC, .ODEC, .OCALL, .OCALLE, .OBUILTIN] && pure left && pure right

/-- The symbols of the constants in a tree. -/
def Node.constants : Node → List Nat
  | .nil => []
  | .mk op nconst _ sym left right =>
    (if op = .OSYM ∧ nconst then sym.toList else []) ++ left.constants ++ right.constants

section
variable {σ : Type} {M : Machine σ} {syms : Symbols} {tp : CType} {op : Op} {nconst : Bool} {sym : Option Nat}
  {l r np : Node} {s s' : σ} {out : Int × σ} {v w : Int}

@[simp] theorem inType_inType (tp : CType) (v : Int) : inType tp (inType tp v) = inType tp v := by
  unfold inType
  split
  case isFalse => rfl
  case isTrue =>
    unfold IntType.convert
    split
    case isTrue => exact Int.bmod_bmod
    case isFalse => exact Int.emod_emod_of_dvd _ (Int.dvd_refl _)

theorem eval_binary (known : op ∈ operators) (operand : r ≠ .nil) :
    eval M syms (.mk op nconst tp sym l r) s = do
      let (v, s) ← eval M syms l s
      let (w, s) ← eval M syms r s
      return (inType tp (← binary M tp op v w), s) := by
  simp only [operators, List.mem_cons, List.not_mem_nil, or_false] at known
  rcases known with rfl | rfl | rfl | rfl | rfl | rfl | rfl | rfl | rfl | rfl | rfl | rfl | rfl | rfl | rfl | rfl
  all_goals simp only [eval, if_neg operand]

theorem eval_unary (known : op ∈ unaryOperators) :
    eval M syms (.mk op nconst tp sym l .nil) s = do
      let (v, s) ← eval M syms l s
      return (inType tp (← unary M tp op v), s) := by
  simp only [unaryOperators, List.mem_cons, List.not_mem_nil, or_false] at known
  rcases known with rfl | rfl | rfl | rfl
  all_goals simp only [eval, if_true]

/-- What there is to know of a binary tree that has a value. -/
theorem eval_binary_some (known : op ∈ operators) (operand : r ≠ .nil) :
    eval M syms (.mk op nconst tp sym l r) s = some out ↔
      ∃ v s₁ w x, eval M syms l s = some (v, s₁) ∧ eval M syms r s₁ = some (w, out.2) ∧
        binary M tp op v w = some x ∧ out.1 = inType tp x := by
  rw [eval_binary known operand]
  simp only [Option.bind_eq_bind, Option.bind_eq_some_iff, Option.pure_def, Option.some.injEq]
  constructor
  · rintro ⟨⟨v, s₁⟩, left, ⟨w, s₂⟩, right, x, value, rfl⟩
    exact ⟨v, s₁, w, x, left, right, value, rfl⟩
  · rintro ⟨v, s₁, w, x, left, right, value, result⟩
    exact ⟨(v, s₁), left, (w, out.2), right, x, value, by rw [← result]⟩

/-- Constants have their value whatever the state is. -/
theorem eval_constant {a : Nat} :
    eval M syms (.mk .OSYM true tp (some a) l r) s = some (inType tp (constantValue M tp (syms.get a).u), s) := rfl

theorem eval_comma :
    eval M syms (.mk .OCOMMA nconst tp sym l r) s = do
      let (_, s) ← eval M syms l s
      let (v, s) ← eval M syms r s
      return (inType tp v, s) := rfl

/-- The value of a tree is one of its type. -/
theorem eval_inType (np : Node) (value : eval M syms np s = some (v, s')) : inType np.type v = v := by
  cases np with
  | nil => cases value
  | mk op nconst tp sym left right =>
    unfold eval at value
    split at value
    case h_1 =>
      obtain ⟨a, -, value⟩ := Option.bind_eq_some_iff.mp value
      split at value
      all_goals
        cases value
        exact inType_inType _ _
    case h_2 | h_3 | h_5 =>
      obtain ⟨⟨a, s₁⟩, -, value⟩ := Option.bind_eq_some_iff.mp value
      cases value
      exact inType_inType _ _
    case h_4 | h_6 | h_9 | h_10 =>
      obtain ⟨⟨a, s₁⟩, -, value⟩ := Option.bind_eq_some_iff.mp value
      obtain ⟨x, -, value⟩ := Option.bind_eq_some_iff.mp value
      cases value
      exact inType_inType _ _
    case h_7 | h_8 =>
      obtain ⟨⟨x, s₁⟩, -, value⟩ := Option.bind_eq_some_iff.mp value
      dsimp only at value
      split at value
      case isTrue =>
        cases value
        exact inType_inType _ _
      case isFalse =>
        obtain ⟨⟨y, s₂⟩, -, value⟩ := Option.bind_eq_some_iff.mp value
        cases value
        exact inType_inType _ _
    case h_11 | h_12 =>
      obtain ⟨⟨f, s₁⟩, -, value⟩ := Option.bind_eq_some_iff.mp value
      obtain ⟨⟨vs, s₂⟩, -, value⟩ := Option.bind_eq_some_iff.mp value
      obtain ⟨⟨x, s₃⟩, -, value⟩ := Option.bind_eq_some_iff.mp value
      cases value
      exact inType_inType _ _
    case h_13 =>
      obtain ⟨⟨x, s₁⟩, -, value⟩ := Option.bind_eq_some_iff.mp value
      cases value
      exact inType_inType _ _
    case h_14 | h_15 => cases value
    case h_28 =>
      obtain ⟨⟨x, s₁⟩, -, value⟩ := Option.bind_eq_some_iff.mp value
      dsimp only at value
      split at value
      case isTrue =>
        obtain ⟨z, -, value⟩ := Option.bind_eq_some_iff.mp value
        cases value
        exact inType_inType _ _
      case isFalse =>
        obtain ⟨⟨y, s₂⟩, -, value⟩ := Option.bind_eq_some_iff.mp value
        obtain ⟨z, -, value⟩ := Option.bind_eq_some_iff.mp value
        cases value
        exact inType_inType _ _
    all_goals
      obtain ⟨⟨a, s₁⟩, -, value⟩ := Option.bind_eq_some_iff.mp value
      obtain ⟨⟨y, s₂⟩, -, value⟩ := Option.bind_eq_some_iff.mp value
      obtain ⟨op', -, value⟩ := Option.bind_eq_some_iff.mp value
      obtain ⟨new, -, value⟩ := Option.bind_eq_some_iff.mp value
      cases value
      exact inType_inType _ _

/-- A tree is evaluated alike with symbols that agree on its constants. -/
theorem eval_congr {syms' : Symbols} (np : Node) (agree : ∀ a ∈ np.constants, (syms.get a).u = (syms'.get a).u) :
    eval M syms np = eval M syms' np ∧ lval M syms np = lval M syms' np ∧ args M syms np = args M syms' np ∧
      ∀ cond, branch M syms cond np = branch M syms' cond np := by
  induction np with
  | nil => exact ⟨rfl, rfl, rfl, fun _ => rfl⟩
  | mk op nconst tp sym left right ihl ihr =>
    obtain ⟨evalLeft, lvalLeft, argsLeft, -⟩ := ihl fun a known =>
      agree a (List.mem_append_left _ (List.mem_append_right _ known))
    obtain ⟨evalRight, -, argsRight, branchRight⟩ := ihr fun a known => agree a (List.mem_append_right _ known)
    refine ⟨?_, ?_, ?_, fun cond => ?_⟩
    · funext s
      cases op
      case OSYM =>
        cases sym with
        | none => rfl
        | some a =>
          cases nconst with
          | false => rfl
          | true =>
            have same := agree a (by simp [Node.constants])
            rw [eval_constant, eval_constant, same]
      all_goals simp only [eval, evalLeft, lvalLeft, evalRight, branchRight, argsRight]
    · funext s
      unfold lval
      split
      all_goals simp only [evalLeft, lvalLeft]
    · funext s
      simp only [args, argsLeft, evalRight]
    · funext s
      simp only [branch, evalLeft, evalRight]

/-- The address of a place and the value of a static tree do not depend on the state, and
finding them does not change it. -/
theorem static_known (np : Node) :
    (static np = true → ∃ v : Option Int, ∀ s, eval M syms np s = v.map fun v => (v, s)) ∧
      (place np = true → ∃ a : Option Int, ∀ s, lval M syms np s = a.map fun a => (a, s)) := by
  induction np with
  | nil => exact ⟨nofun, nofun⟩
  | mk op nconst tp sym left right ihl ihr =>
    constructor
    · intro known
      unfold static at known
      split at known
      case h_1 =>
        obtain ⟨rfl, present⟩ := Bool.and_eq_true_iff.mp known
        obtain ⟨a, rfl⟩ := Option.isSome_iff_exists.mp present
        exact ⟨some (inType tp (constantValue M tp (syms.get a).u)), fun s => eval_constant⟩
      case h_2 =>
        obtain ⟨a, address⟩ := ihl.2 known
        refine ⟨a.map (inType tp), fun s => ?_⟩
        simp only [eval, address]
        cases a with
        | none => rfl
        | some a => rfl
      case h_3 =>
        obtain ⟨v, value⟩ := ihl.1 known
        refine ⟨v.map fun v => inType tp (castValue M tp left.type v), fun s => ?_⟩
        simp only [eval, value]
        cases v with
        | none => rfl
        | some v => rfl
      case h_4 =>
        split at known
        case isTrue empty =>
          subst empty
          obtain ⟨operator, operand⟩ := Bool.and_eq_true_iff.mp known
          obtain ⟨v, value⟩ := ihl.1 operand
          refine ⟨v.bind fun v => (unary M tp op v).map (inType tp), fun s => ?_⟩
          rw [eval_unary (of_decide_eq_true operator), value]
          cases v with
          | none => rfl
          | some v => cases result : unary M tp op v <;> simp [result]
        case isFalse operand =>
          simp only [Bool.and_eq_true, decide_eq_true_eq] at known
          obtain ⟨⟨operator, left_⟩, right_⟩ := known
          obtain ⟨v, leftValue⟩ := ihl.1 left_
          obtain ⟨w, rightValue⟩ := ihr.1 right_
          refine ⟨v.bind fun v => w.bind fun w => (binary M tp op v w).map (inType tp), fun s => ?_⟩
          rw [eval_binary operator operand, leftValue]
          cases v with
          | none => rfl
          | some v =>
            cases w with
            | none => simp [rightValue]
            | some w => cases result : binary M tp op v w <;> simp [rightValue, result]
    · intro known
      unfold place at known
      split at known
      case h_1 =>
        obtain ⟨variable_, present⟩ := Bool.and_eq_true_iff.mp known
        obtain ⟨a, rfl⟩ := Option.isSome_iff_exists.mp present
        refine ⟨some (pointer (M.address a)), fun s => ?_⟩
        rw [Bool.not_eq_true'] at variable_
        simp [lval, variable_]
      case h_2 =>
        obtain ⟨v, value⟩ := ihl.1 known
        refine ⟨v.map pointer, fun s => ?_⟩
        simp only [lval, value]
        cases v with
        | none => rfl
        | some v => rfl
      case h_3 =>
        obtain ⟨a, address⟩ := ihl.2 known
        refine ⟨a.bind fun a => (fieldOffset M right).map fun offset => pointer (a + offset), fun s => ?_⟩
        simp only [lval, address]
        cases a with
        | none => rfl
        | some a => cases result : fieldOffset M right <;> simp
      case h_4 => cases known

theorem static_value {s₁ : σ} (known : static l = true) (value : eval M syms l s = some (v, s₁)) :
    s₁ = s ∧ ∀ s, eval M syms l s = some (v, s) := by
  obtain ⟨v', values⟩ := (static_known l).1 known
  rw [values s] at value
  obtain ⟨v', rfl, same⟩ := Option.map_eq_some_iff.mp value
  cases same
  exact ⟨rfl, values⟩

/-- The evaluation leaves the state as it is. -/
def Steady {α : Type} (f : σ → Option (α × σ)) : Prop := ∀ s a s', f s = some (a, s') → s' = s

theorem pure_steady (np : Node) (quiet : pure np = true) :
    Steady (eval M syms np) ∧ Steady (lval M syms np) ∧ Steady (args M syms np) ∧
      ∀ cond, Steady (branch M syms cond np) := by
  induction np with
  | nil =>
    refine ⟨nofun, nofun, ?_, fun _ => nofun⟩
    rintro s v s' value
    cases value
    rfl
  | mk op nconst tp sym left right ihl ihr =>
    unfold pure at quiet
    simp only [Bool.and_eq_true, decide_eq_true_eq] at quiet
    obtain ⟨⟨other, quietLeft⟩, quietRight⟩ := quiet
    obtain ⟨evalLeft, lvalLeft, argsLeft, -⟩ := ihl quietLeft
    obtain ⟨evalRight, -, -, branchRight⟩ := ihr quietRight
    refine ⟨?_, ?_, ?_, ?_⟩
    · intro s v s' value
      unfold eval at value
      split at value
      case h_1 =>
        obtain ⟨a, -, value⟩ := Option.bind_eq_some_iff.mp value
        split at value
        all_goals
          cases value
          rfl
      case h_2 =>
        obtain ⟨⟨a, s₁⟩, left, value⟩ := Option.bind_eq_some_iff.mp value
        cases value
        exact lvalLeft _ _ _ left
      case h_3 =>
        obtain ⟨⟨a, s₁⟩, left, value⟩ := Option.bind_eq_some_iff.mp value
        cases value
        exact evalLeft _ _ _ left
      case h_4 =>
        obtain ⟨⟨a, s₁⟩, left, value⟩ := Option.bind_eq_some_iff.mp value
        obtain ⟨offset, -, value⟩ := Option.bind_eq_some_iff.mp value
        cases value
        exact lvalLeft _ _ _ left
      case h_5 =>
        obtain ⟨⟨a, s₁⟩, left, value⟩ := Option.bind_eq_some_iff.mp value
        cases value
        exact evalLeft _ _ _ left
      case h_6 =>
        obtain ⟨⟨x, s₁⟩, left, value⟩ := Option.bind_eq_some_iff.mp value
        obtain ⟨⟨y, s₂⟩, right, value⟩ := Option.bind_eq_some_iff.mp value
        cases value
        exact (evalRight _ _ _ right).trans (evalLeft _ _ _ left)
      case h_7 | h_8 =>
        obtain ⟨⟨x, s₁⟩, left, value⟩ := Option.bind_eq_some_iff.mp value
        dsimp only at value
        split at value
        case isTrue =>
          cases value
          exact evalLeft _ _ _ left
        case isFalse =>
          obtain ⟨⟨y, s₂⟩, right, value⟩ := Option.bind_eq_some_iff.mp value
          cases value
          exact (evalRight _ _ _ right).trans (evalLeft _ _ _ left)
      case h_9 =>
        obtain ⟨⟨x, s₁⟩, left, value⟩ := Option.bind_eq_some_iff.mp value
        obtain ⟨⟨y, s₂⟩, right, value⟩ := Option.bind_eq_some_iff.mp value
        cases value
        exact (branchRight _ _ _ _ right).trans (evalLeft _ _ _ left)
      case h_14 | h_15 => cases value
      case h_28 =>
        obtain ⟨⟨x, s₁⟩, left, value⟩ := Option.bind_eq_some_iff.mp value
        dsimp only at value
        split at value
        case isTrue =>
          obtain ⟨z, -, value⟩ := Option.bind_eq_some_iff.mp value
          cases value
          exact evalLeft _ _ _ left
        case isFalse =>
          obtain ⟨⟨y, s₂⟩, right, value⟩ := Option.bind_eq_some_iff.mp value
          obtain ⟨z, -, value⟩ := Option.bind_eq_some_iff.mp value
          cases value
          exact (evalRight _ _ _ right).trans (evalLeft _ _ _ left)
      all_goals exact absurd (by decide) other
    · intro s v s' value
      unfold lval at value
      split at value
      case h_1 =>
        obtain ⟨a, -, value⟩ := Option.bind_eq_some_iff.mp value
        split at value
        all_goals
          cases value
          try rfl
      case h_2 =>
        obtain ⟨⟨a, s₁⟩, left, value⟩ := Option.bind_eq_some_iff.mp value
        cases value
        exact evalLeft _ _ _ left
      case h_3 =>
        obtain ⟨⟨a, s₁⟩, left, value⟩ := Option.bind_eq_some_iff.mp value
        obtain ⟨offset, -, value⟩ := Option.bind_eq_some_iff.mp value
        cases value
        exact lvalLeft _ _ _ left
      case h_4 => cases value
    · intro s v s' value
      unfold args at value
      split at value
      case isTrue =>
        obtain ⟨⟨vs, s₁⟩, left, value⟩ := Option.bind_eq_some_iff.mp value
        obtain ⟨⟨y, s₂⟩, right, value⟩ := Option.bind_eq_some_iff.mp value
        cases value
        exact (evalRight _ _ _ right).trans (argsLeft _ _ _ left)
      case isFalse => cases value
    · intro cond s v s' value
      unfold branch at value
      split at value
      case isTrue =>
        split at value
        case isTrue => exact evalLeft _ _ _ value
        case isFalse => exact evalRight _ _ _ value
      case isFalse => cases value

end

/-- Floating arithmetic in which every result is 0 and nothing compares. -/
def noFloatArith : FloatArith where
  add _ _ _ := 0
  sub _ _ _ := 0
  mul _ _ _ := 0
  div _ _ _ := 0
  neg _ _ := 0
  lt _ _ _ := false
  eq _ _ _ := false
  constant _ _ := 0
  cast _ _ _ := 0
  add_comm _ _ _ := rfl
  mul_comm _ _ _ := rfl
  eq_comm _ _ _ := rfl
  lt_ne _ _ _ := nofun

/-- The machine with one variable, which is all of its state. A call increments it. -/
def oneVariable : Machine Int where
  address _ := 0
  offset _ := 0
  load _ _ s := s
  store _ _ v _ := v
  call _ _ _ s := some (s, s + 1)
  builtin _ _ _ _ _ := none
  float := noFloatArith
  wraps := false

/-- The variable of the machine as an expression. -/
def varnode (s : Nat) (tp : CType) : Node := .mk .OSYM false tp (some s) .nil .nil

end Scc.Cc1.Fold
