import Scc.Transition.Runs
import Scc.Transition.Code
import Scc.Cc1.Stmt

set_option linter.all false

/-! The meaning of structured statements, with the statements still to be executed as
a continuation, and the meaning of the sequence of emitted labels, jumps and branches.
Expressions are evaluated by one arbitrary `Meaning`. -/
namespace Scc.Cc1
open Transition

/-- The evaluation of trees: its side effects in order, the state after it, the value. -/
structure Meaning (W V Ev : Type) where
  value : Node → W → List Ev × W × V
  nonzero : V → Bool
  /-- The value of the constant of a case label. -/
  constant : Node → V
  equal : V → V → Bool
  /-- The comparison operators other than `!=`, which is not `==`. -/
  holds : Op → CType → V → V → Bool

variable {W V Ev : Type}

/-- Comparisons of integers are total orders; `OGE` and `OGT` of floating operands have
a truth value of their own. -/
def Meaning.compare (m : Meaning W V Ev) (op : Op) (type : CType) (l r : V) : Bool :=
  match op with
  | .ONE => !m.holds .OEQ type l r
  | .OGE => if type.op = .FLOAT then m.holds .OGE type l r else !m.holds .OLT type l r
  | .OGT => if type.op = .FLOAT then m.holds .OGT type l r else !m.holds .OLE type l r
  | op => m.holds op type l r

def Node.compares : Node → Bool
  | .mk op _ _ _ _ _ => isComparison op
  | .nil => false

/-- The truth of a tree that stands as the condition of a branch: `!`, a comparison or its
conversion to `int`, or any other value. -/
def Meaning.truth (m : Meaning W V Ev) : Node → W → List Ev × W × Bool
  | .mk op nconst type sym left right, w =>
    if op = .ONEG then
      let (events, w, b) := m.truth left w
      (events, w, !b)
    else if isComparison op then
      let (first, w, l) := m.value left w
      let (second, w, r) := m.value right w
      (first ++ second, w, m.compare op type l r)
    else if op = .OCAST ∧ type = inttype ∧ left.compares then m.truth left w
    else
      let (events, w, v) := m.value (.mk op nconst type sym left right) w
      (events, w, m.nonzero v)
  | .nil, w => ([], w, false)

/-- The effects of a tree whose value is not used; there are none without a tree. -/
def Meaning.run (m : Meaning W V Ev) (np : Node) (w : W) : List Ev × W :=
  match np with
  | .nil => ([], w)
  | np => ((m.value np w).1, (m.value np w).2.1)

/-- The effects and the value of the tree of a `return`, if there is one. -/
def Meaning.result (m : Meaning W V Ev) (np : Node) (w : W) : List Ev × Option V × W :=
  match np with
  | .nil => ([], none, w)
  | np => ((m.value np w).1, some (m.value np w).2.2, (m.value np w).2.1)

/-- C: a condition holds when it compares unequal to 0. -/
def Meaning.holdsCond (m : Meaning W V Ev) (cond : Cond) (w : W) : List Ev × W × Bool :=
  m.truth (cond.tree false) w

/-! Structured statements. -/

inductive Cont where
  | stop
  | seq (rest : Stmt) (k : Cont)
  | if (k : Cont)
  | while (cond : Cond) (body : Stmt) (k : Cont)
  | dowhile (body : Stmt) (cond : Cond) (k : Cont)
  | for (econd : Option Cond) (einc : Option Node) (body : Stmt) (k : Cont)
  | switch (k : Cont)

inductive Control where
  | stmt (s : Stmt)
  /-- The statement has been completed. -/
  | normal
  | break
  | continue
  /-- The condition of the innermost `for` is due. -/
  | test

inductive State (W V : Type) where
  | running (c : Control) (k : Cont) (w : W)
  | returned (value : Option V) (w : W)
  | stuck

inductive Outcome (W V : Type) where
  | returned (value : Option V) (w : W)
  | stuck

/-- The first statement with a matching label of the same switch, and what follows it. -/
def Stmt.find (labelled : Option Node → Bool) : Stmt → Cont → Option (Stmt × Cont)
  | .seq first rest, k => (first.find labelled (.seq rest k)).or (rest.find labelled k)
  | .label _ body, k => body.find labelled k
  | .while cond body, k => body.find labelled (.while cond body k)
  | .dowhile body cond, k => body.find labelled (.dowhile body cond k)
  | .for _ econd einc body, k => body.find labelled (.for econd einc body k)
  | .if _ body, k => body.find labelled (.if k)
  | .ifelse _ body other, k => (body.find labelled (.if k)).or (other.find labelled (.if k))
  | .case np body, k => if labelled (some np) then some (body, k) else body.find labelled k
  | .default body, k => if labelled none then some (body, k) else body.find labelled k
  | _, _ => none

/-- The statement a switch continues with: a case with the value, else the default. -/
def Stmt.select (m : Meaning W V Ev) (v : V) (body : Stmt) (k : Cont) : Option (Stmt × Cont) :=
  (body.find (fun label => label.any fun np => m.equal (m.constant np) v) k).or
    (body.find Option.isNone k)

abbrev Step (W V Ev : Type) := Next (State W V) Ev (Outcome W V)

/-- Go on after an evaluation, depending on its truth value. -/
def branch (result : List Ev × W × Bool) (yes no : Control × Cont) : Step W V Ev :=
  let next := if result.2.2 then yes else no
  .more result.1 (.running next.1 next.2 result.2.1)

def stmtStep (m : Meaning W V Ev) (k : Cont) (w : W) : Stmt → Step W V Ev
  | .skip | .decl _ _ => .more [] (.running .normal k w)
  | .seq first rest => .more [] (.running (.stmt first) (.seq rest k) w)
  | .expr np => .more (m.run np w).1 (.running .normal k (m.run np w).2)
  | .label _ body | .case _ body | .default body => .more [] (.running (.stmt body) k w)
  | .goto _ => .more [] .stuck
  | .while cond body =>
    branch (m.holdsCond cond w) (.stmt body, .while cond body k) (.normal, k)
  | .dowhile body cond => .more [] (.running (.stmt body) (.dowhile body cond k) w)
  | .for (.expr np :: init) econd einc body =>
    .more (m.run np w).1 (.running (.stmt (.for init econd einc body)) k (m.run np w).2)
  | .for (.decl _ _ :: init) econd einc body =>
    .more [] (.running (.stmt (.for init econd einc body)) k w)
  | .for [] econd einc body => .more [] (.running .test (.for econd einc body k) w)
  | .if cond body => branch (m.holdsCond cond w) (.stmt body, .if k) (.normal, k)
  | .ifelse cond body other =>
    branch (m.holdsCond cond w) (.stmt body, .if k) (.stmt other, .if k)
  | .break => .more [] (.running .break k w)
  | .continue => .more [] (.running .continue k w)
  | .return np =>
    let (events, v, w) := m.result (np.getD .nil) w
    .more events (.returned v w)
  | .switch cond body =>
    let (events, w, v) := m.value (switchCond cond) w
    match body.select m v (.switch k) with
    | some (s, k) => .more events (.running (.stmt s) k w)
    | none => .more events (.running .normal k w)

def normalStep (m : Meaning W V Ev) (w : W) : Cont → Step W V Ev
  | .stop => .done (.returned none w)
  | .seq rest k => .more [] (.running (.stmt rest) k w)
  | .if k | .switch k => .more [] (.running .normal k w)
  | .while cond body k =>
    branch (m.holdsCond cond w) (.stmt body, .while cond body k) (.normal, k)
  | .dowhile body cond k =>
    branch (m.holdsCond cond w) (.stmt body, .dowhile body cond k) (.normal, k)
  | .for econd einc body k =>
    let (events, w) := m.run (einc.getD .nil) w
    .more events (.running .test (.for econd einc body k) w)

/-- `break` leaves the innermost loop or switch. -/
def breakStep (w : W) : Cont → Step W V Ev
  | .stop => .more [] .stuck
  | .seq _ k | .if k => .more [] (.running .break k w)
  | .while _ _ k | .dowhile _ _ k | .for _ _ _ k | .switch k => .more [] (.running .normal k w)

/-- `continue` ends the body of the innermost loop. -/
def continueStep (m : Meaning W V Ev) (w : W) : Cont → Step W V Ev
  | .stop => .more [] .stuck
  | .seq _ k | .if k | .switch k => .more [] (.running .continue k w)
  | .while cond body k => normalStep m w (.while cond body k)
  | .dowhile body cond k => normalStep m w (.dowhile body cond k)
  | .for econd einc body k => normalStep m w (.for econd einc body k)

def testStep (m : Meaning W V Ev) (w : W) : Cont → Step W V Ev
  | .for none einc body k => .more [] (.running (.stmt body) (.for none einc body k) w)
  | .for (some cond) einc body k =>
    branch (m.holdsCond cond w) (.stmt body, .for (some cond) einc body k) (.normal, k)
  | _ => .more [] .stuck

def structured (m : Meaning W V Ev) : State W V → Step W V Ev
  | .running (.stmt s) k w => stmtStep m k w s
  | .running .normal k w => normalStep m w k
  | .running .break k w => breakStep w k
  | .running .continue k w => continueStep m w k
  | .running .test k w => testStep m w k
  | .returned value w => .done (.returned value w)
  | .stuck => .done .stuck

/-! The emitted sequence. -/

inductive Point (W V : Type) where
  | at (code : List Emit) (w : W)
  | returned (value : Option V) (w : W)
  | stuck

/-- The labels of a switch in the lines up to its end, its `case` labels with their
constants; `depth` counts the switches opened since. -/
def table (depth : Nat) : List Emit → List (Option Node × Nat)
  | .OBSWITCH :: code => table (depth + 1) code
  | .OESWITCH _ :: code =>
    match depth with
    | 0 => []
    | depth + 1 => table depth code
  | .OCASE sym :: .OEXPR np :: code =>
    if depth = 0 then (some np, sym) :: table depth code else table depth code
  | .ODEFAULT sym :: code =>
    if depth = 0 then (none, sym) :: table depth code else table depth code
  | _ :: code => table depth code
  | [] => []

/-- The label after the end of the switch. -/
def tableEnd (depth : Nat) : List Emit → Option Nat
  | .OBSWITCH :: code => tableEnd (depth + 1) code
  | .OESWITCH sym :: code =>
    match depth with
    | 0 => some sym
    | depth + 1 => tableEnd depth code
  | _ :: code => tableEnd depth code
  | [] => none

/-- Where a switch transfers control to. -/
def destination (m : Meaning W V Ev) (v : V) (entries : List (Option Node × Nat))
    (last : Option Nat) : Option Nat :=
  match entries.find? fun entry => entry.1.any fun np => m.equal (m.constant np) v with
  | some entry => some entry.2
  | none =>
    match entries.find? fun entry => entry.1.isNone with
    | some entry => some entry.2
    | none => last

def jump (prog : List Emit) (sym : Option Nat) (w : W) : Point W V :=
  match sym.bind fun sym => seek Emit.labelOf sym prog with
  | some code => .at code w
  | none => .stuck

abbrev FlatStep (W V Ev : Type) := Next (Point W V) Ev (Outcome W V)

def lineStep (m : Meaning W V Ev) (prog : List Emit) (w : W) : List Emit → FlatStep W V Ev
  | [] => .done (.returned none w)
  | .OJUMP sym :: _ => .more [] (jump prog (some sym) w)
  | .OBRANCH sym :: .OEXPR np :: code =>
    let (events, w, b) := m.truth np w
    .more events (if b then jump prog (some sym) w else .at code w)
  | .OBRANCH _ :: _ => .more [] .stuck
  | .ORET :: .OEXPR np :: _ =>
    let (events, v, w) := m.result np w
    .more events (.returned v w)
  | .ORET :: _ => .more [] .stuck
  | .OBSWITCH :: .OEXPR np :: code =>
    let (events, w, v) := m.value np w
    .more events (jump prog (destination m v (table 0 code) (tableEnd 0 code)) w)
  | .OBSWITCH :: _ => .more [] .stuck
  | .OCASE _ :: .OEXPR _ :: code => .more [] (.at code w)
  | .OCASE _ :: _ => .more [] .stuck
  | .OEXPR np :: code => .more (m.run np w).1 (.at code (m.run np w).2)
  | _ :: code => .more [] (.at code w)

def flat (m : Meaning W V Ev) (prog : List Emit) : Point W V → FlatStep W V Ev
  | .at code w => lineStep m prog w code
  | .returned value w => .done (.returned value w)
  | .stuck => .done .stuck

end Scc.Cc1

/-! The condition of an `if` is branched on negated: the tree that `exp2cond` builds then
has the same effects and the opposite truth value. -/
namespace Scc.Cc1
variable {W V Ev : Type}

theorem negop_comparison {op : Op} (comparison : isComparison op = true) :
    isComparison (negop op) = true := by
  cases op <;> first | rfl | contradiction

theorem compare_negop (m : Meaning W V Ev) {op : Op} (comparison : isComparison op = true)
    {type : CType} (integer : type.op ≠ .FLOAT) (l r : V) :
    m.compare (negop op) type l r = !m.compare op type l r := by
  cases op <;> first | contradiction | simp [negop, Meaning.compare, integer]

/-- The two results differ only in the truth value. -/
def Opposite (first second : List Ev × W × Bool) : Prop :=
  first = (second.1, second.2.1, !second.2.2)

theorem truth_comparison (m : Meaning W V Ev) {op : Op} (comparison : isComparison op = true)
    (nconst : Bool) (type : CType) (sym : Option Symbol) (left right : Node) (w : W) :
    m.truth (.mk op nconst type sym left right) w =
      ((m.value left w).1 ++ (m.value right (m.value left w).2.1).1,
        (m.value right (m.value left w).2.1).2.1,
        m.compare op type (m.value left w).2.2 (m.value right (m.value left w).2.1).2.2) := by
  have other : op ≠ .ONEG := by rintro rfl; contradiction
  simp [Meaning.truth, other, comparison]

theorem truth_cast (m : Meaning W V Ev) {np : Node} (comparison : np.compares = true) (w : W) :
    m.truth (node .OCAST inttype np .nil) w = m.truth np w := by
  simp [node, Meaning.truth, isComparison, comparison]

/-- The types of the operands alone decide how a comparison becomes an `int`. -/
def intable (type : CType) : Bool :=
  match type.op with
  | .ENUM | .INT | .FLOAT | .PTR => true
  | _ => false

theorem convert_comparison (op : Op) (type : CType) (lp rp : Node) :
    convert (node op type lp rp) inttype true =
      if eqtype inttype type then node op type lp rp
      else if intable type then node .OCAST inttype (node op type lp rp) .nil
      else .nil := by
  have reads : (node op type lp rp).type = type := rfl
  simp only [convert, reads, inttype, integerType]
  cases h : type.op <;> simp [intable, h]

/-- Whatever becomes of the operands, `==` and `!=` are opposite conditions. -/
theorem opposite_equality (m : Meaning W V Ev) (type : CType) (lp rp : Node) (w : W)
    (present : convert (node .OEQ type lp rp) inttype true ≠ .nil) :
    Opposite (m.truth (convert (node .OEQ type lp rp) inttype true) w)
      (m.truth (convert (node .ONE type lp rp) inttype true) w) := by
  have direct : Opposite (m.truth (node .OEQ type lp rp) w) (m.truth (node .ONE type lp rp) w) := by
    rw [node, node, truth_comparison m rfl, truth_comparison m rfl]
    simp [Opposite, Meaning.compare]
  rw [convert_comparison] at present ⊢
  rw [convert_comparison]
  split
  · exact direct
  · rename_i other
    split
    · rw [truth_cast m rfl, truth_cast m rfl]
      exact direct
    · rename_i none
      rw [if_neg other, if_neg none] at present
      exact absurd rfl present

/-- An operand of a pointer comparison, converted if it is an integer. -/
def poperand (np : Node) (type : CType) : Except String Node :=
  if np.type.tinteger then
    match convert np type false with
    | .nil => .error "incompatible types in comparison"
    | np => .ok np
  else .ok np

theorem pcompare_eq (op : Op) (lp rp : Node) :
    pcompare op lp rp = (poperand lp rp.type).bind fun l => (poperand rp l.type).bind fun r =>
      .ok (convert (node op pvoidtype l r) inttype true) := by
  unfold pcompare poperand
  cases lp.type.tinteger <;> cases rp.type.tinteger <;> cases convert lp rp.type false <;>
    simp [bind, Except.bind, pure, Except.pure, throw, throwThe, MonadExceptOf.throw]
  all_goals cases convert rp _ false <;> rfl

/-- `compare` treats all operators alike. -/
theorem compare_cases {op : Op} {lp rp np : Node} (compared : compare op lp rp = .ok np) :
    ∃ type l r, ∀ op', compare op' lp rp = .ok (convert (node op' type l r) inttype true) := by
  unfold compare at compared ⊢
  split at compared
  · rename_i pointer
    simp only [if_pos pointer, pcompare_eq] at compared ⊢
    cases left : poperand lp rp.type with
    | error e => simp [left, Except.bind] at compared
    | ok l =>
      cases right : poperand rp l.type with
      | error e => simp [left, right, Except.bind] at compared
      | ok r => exact ⟨pvoidtype, l, r, fun op' => by simp [right, Except.bind]⟩
  · rename_i other
    simp only [if_neg other] at compared ⊢
    split at compared
    · rename_i arithmetic
      exact ⟨_, _, _, fun op' => by simp only [if_pos arithmetic]; rfl⟩
    · cases compared

theorem opposite_of_not (m : Meaning W V Ev) (np : Node) (w : W) :
    Opposite (m.truth (node .ONEG inttype np .nil) w) (m.truth np w) := by
  simp [Opposite, node, Meaning.truth]

/-- The negated tree of a condition has the effects of the plain one and holds when that
one does not. -/
theorem cond_negated (m : Meaning W V Ev) (cond : Cond) (w : W) :
    Opposite (m.truth (cond.tree true) w) (m.holdsCond cond w) := by
  have plain := cond.accepted false
  have negated := cond.accepted true
  unfold exp2cond at plain negated
  split at plain
  · cases plain
  · rename_i scalar
    simp only [if_neg scalar] at negated
    cases exp : cond.exp with
    | nil => simp [exp] at plain
    | mk op nconst type sym left right =>
      simp only [exp] at plain negated
      split at plain
      · rename_i logical
        rw [if_pos logical] at negated
        rw [Meaning.holdsCond, ← Except.ok.inj plain, ← Except.ok.inj negated]
        exact opposite_of_not m _ w
      · rename_i other
        rw [if_neg other] at negated
        split at plain
        · rename_i comparison
          rw [if_pos comparison] at negated
          have int := cond.typed exp comparison
          rw [Meaning.holdsCond, ← Except.ok.inj plain, ← Except.ok.inj negated]
          simp only [if_true, Bool.false_eq_true, if_false]
          rw [truth_comparison m (negop_comparison comparison), truth_comparison m comparison,
            compare_negop m comparison (by simp [int, inttype, integerType])]
          rfl
        · rename_i value
          rw [if_neg value] at negated
          simp only [if_true, Bool.false_eq_true, if_false] at plain negated
          obtain ⟨type, l, r, built⟩ := compare_cases plain
          have eq := Except.ok.inj ((built .OEQ).symm.trans negated)
          have ne := Except.ok.inj ((built .ONE).symm.trans plain)
          rw [Meaning.holdsCond, ← eq, ← ne]
          exact opposite_equality m type l r w (eq ▸ cond.present true)

end Scc.Cc1
