import Scc.Cc1.Simplify

set_option linter.all false

/-! The loop that simplifies a tree (`xxsimplify` in `fold.c`), and why it ends. -/
namespace Scc.Cc1.Fold
open Arithmetic

def Node.op : Node → Option Op
  | .nil => none
  | .mk op _ _ _ _ _ => some op

def Node.right : Node → Node
  | .nil => .nil
  | .mk _ _ _ _ _ right => right

section
variable (fp : Floats)

/-- A pass of the loop. There is no result where it reads a node that is not there, or its assertion fails. -/
def pass (syms : Symbols) (np : Node) : Option (Node × Symbols) :=
  match np.op with
  | none => none
  | some .OASK => (foldternary fp syms np).map fun np => (np, syms)
  | some .OCALL | some .OPAR | some .OSYM | some .OASSIGN | some .OA_MUL | some .OA_DIV | some .OA_MOD
  | some .OA_ADD | some .OA_SUB | some .OA_SHL | some .OA_SHR | some .OA_AND | some .OA_XOR | some .OA_OR => some (np, syms)
  | some .OSNEG | some .OCPL | some .OADDR | some .OPTR | some .OCAST | some .ONEG =>
    if np.right ≠ .nil then none else (foldunary fp syms np).bind fun (np, syms) => fold fp syms np
  | some _ =>
    (commutative np).bind fun np =>
      (associative fp syms np).bind fun (np, syms) =>
        (fold fp syms np).bind fun (np, syms) => (identity fp syms np).bind (reduce syms)

/-- `repeat`, with how often the loop can be entered: outside, there is no result when that is not enough. -/
def repeats : Nat → Symbols → Node → Option (Option (Node × Symbols))
  | 0, _, _ => none
  | n + 1, syms, np =>
    match pass fp syms np with
    | none => some none
    | some (np', syms') =>
      if np' = .nil then some none else if np.op ≠ np'.op then repeats n syms' np' else some (some (np', syms'))

def xsimplify (n : Nat) (syms : Symbols) : Node → Option (Option (Node × Symbols))
  | .nil => some (some (.nil, syms))
  | .mk op nconst tp sym left right =>
    match xsimplify n syms left with
    | none => none
    | some none => some none
    | some (some (left, syms)) =>
      match xsimplify n syms right with
      | none => none
      | some none => some none
      | some (some (right, syms)) => repeats fp n syms (.mk op nconst tp sym left right)

/-- The loop goes on with another operator. -/
def Restarts (a b : Node × Symbols) : Prop := pass fp a.2 a.1 = some b ∧ b.1 ≠ .nil ∧ a.1.op ≠ b.1.op

end

/-! Each restart makes the tree smaller, or its operator one that is left only for a smaller tree. -/

def Node.size : Node → Nat
  | .nil => 0
  | .mk _ _ _ _ left right => left.size + right.size + 1

/-- Whether the operator of a tree can still be replaced by another: a relation when its constant is on the left. -/
def Node.weight : Node → Nat
  | .nil => 0
  | .mk op _ _ _ l r =>
    match op with
    | .OOR | .OAND | .OMUL | .OMOD | .OADDR => 1
    | .OLT | .OGT | .OGE | .OLE => if l.nconst && !r.nconst then 1 else 0
    | _ => 0

def Node.measure (np : Node) : Nat := 2 * np.size + np.weight

/-- What a rule leaves has the same operator, or it is less. -/
def Descends (np np' : Node) : Prop := np'.op = np.op ∧ np'.measure ≤ np.measure ∨ np'.measure < np.measure

variable {fp : Floats} {syms syms' : Symbols} {np np' np'' : Node}

theorem Descends.refl (np : Node) : Descends np np := .inl ⟨rfl, Nat.le_refl _⟩

theorem Descends.trans (one : Descends np np') (two : Descends np' np'') : Descends np np'' := by
  rcases one with ⟨same, le⟩ | less
  · rcases two with ⟨same', le'⟩ | less'
    · exact .inl ⟨same'.trans same, Nat.le_trans le' le⟩
    · exact .inr (Nat.lt_of_lt_of_le less' le)
  · rcases two with ⟨-, le'⟩ | less'
    · exact .inr (Nat.lt_of_le_of_lt le' less)
    · exact .inr (Nat.lt_trans less' less)

theorem weight_le (np : Node) : np.weight ≤ 1 := by
  cases np with
  | nil => exact Nat.zero_le 1
  | mk op nconst tp sym l r =>
    unfold Node.weight
    repeat' split
    all_goals omega

theorem size_pos (present : np ≠ .nil) : 0 < np.size := by
  cases np with
  | nil => exact absurd rfl present
  | mk => exact Nat.succ_pos _

/-- A smaller tree is less, whatever its operator. -/
theorem Descends.smaller (less : np'.size < np.size) : Descends np np' := by
  have light := weight_le np'
  right
  unfold Node.measure
  omega

section rules
variable {op : Op} {nconst : Bool} {tp : CType} {sym : Option Nat} {l r : Node}

/-- The operator stays and the children are no larger. -/
theorem Descends.same {nconst' : Bool} {tp' : CType} {sym' : Option Nat} {l' r' : Node} (size : l'.size + r'.size ≤ l.size + r.size)
    (weight : (Node.mk op nconst' tp' sym' l' r').weight ≤ (Node.mk op nconst tp sym l r).weight) :
    Descends (.mk op nconst tp sym l r) (.mk op nconst' tp' sym' l' r') := by
  refine .inl ⟨rfl, ?_⟩
  simp only [Node.measure, Node.size]
  omega

/-- The operator is replaced by a lighter one. -/
theorem Descends.lighter {op' : Op} {nconst' : Bool} {tp' : CType} {sym' : Option Nat} {l' r' : Node}
    (size : l'.size + r'.size ≤ l.size + r.size) (heavy : (Node.mk op nconst tp sym l r).weight = 1)
    (light : (Node.mk op' nconst' tp' sym' l' r').weight = 0) :
    Descends (.mk op nconst tp sym l r) (.mk op' nconst' tp' sym' l' r') := by
  right
  simp only [Node.measure, Node.size]
  omega

theorem commutative_descends (rule : commutative np = some np') : Descends np np' := by
  rcases np with _ | ⟨op, nconst, tp, sym, l, r⟩
  · cases rule
  have size : r.size + l.size ≤ l.size + r.size := Nat.le_of_eq (Nat.add_comm _ _)
  simp only [commutative] at rule
  split at rule
  · cases rule
    exact .refl _
  · rename_i present
    split at rule
    · cases rule
    · split at rule
      · cases rule
        exact .refl _
      · rename_i constant
        have left : l.nconst = true := by simpa using constant
        have right : r.nconst = false := by simp_all
        split at rule
        -- The constant goes to the right, where the relation has no more to give.
        case h_1 | h_2 | h_3 | h_4 =>
          cases rule
          exact .lighter size (by simp [Node.weight, left, right]) (by simp [Node.weight, negop, left, right])
        case h_12 =>
          cases rule
          exact .refl _
        all_goals
          cases rule
          exact .same size (Nat.le_refl _)

theorem fold_descends (rule : fold fp syms np = some (np', syms')) : Descends np np' := by
  unfold fold at rule
  split at rule
  · cases rule
  · cases rule
    exact .refl _
  · rename_i op nconst tp sym lp rp leaf
    split at rule
    · cases rule
      exact .refl _
    · split at rule
      · cases rule
        exact .refl _
      · split at rule
        · cases rule
        · split at rule
          · obtain ⟨folding, -, rule⟩ := Option.bind_eq_some_iff.mp rule
            cases folding with
            | refused =>
              cases rule
              exact .same (Nat.le_refl _) (Nat.le_refl _)
            | stored u =>
              cases rule
              refine .smaller ?_
              simp only [constnode, Node.size]
              omega
          · cases rule
            exact .refl _

theorem Descends.size_le (descends : Descends np np') : np'.size ≤ np.size := by
  have light := weight_le np
  have le : np'.measure ≤ np.measure := by
    rcases descends with ⟨-, le⟩ | less
    · exact le
    · exact Nat.le_of_lt less
  unfold Node.measure at le
  omega

/-- The constants of two operators that are the same become one. -/
theorem associative_descends (rule : associative fp syms np = some (np', syms')) : Descends np np' := by
  rcases np with _ | ⟨op, nconst, tp, sym, l, r⟩
  · cases rule
  simp only [associative] at rule
  split at rule
  case h_6 =>
    cases rule
    exact .refl _
  all_goals
    split at rule
    · cases rule
    · rename_i lop lnconst ltp lsym ll lr
      split at rule
      · cases rule
        exact .refl _
      · split at rule
        · cases rule
        · split at rule
          · cases rule
            exact .refl _
          · obtain ⟨⟨right, after⟩, folded, rule⟩ := Option.bind_eq_some_iff.mp rule
            cases rule
            have smaller := (fold_descends folded).size_le
            refine .same ?_ (Nat.le_refl _)
            simp only [Node.size] at smaller ⊢
            omega
        · cases rule
        · cases rule
          exact .refl _

/-- The operators that become commas. -/
theorem comma_heavy (exit : identityExit fp syms op l r = .change_to_comma) : (Node.mk op nconst tp sym l r).weight = 1 := by
  unfold identityExit at exit
  simp only at exit
  split at exit
  case h_1 | h_2 | h_9 | h_12 => rfl
  all_goals
    try split at exit
    all_goals cases exit

theorem identity_descends (rule : identity fp syms np = some np') : Descends np np' := by
  rcases np with _ | ⟨op, nconst, tp, sym, l, r⟩
  · cases rule
  simp only [identity] at rule
  split at rule
  · cases rule
    exact .refl _
  · split at rule
    · cases rule
      refine .smaller ?_
      simp only [Node.size]
      omega
    · cases rule
      refine .smaller ?_
      simp only [Node.size]
      omega
    · rename_i exit
      cases rule
      exact .lighter (Nat.le_refl _) (comma_heavy exit) rfl
    · cases rule
      exact .refl _

theorem reduce_descends (rule : reduce syms np = some (np', syms')) : Descends np np' := by
  rcases np with _ | ⟨op, nconst, tp, sym, l, r⟩
  · cases rule
  unfold reduce at rule
  split at rule
  · cases rule
  · rename_i same
    cases same
    split at rule
    · cases rule
      exact .lighter (Nat.le_refl _) rfl rfl
    · cases rule
      exact .refl _
  · cases rule
    exact .refl _

theorem sym_size {s : Nat} (symbol : np.sym = some s) : 0 < np.size := by
  cases np with
  | nil => cases symbol
  | mk => exact Nat.succ_pos _

/-- Two operators that cancel each other, and the address of a field, which becomes a sum. -/
theorem foldunary_descends (rule : foldunary fp syms np = some (np', syms')) : Descends np np' := by
  rcases np with _ | ⟨op, nconst, tp, sym, l, r⟩
  · cases rule
  unfold foldunary at rule
  split at rule
  case h_2 => cases rule
  rename_i op nconst tp sym lop lnconst ltp lsym ll lr r same
  cases same
  have cancelled : Descends (.mk op nconst tp sym (.mk lop lnconst ltp lsym ll lr) r) ll := by
    refine .smaller ?_
    simp only [Node.size]
    omega
  simp only at rule
  split at rule
  case h_1 =>
    split at rule
    · cases rule
      exact cancelled
    · cases rule
      exact .refl _
  case h_2 =>
    cases rule
    refine .smaller ?_
    simp only [Node.size]
    omega
  case h_3 =>
    unfold foldcast at rule
    split at rule
    · split at rule
      · cases rule
        exact .refl _
      · cases rule
        refine .smaller ?_
        simp only [constnode, Node.size]
        omega
    · cases rule
      exact .refl _
  case h_4 | h_5 | h_6 =>
    split at rule
    · cases rule
      exact .refl _
    · cases rule
      exact cancelled
  case h_7 =>
    split at rule
    · split at rule
      · rename_i field
        have offset := sym_size field
        cases rule
        refine .lighter ?_ rfl rfl
        simp only [offsetnode, constnode, Node.size]
        omega
      · rename_i field
        have offset := sym_size field
        cases rule
        refine .lighter ?_ rfl rfl
        simp only [offsetnode, node, constnode, Node.size]
        omega
      · cases rule
    · split at rule
      · cases rule
        exact .refl _
      · cases rule
        exact cancelled
  case h_8 =>
    cases rule
    exact .refl _

theorem foldternary_descends (rule : foldternary fp syms np = some np') : Descends np np' := by
  unfold foldternary at rule
  split at rule
  · split at rule
    · cases rule
    · split at rule
      · cases rule
        exact .refl _
      · split at rule
        · cases rule
        · cases rule
          refine .smaller ?_
          split
          all_goals
            simp only [Node.size]
            omega
  · cases rule

theorem pass_descends (ran : pass fp syms np = some (np', syms')) : Descends np np' := by
  unfold pass at ran
  split at ran
  · cases ran
  · obtain ⟨folded, rule, same⟩ := Option.map_eq_some_iff.mp ran
    cases same
    exact foldternary_descends rule
  case h_17 | h_18 | h_19 | h_20 | h_21 | h_22 =>
    split at ran
    · cases ran
    · obtain ⟨⟨folded, after⟩, rule, rest⟩ := Option.bind_eq_some_iff.mp ran
      exact (foldunary_descends rule).trans (fold_descends rest)
  case h_23 =>
    obtain ⟨exchanged, rule, ran⟩ := Option.bind_eq_some_iff.mp ran
    obtain ⟨⟨joined, after⟩, rule', ran⟩ := Option.bind_eq_some_iff.mp ran
    obtain ⟨⟨folded, after'⟩, rule'', ran⟩ := Option.bind_eq_some_iff.mp ran
    obtain ⟨left, rule''', ran⟩ := Option.bind_eq_some_iff.mp ran
    have first := (commutative_descends rule).trans (associative_descends rule')
    exact (first.trans (fold_descends rule'')).trans ((identity_descends rule''').trans (reduce_descends ran))
  all_goals
    cases ran
    exact .refl _

end rules

theorem restarts_less {a b : Node × Symbols} (restarts : Restarts fp a b) : b.1.measure < a.1.measure := by
  obtain ⟨ran, -, other⟩ := restarts
  rcases pass_descends ran with ⟨same, -⟩ | less
  · exact absurd same.symm other
  · exact less

theorem repeats_ends (fp : Floats) (n : Nat) (syms : Symbols) (np : Node) (enough : np.measure < n) : ∃ r, repeats fp n syms np = some r := by
  induction n generalizing syms np with
  | zero => omega
  | succ n ih =>
    unfold repeats
    split
    · exact ⟨none, rfl⟩
    · rename_i np' syms' ran
      split
      · exact ⟨none, rfl⟩
      · split
        · rename_i present other
          have restarts : Restarts fp (np, syms) (np', syms') := ⟨ran, present, other⟩
          have less := restarts_less restarts
          exact ih syms' np' (Nat.lt_of_lt_of_le less (Nat.le_of_lt_succ enough))
        · exact ⟨_, rfl⟩

theorem repeats_size (n : Nat) (syms : Symbols) (np : Node) (result : repeats fp n syms np = some (some (np', syms'))) :
    np'.size ≤ np.size := by
  induction n generalizing syms np with
  | zero => cases result
  | succ n ih =>
    unfold repeats at result
    split at result
    · cases result
    · rename_i again after ran
      have smaller := (pass_descends ran).size_le
      split at result
      · cases result
      · split at result
        · exact Nat.le_trans (ih after again result) smaller
        · cases result
          exact smaller

theorem repeats_more {r : Option (Node × Symbols)} {n m : Nat} (syms : Symbols) (np : Node) (result : repeats fp n syms np = some r)
    (le : n ≤ m) : repeats fp m syms np = some r := by
  induction n generalizing syms np m with
  | zero => cases result
  | succ n ih =>
    obtain ⟨m, rfl⟩ : ∃ k, m = k + 1 := ⟨m - 1, by omega⟩
    unfold repeats at result ⊢
    split
    · rename_i stopped
      rwa [stopped] at result
    · rename_i np' syms' ran
      simp only [ran] at result
      split
      · rename_i absent
        rwa [if_pos absent] at result
      · rename_i present
        rw [if_neg present] at result
        split
        · rename_i other
          rw [if_pos other] at result
          exact ih syms' np' result (Nat.le_of_succ_le_succ le)
        · rename_i same
          rwa [if_neg same] at result

/-- So many turns are enough for a tree and what is left of it. -/
theorem xsimplify_ends (fp : Floats) (np : Node) (syms : Symbols) (n : Nat) (enough : 2 * np.size + 1 < n) :
    ∃ r, xsimplify fp n syms np = some r ∧ ∀ np' syms', r = some (np', syms') → np'.size ≤ np.size := by
  induction np generalizing syms with
  | nil => exact ⟨_, rfl, fun np' syms' same => by cases same; exact Nat.le_refl _⟩
  | mk op nconst tp sym left right ihl ihr =>
    simp only [Node.size] at enough
    obtain ⟨first, one, smaller⟩ := ihl syms (by omega)
    rw [xsimplify, one]
    rcases first with _ | ⟨left', syms'⟩
    · exact ⟨none, rfl, nofun⟩
    · obtain ⟨second, two, smaller'⟩ := ihr syms' (by omega)
      have lefts := smaller left' syms' rfl
      simp only [two]
      rcases second with _ | ⟨right', syms''⟩
      · exact ⟨none, rfl, nofun⟩
      · have rights := smaller' right' syms'' rfl
        have light := weight_le (.mk op nconst tp sym left' right')
        obtain ⟨r, ended⟩ := repeats_ends fp n syms'' (.mk op nconst tp sym left' right') (by
          simp only [Node.measure, Node.size]
          omega)
        refine ⟨r, ended, ?_⟩
        rintro np' syms''' rfl
        have size := repeats_size n syms'' _ ended
        simp only [Node.size] at size ⊢
        omega

theorem xsimplify_more {r : Option (Node × Symbols)} {n m : Nat} (np : Node) (syms : Symbols) (result : xsimplify fp n syms np = some r)
    (le : n ≤ m) : xsimplify fp m syms np = some r := by
  induction np generalizing syms r with
  | nil => exact result
  | mk op nconst tp sym left right ihl ihr =>
    rw [xsimplify] at result ⊢
    split at result
    · cases result
    · rename_i one
      rw [ihl syms one]
      exact result
    · rename_i left' syms' one
      rw [ihl syms one]
      simp only
      split at result
      · cases result
      · rename_i two
        rw [ihr syms' two]
        exact result
      · rename_i right' syms'' two
        rw [ihr syms' two]
        exact repeats_more syms'' _ result le

/-- Whenever the loop goes on with another operator its tree has become less, and every tree is simplified in a
number of turns that its size bounds. -/
theorem simplification_ends (fp : Floats) :
    (∀ a b, Restarts fp a b → b.1.measure < a.1.measure) ∧
      ∀ syms np, ∃ r, ∀ n, 2 * np.size + 1 < n → xsimplify fp n syms np = some r := by
  refine ⟨fun a b => restarts_less, fun syms np => ?_⟩
  obtain ⟨r, ended, -⟩ := xsimplify_ends fp np syms (2 * np.size + 2) (Nat.lt_succ_self _)
  exact ⟨r, fun n enough => xsimplify_more np syms ended enough⟩

end Scc.Cc1.Fold
