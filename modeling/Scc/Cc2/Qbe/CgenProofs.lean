import Scc.Cc2.Qbe.Inst

set_option linter.all false

/-! The code of conditions evaluates what C's short-circuit evaluation does. -/
namespace Scc.Cc2.Qbe
open Transition
variable {W Ev : Type}

/-- The evaluation of a leaf, whose value is an `int`. -/
def Meaning.leaf (m : Meaning W Ev) (np : Node) (w : W) : List Ev × W × BitVec 64 :=
  match np with
  | .mk .OCONST _ (.i u) _ _ => ([], w, u)
  | np => m.value np w

/-- C: `&&` and `||` evaluate the second operand only when the first does not decide. -/
def Meaning.truth (m : Meaning W Ev) (np : Node) (w : W) : List Ev × W × Bool :=
  match np with
  | .mk op type u l r =>
    if op = .ONEG then
      let (events, w, b) := m.truth l w
      (events, w, !b)
    else if op = .OAND then
      let (first, w, b) := m.truth l w
      if b then
        let (second, w, b) := m.truth r w
        (first ++ second, w, b)
      else (first, w, false)
    else if op = .OOR then
      let (first, w, b) := m.truth l w
      if b then (first, w, true)
      else
        let (second, w, b) := m.truth r w
        (first ++ second, w, b)
    else
      let (events, w, v) := m.leaf (.mk op type u l r) w
      (events, w, word v != 0)
  | .nil =>
    let (events, w, v) := m.leaf .nil w
    (events, w, word v != 0)

/-! The labels of the code. -/

/-- The labels are numbers taken after `num`, up to `last`, each at most once. -/
structure Fresh (num last : Nat) (code : List Inst) : Prop where
  le : num ≤ last
  taken : ∀ l ∈ labels Inst.labelOf code, ∃ i, num < i ∧ i ≤ last ∧ l = .tmp i
  unique : (labels Inst.labelOf code).Nodup

theorem Fresh.mono {num num' last last' : Nat} {code : List Inst} (fresh : Fresh num last code)
    (below : num' ≤ num) (above : last ≤ last') : Fresh num' last' code where
  le := Nat.le_trans below (Nat.le_trans fresh.le above)
  taken l member := by
    obtain ⟨i, more, less, rfl⟩ := fresh.taken l member
    exact ⟨i, by omega, by omega, rfl⟩
  unique := fresh.unique

theorem Fresh.append {num mid last : Nat} {first second : List Inst} (one : Fresh num mid first)
    (two : Fresh mid last second) : Fresh num last (first ++ second) where
  le := Nat.le_trans one.le two.le
  taken l member := by
    rw [labels_append, List.mem_append] at member
    rcases member with earlier | later
    · exact (one.mono (Nat.le_refl _) two.le).taken l earlier
    · exact (two.mono one.le (Nat.le_refl _)).taken l later
  unique := by
    rw [labels_append]
    refine List.Nodup.append one.unique two.unique ?_
    intro l earlier later
    obtain ⟨i, -, less, rfl⟩ := one.taken l earlier
    obtain ⟨j, more, -, same⟩ := two.taken _ later
    cases same
    omega

theorem Fresh.label (num : Nat) : Fresh num (num + 1) [.ASLABEL (newlabel num)] where
  le := Nat.le_succ num
  taken l member := by
    obtain rfl := List.mem_singleton.mp member
    exact ⟨num + 1, by omega, by omega, rfl⟩
  unique := List.nodup_singleton _

theorem Fresh.of_perm {num last : Nat} {code code' : List Inst} (fresh : Fresh num last code)
    (same : (labels Inst.labelOf code').Perm (labels Inst.labelOf code)) : Fresh num last code' where
  le := fresh.le
  taken l member := fresh.taken l (same.subset member)
  unique := same.nodup_iff.mpr fresh.unique

theorem Fresh.of_labels {num last : Nat} {code code' : List Inst} (fresh : Fresh num last code)
    (same : labels Inst.labelOf code' = labels Inst.labelOf code) : Fresh num last code' :=
  fresh.of_perm (same ▸ List.Perm.refl _)

/-- Code without labels. -/
theorem Fresh.plain {num last : Nat} {code : List Inst} (le : num ≤ last)
    (none : labels Inst.labelOf code = []) : Fresh num last code where
  le := le
  taken l member := by simp [none] at member
  unique := none ▸ List.nodup_nil

theorem operand_fresh (num : Nat) (np : Node) :
    Fresh num (operand num np).2.2 (operand num np).1 := by
  unfold operand
  split
  · exact .plain (Nat.le_refl _) rfl
  · exact .plain (Nat.le_succ num) rfl
  · exact .plain (Nat.le_succ num) rfl

theorem branch_fresh (num : Nat) (np : Node) (ifyes ifno : Sym) :
    Fresh num (branch num np ifyes ifno).2 (branch num np ifyes ifno).1 :=
  (operand_fresh num np).append (.plain (Nat.le_refl _) rfl)

/-- The label between two operands is taken before those in the first one. -/
theorem Fresh.between {num mid last : Nat} {first second : List Inst}
    (one : Fresh (num + 1) mid first) (two : Fresh mid last second) :
    Fresh num last (first ++ .ASLABEL (newlabel num) :: second) := by
  refine ((Fresh.label num).append (one.append two)).of_perm ?_
  simp only [labels_append, labels_cons, labels_nil, List.append_nil]
  exact List.perm_middle

theorem bool_fresh (num : Nat) (np : Node) (ifyes ifno : Sym) :
    Fresh num (bool num np ifyes ifno).2 (bool num np ifyes ifno).1 := by
  induction np generalizing num ifyes ifno with
  | nil => exact branch_fresh num .nil ifyes ifno
  | mk op type u l r ihl ihr =>
    unfold bool
    split
    · exact ihl num ifno ifyes
    · split
      · exact (ihl (num + 1) _ ifno).between (ihr _ ifyes ifno)
      · split
        · exact (ihl (num + 1) ifyes _).between (ihr _ ifyes ifno)
        · exact branch_fresh num _ ifyes ifno

/-! The branching code. -/

section
variable {m : Meaning W Ev} {prog : List Inst}

theorem jump_label (unique : (labels Inst.labelOf prog).Nodup) {sym : Sym} {code : List Inst}
    (position : .ASLABEL sym :: code <:+ prog) (env : Env) (w : W) :
    jump prog sym env w = .at (.ASLABEL sym :: code) env w := by
  simp [jump, seek_of_suffix unique position rfl]

theorem runs_label {code : List Inst} {env : Env} {w : W} {n : Nat} {es : List Ev} {p : Point W}
    (sym : Sym) (run : Runs (machine m prog) n (.at code env w) es p) :
    Runs (machine m prog) (n + 1) (.at (.ASLABEL sym :: code) env w) es p :=
  .silent rfl run

theorem runs_copyw (m : Meaning W Ev) (prog : List Inst) {code : List Inst} {n : Nat}
    {es : List Ev} {p : Point W} (dst : Nat) (src : Addr) (env : Env) (w : W)
    (run : Runs (machine m prog) n
      (.at code (env.set dst ((word (src.read m env)).setWidth 64)) w) es p) :
    Runs (machine m prog) (n + 1) (.at (.copyw dst src :: code) env w) es p :=
  .silent rfl run

theorem runs_jmp {code : List Inst} {env : Env} {w : W} {n : Nat} {es : List Ev} {p : Point W}
    {sym : Sym} (others : List Inst) (unique : (labels Inst.labelOf prog).Nodup)
    (position : .ASLABEL sym :: code <:+ prog)
    (run : Runs (machine m prog) n (.at code env w) es p) :
    Runs (machine m prog) (n + 2) (.at (.ASJMP sym :: others) env w) es p :=
  .silent (congrArg (Next.more []) (jump_label unique position env w)) (runs_label sym run)

/-- The code of a leaf, up to the operand. -/
theorem operand_runs (m : Meaning W Ev) (prog : List Inst) (num : Nat) (np : Node)
    (rest : List Inst) (env : Env) (w : W) :
    ∃ k env', Runs (machine m prog) k (.at ((operand num np).1 ++ rest) env w) (m.leaf np w).1
        (.at rest env' (m.leaf np w).2.1) ∧
      (operand num np).2.1.addr.read m env' = (m.leaf np w).2.2 := by
  unfold operand
  split
  · exact ⟨0, env, .refl _, rfl⟩
  · rename_i plain
    have leaf : ∀ {op type u l r}, (∀ v, op = .OCONST → u = .i v → False) →
        m.leaf (.mk op type u l r) w = m.value (.mk op type u l r) w := by
      intro op type u l r other
      unfold Meaning.leaf
      split
      · rename_i same
        cases same
        exact (other _ rfl rfl).elim
      · rfl
    rw [leaf plain]
    exact ⟨1, _, .one rfl, Env.set_same ..⟩
  · exact ⟨1, _, .one rfl, Env.set_same ..⟩

theorem branch_runs (m : Meaning W Ev) (prog : List Inst) (num : Nat) (np : Node)
    (ifyes ifno : Sym) (rest : List Inst) (env : Env) (w : W) :
    ∃ k env', Runs (machine m prog) k (.at ((branch num np ifyes ifno).1 ++ rest) env w)
      (m.leaf np w).1
      (jump prog (if word (m.leaf np w).2.2 != 0 then ifyes else ifno) env' (m.leaf np w).2.1) := by
  obtain ⟨k, env', run, value⟩ := operand_runs m prog num np
    (.ASBRANCH (operand num np).2.1.addr ifyes ifno :: rest) env w
  have last : machine m prog (.at (.ASBRANCH (operand num np).2.1.addr ifyes ifno :: rest) env'
      (m.leaf np w).2.1) = .more []
        (jump prog (if word (m.leaf np w).2.2 != 0 then ifyes else ifno) env' (m.leaf np w).2.1) := by
    simp only [machine, instStep, value, bne_iff_ne, ne_eq, ite_not]
  refine ⟨k + 1, env', ?_⟩
  simpa [branch] using run.trans (.one last)

/-- The code of `&&` and `||`: after the first operand the label between them is reached when
the second one is to be evaluated. -/
theorem runs_between (unique : (labels Inst.labelOf prog).Nodup) {label : Sym}
    {first second rest : List Inst} {ifyes ifno : Sym} {es fs : List Ev} {w w' w'' : W}
    {b : Bool} {env : Env} (position : first ++ .ASLABEL label :: (second ++ rest) <:+ prog)
    (decides : ∃ k env', Runs (machine m prog) k
      (.at (first ++ .ASLABEL label :: (second ++ rest)) env w) es (jump prog label env' w'))
    (goes : ∀ env', ∃ k env'', Runs (machine m prog) k (.at (second ++ rest) env' w') fs
      (jump prog (if b then ifyes else ifno) env'' w'')) :
    ∃ k env', Runs (machine m prog) k (.at (first ++ .ASLABEL label :: (second ++ rest)) env w)
      (es ++ fs) (jump prog (if b then ifyes else ifno) env' w'') := by
  obtain ⟨k, env', run⟩ := decides
  obtain ⟨i, env'', run'⟩ := goes env'
  rw [jump_label unique ((List.suffix_append _ _).trans position)] at run
  exact ⟨_, _, run.trans (.silent rfl run')⟩

theorem bool_runs (m : Meaning W Ev) (unique : (labels Inst.labelOf prog).Nodup) (num : Nat)
    (np : Node) (ifyes ifno : Sym) (rest : List Inst)
    (position : (bool num np ifyes ifno).1 ++ rest <:+ prog) (env : Env) (w : W) :
    ∃ k env', Runs (machine m prog) k (.at ((bool num np ifyes ifno).1 ++ rest) env w)
      (m.truth np w).1
      (jump prog (if (m.truth np w).2.2 then ifyes else ifno) env' (m.truth np w).2.1) := by
  induction np generalizing num ifyes ifno rest env w with
  | nil => exact branch_runs m prog num .nil ifyes ifno rest env w
  | mk op type u l r ihl ihr =>
    unfold bool at position ⊢
    unfold Meaning.truth
    split at position
    · rename_i negation
      simp only [if_pos negation]
      obtain ⟨k, env', run⟩ := ihl num ifno ifyes rest position env w
      refine ⟨k, env', ?_⟩
      cases holds : (m.truth l w).2.2 <;> simpa [holds] using run
    · rename_i other
      simp only [if_neg other]
      split at position
      · rename_i conjunction
        simp only [if_pos conjunction, List.append_assoc, List.cons_append] at position ⊢
        have first := ihl (num + 1) (newlabel num) ifno _ position env w
        cases holds : (m.truth l w).2.2 with
        | true =>
          simp only [holds, if_true] at first ⊢
          have ahead := (List.suffix_cons _ _).trans ((List.suffix_append _ _).trans position)
          exact runs_between unique position first fun env' => ihr _ ifyes ifno rest ahead env' _
        | false => simpa [holds] using first
      · rename_i other
        simp only [if_neg other]
        split at position
        · rename_i disjunction
          simp only [if_pos disjunction, List.append_assoc, List.cons_append] at position ⊢
          have first := ihl (num + 1) ifyes (newlabel num) _ position env w
          cases holds : (m.truth l w).2.2 with
          | true => simpa [holds] using first
          | false =>
            simp only [holds, Bool.false_eq_true, if_false] at first ⊢
            have ahead := (List.suffix_cons _ _).trans ((List.suffix_append _ _).trans position)
            exact runs_between unique position first fun env' => ihr _ ifyes ifno rest ahead env' _
        · rename_i leaf
          simp only [if_neg leaf]
          exact branch_runs m prog num _ ifyes ifno rest env w

/-! The value code. -/

theorem rhs_fresh (num : Nat) (np : Node) : Fresh num (rhs num np).2.2 (rhs num np).1 := by
  unfold rhs
  split
  · have code := bool_fresh (num + 4) np (newlabel num) (newlabel (num + 1))
    have ends : Fresh num (num + 4) [.ASLABEL (newlabel num), .copyw (num + 4) (.const 1),
        .ASJMP (newlabel (num + 2)), .ASLABEL (newlabel (num + 1)), .copyw (num + 4) (.const 0),
        .ASLABEL (newlabel (num + 2))] :=
      ((Fresh.label num).append ((Fresh.label (num + 1)).append (Fresh.label (num + 2)))).mono
        (Nat.le_refl _) (Nat.le_succ _) |>.of_labels rfl
    exact (ends.append code).of_perm (by simp only [labels_append]; exact List.perm_append_comm)
  · exact operand_fresh num np

/-- The operand is 1 when the condition holds and 0 when it does not. -/
theorem rhs_runs (m : Meaning W Ev) (unique : (labels Inst.labelOf prog).Nodup) (num : Nat)
    {np : Node} (condition : logical np = true) (rest : List Inst)
    (position : (rhs num np).1 ++ rest <:+ prog) (env : Env) (w : W) :
    ∃ k env', Runs (machine m prog) k (.at ((rhs num np).1 ++ rest) env w) (m.truth np w).1
        (.at rest env' (m.truth np w).2.1) ∧
      word ((rhs num np).2.1.addr.read m env') = if (m.truth np w).2.2 then 1 else 0 := by
  simp only [rhs, if_pos condition, List.append_assoc, List.cons_append, List.nil_append] at position ⊢
  obtain ⟨k, env', run⟩ := bool_runs m unique _ np _ _ _ position env w
  have atYes := (List.suffix_append _ _).trans position
  have atNo := (List.suffix_append [_, _, _] _).trans atYes
  have atPhi := (List.suffix_append [_, _] _).trans atNo
  cases holds : (m.truth np w).2.2 with
  | true =>
    simp only [holds, if_true, jump_label unique atYes] at run ⊢
    have last := runs_label (newlabel num) (runs_copyw m prog (num + 4) (.const 1) env' (m.truth np w).2.1
      (runs_jmp (.ASLABEL (newlabel (num + 1)) :: .copyw (num + 4) (.const 0) ::
        .ASLABEL (newlabel (num + 2)) :: rest) unique atPhi (.refl _)))
    refine ⟨_, _, by simpa using run.trans last, ?_⟩
    simp [Addr.read, word]
  | false =>
    simp only [holds, Bool.false_eq_true, if_false, jump_label unique atNo] at run ⊢
    have last := runs_label (newlabel (num + 1)) (runs_copyw m prog (num + 4) (.const 0) env'
      (m.truth np w).2.1 (runs_label (newlabel (num + 2)) (.refl (Point.at rest _ _))))
    refine ⟨_, _, by simpa using run.trans last, ?_⟩
    simp [Addr.read, word]

/-- The rest of a function, in which the numbers taken by some code do not occur. -/
structure Apart (num last : Nat) (others : List Inst) : Prop where
  unique : (labels Inst.labelOf others).Nodup
  apart : ∀ i, num < i → i ≤ last → Sym.tmp i ∉ labels Inst.labelOf others

theorem Fresh.unique_between {num last : Nat} {code before rest : List Inst}
    (fresh : Fresh num last code) (apart : Apart num last (before ++ rest)) :
    (labels Inst.labelOf (before ++ (code ++ rest))).Nodup := by
  have moved : (labels Inst.labelOf (before ++ (code ++ rest))).Perm
      (labels Inst.labelOf code ++ labels Inst.labelOf (before ++ rest)) := by
    simp only [labels_append]
    exact List.perm_append_comm_assoc ..
  refine moved.nodup_iff.mpr (List.Nodup.append fresh.unique apart.unique ?_)
  intro l inside outside
  obtain ⟨i, more, less, rfl⟩ := fresh.taken l inside
  exact apart.apart i more less outside

end

/-- Wherever it stands in a function, the branching code of a condition evaluates the leaves
that C evaluates and reaches the label of its truth value, and its value code evaluates
the same leaves and yields 1 or 0. -/
theorem shortcircuit (m : Meaning W Ev) (np : Node) (num : Nat) (before rest : List Inst)
    (env : Env) (w : W) :
    (∀ ifyes ifno, Apart num (bool num np ifyes ifno).2 (before ++ rest) →
      let prog := before ++ ((bool num np ifyes ifno).1 ++ rest)
      ∃ k env', Runs (machine m prog) k (.at ((bool num np ifyes ifno).1 ++ rest) env w)
        (m.truth np w).1
        (jump prog (if (m.truth np w).2.2 then ifyes else ifno) env' (m.truth np w).2.1)) ∧
    (logical np = true → Apart num (rhs num np).2.2 (before ++ rest) →
      let prog := before ++ ((rhs num np).1 ++ rest)
      ∃ k env', Runs (machine m prog) k (.at ((rhs num np).1 ++ rest) env w) (m.truth np w).1
          (.at rest env' (m.truth np w).2.1) ∧
        word ((rhs num np).2.1.addr.read m env') = if (m.truth np w).2.2 then 1 else 0) :=
  ⟨fun ifyes ifno apart => bool_runs m ((bool_fresh num np ifyes ifno).unique_between apart) num np
      ifyes ifno rest (List.suffix_append _ _) env w,
    fun condition apart => rhs_runs m ((rhs_fresh num np).unique_between apart) num condition rest
      (List.suffix_append _ _) env w⟩

/-- `!(a && 1)` at the start of a function that goes on with its two labels. -/
theorem shortcircuit_not_and :
    let a := Node.mk .OAUTO int32type (.sym (.named 1)) .nil .nil
    let one := Node.mk .OCONST int32type (.i 1) .nil .nil
    let np := Node.mk .ONEG int32type .zero (.mk .OAND int32type .zero a one) .nil
    let m : Meaning Nat Node := ⟨fun np w => ([np], w, 5), fun _ => 0, fun _ _ _ _ => 0⟩
    let rest : List Inst := [.ASLABEL (.named 2), .ASLABEL (.named 3)]
    ∃ k env', Runs (machine m ((bool 0 np (.named 2) (.named 3)).1 ++ rest)) k
      (.at ((bool 0 np (.named 2) (.named 3)).1 ++ rest) (fun _ => 0) 7) [a]
      (.at [.ASLABEL (.named 3)] env' 7) := by
  intro a one np m rest
  have apart : Apart 0 (bool 0 np (.named 2) (.named 3)).2 ([] ++ rest) :=
    ⟨by decide, fun i _ _ => by simp [rest, Inst.labelOf]⟩
  exact (shortcircuit m np 0 [] rest (fun _ => 0) 7).1 (.named 2) (.named 3) apart

end Scc.Cc2.Qbe
