import Scc.Cc2.Qbe.Function

set_option linter.all false

/-! The labels that the code of a function defines: its trees define labels of their own only, and each
statement the one that it has. -/
namespace Scc.Cc2.Qbe.Code
open Transition
variable {g : Globals} {α β : Type}

/-- The generator defines the given labels and its own. -/
abbrev Sets (given : List Sym) (gen : Gen Inst α) : Prop := Generates Inst.labelOf Sym.tmp given gen

namespace Sets
variable {given : List Sym}

theorem newlabel {k : Sym → Gen Inst β} (rest : ∀ sym, Sets (sym :: given) (k sym)) :
    Sets given (newlabel >>= k) := by
  intro num last b code run
  obtain ⟨sym, mid, first, second, early, late, rfl⟩ := Gen.bind_some run
  cases early
  exact (rest _ late).fresh

theorem setlabel (sym : Option Sym) : Sets sym.toList (setlabel sym) := by
  cases sym with
  | none => exact .pure ()
  | some sym => exact .label rfl

/-- The label is the first of those that are still given. -/
theorem define {sym : Sym} {k : Unit → Gen Inst β} (rest : Sets given (k ())) :
    Sets (sym :: given) (Code.setlabel (some sym) >>= k) :=
  (setlabel (some sym)).append fun _ => rest

theorem tmpnode (tp : CType) : Sets [] (tmpnode tp) := .bind .number fun _ => .pure _

theorem code (op : AsmOp) (dst from1 from2 : Option Operand) : Sets [] (code op dst from1 from2) := .emit rfl

theorem load (tp : CType) (np : Option Operand) : Sets [] (load tp np) := by
  unfold Code.load
  split
  · exact .pure np
  · exact .bind (.ofOption _) fun op => .bind (tmpnode tp) fun new => .bind (code op _ _ _) fun _ => .pure _

theorem cast (td : CType) (np : Operand) : Sets [] (cast td np) := by
  refine .bind (.ofOption _) fun op => ?_
  cases op with
  | none => exact .pure _
  | some op => exact .bind (tmpnode td) fun tmp => .bind (code op _ _ _) fun _ => .pure _

theorem copy (tp : CType) (dst : Operand) (src : Option Operand) : Sets [] (copy tp dst src) := by
  unfold Code.copy
  split
  · exact .pure ()
  · exact .bind (.ofOption _) fun op => code op _ _ _

theorem pass (pars : List (Option Operand)) : Sets [] (pass pars) := by
  induction pars with
  | nil => exact .pure ()
  | cons q rest ih =>
    exact .bind (.ofOption _) fun q => .bind (tmpnode _) fun tmp => .bind (code _ _ _ _) fun _ => ih

end Sets

/-- What the generators of `cgen.c` define with so much fuel: only labels of their own. -/
structure Clean (g : Globals) (n : Nat) : Prop where
  rhs : ∀ np, Sets [] (rhs g n np)
  binary : ∀ op tp l r, Sets [] (binary g n op tp l r)
  rhs_rhs : ∀ l r, Sets [] (rhs_rhs g n l r)
  lhs_rhs : ∀ l r, Sets [] (lhs_rhs g n l r)
  lhs : ∀ np, Sets [] (lhs g n np)
  field : ∀ tp l r islhs, Sets [] (field g n tp l r islhs)
  bool : ∀ np ifyes ifno, Sets [] (bool g n np ifyes ifno)
  ternary : ∀ tp l colon, Sets [] (ternary g n tp l colon)
  assign : ∀ tp u l r, Sets [] (assign g n tp u l r)
  store : ∀ tp l r, Sets [] (store g n tp l r)
  postoper : ∀ tp op l r, Sets [] (postoper g n tp op l r)

namespace Clean
variable {n : Nat}

/-- The labels are set in the order in which they were taken. -/
theorem truth (clean : Clean g n) (np : Tree) : Sets [] (do
    let ifyes ← newlabel
    let ifno ← newlabel
    let phi ← newlabel
    let tmp ← tmpnode int32type
    Code.bool g n np ifyes ifno
    setlabel (some ifyes)
    code .ASCOPYW (some tmp) (some ⟨.const 1, int32type⟩) none
    Gen.emit (.ASJMP phi)
    setlabel (some ifno)
    code .ASCOPYW (some tmp) (some ⟨.const 0, int32type⟩) none
    setlabel (some phi)
    return some tmp) := by
  refine Sets.newlabel fun ifyes => Sets.newlabel fun ifno => Sets.newlabel fun phi => ?_
  refine Generates.perm ?_ (List.reverse_perm [phi, ifno, ifyes])
  refine .bind (Sets.tmpnode _) fun tmp => .bind (clean.bool _ _ _) fun _ => ?_
  refine Sets.define (.bind (Sets.code _ _ _ _) fun _ => .bind (.emit rfl) fun _ => ?_)
  exact Sets.define (.bind (Sets.code _ _ _ _) fun _ => Sets.define (.pure _))

theorem rhs_succ (clean : Clean g n) (np : Tree) : Sets [] (Code.rhs g (n + 1) np) := by
  cases np with
  | nil => exact .fail
  | operand v complex =>
    unfold Code.rhs
    split
    · exact Sets.load _ _
    · exact .pure _
  | mk op tp u complex l r =>
    have leaf : ∀ np, Sets [] (Gen.ofOption (operandOf np) >>= fun v => Code.load tp (some v)) :=
      fun np => .bind (.ofOption _) fun v => Sets.load _ _
    have integer : ∀ op, Sets [] (if tp.intf then Code.binary g n op tp l r else Gen.fail) := by
      intro op
      split
      · exact clean.binary _ _ _ _
      · exact .fail
    have call : ∀ end_, Sets [] (do
        let fn ← (if l.op = some .OPTR then Code.rhs g n l else Gen.ofOption ((operandOf l).map some))
        let pars ← Gen.each (Code.rhs g n) (params r)
        Gen.check (pars.length ≤ NR_FUNPARAM)
        let tmp ← tmpnode tp
        code .ASCALL (some tmp) fn none
        Code.pass pars
        code end_ none none none
        return some tmp) := by
      intro end_
      refine .bind ?_ fun fn => .bind (.each clean.rhs _) fun pars =>
        .bind (.check (pars.length ≤ NR_FUNPARAM)) fun _ => ?_
      · split
        · exact clean.rhs _
        · exact .ofOption _
      · refine .bind (Sets.tmpnode _) fun tmp => .bind (Sets.code _ _ _ _) fun _ => ?_
        exact .bind (Sets.pass _) fun _ => .bind (Sets.code _ _ _ _) fun _ => .pure _
    cases op with
    | OCONST => exact .bind (.ofOption _) fun v => .pure _
    | OMEM | OREG | OAUTO => exact leaf _
    | ONEG | OAND | OOR => exact clean.truth _
    | OMOD | OSHL | OBAND | OBOR | OBXOR | OSHR => exact integer _
    | ODIV | OLT | OGT | OLE | OGE | OADD | OSUB | OMUL | OEQ | ONE => exact clean.binary _ _ _ _
    | OCALL => exact call .ASCALLE
    | OCALLE => exact call .ASCALLEX
    | OCAST =>
      exact .bind (clean.rhs _) fun v => .bind (.ofOption _) fun v => .bind (Sets.cast _ _) fun v => .pure _
    | OASSIG => exact clean.assign _ _ _ _
    | OASK => exact clean.ternary _ _ _
    | OCOMMA => exact .bind (clean.rhs _) fun _ => clean.rhs _
    | OPTR => exact .bind (clean.rhs _) fun v => Sets.load _ _
    | OADDR => exact .bind (clean.lhs _) fun v => .bind (.ofOption _) fun v => .pure _
    | OFIELD => exact clean.field _ _ _ _
    | OBUILTIN =>
      cases u with
      | builtin subop =>
        cases subop with
        | BVA_START => exact .bind (clean.rhs _) fun v => .bind (Sets.code _ _ _ _) fun _ => .pure _
        | BVA_END => exact .pure _
        | BVA_ARG =>
          exact .bind (clean.rhs _) fun v => .bind (Sets.tmpnode _) fun tmp => .bind (Sets.code _ _ _ _) fun _ => .pure _
        | BVA_COPY => exact .fail
      | _ => exact .fail
    | OSTRING | OLABEL | OCPL | OSNEG | OPAR | OCOLON | OINC | ODEC => exact .fail

theorem binary_succ (clean : Clean g n) (op : Op) (tp : CType) (l r : Tree) : Sets [] (Code.binary g (n + 1) op tp l r) := by
  unfold Code.binary
  split
  · refine .bind (.ofOption _) fun op => .bind (clean.rhs_rhs _ _) fun pair => ?_
    exact .bind (Sets.tmpnode _) fun tmp => .bind (Sets.code _ _ _ _) fun _ => .pure _
  · exact .fail

/-- Both orders of evaluation. -/
theorem pair {first second : Gen Inst (Option Operand)} (one : Sets [] first) (two : Sets [] second) (c : Prop) [Decidable c] :
    Sets [] (if c then (do let l ← first; let r ← second; return (l, r))
      else do let r ← second; let l ← first; return (l, r) : Gen Inst (Option Operand × Option Operand)) := by
  split
  · exact .bind one fun l => .bind two fun r => .pure _
  · exact .bind two fun r => .bind one fun l => .pure _

theorem rhs_rhs_succ (clean : Clean g n) (l r : Tree) : Sets [] (Code.rhs_rhs g (n + 1) l r) := by
  unfold Code.rhs_rhs
  split
  · exact .fail
  · exact pair (clean.rhs l) (clean.rhs r) _

theorem lhs_rhs_succ (clean : Clean g n) (l r : Tree) : Sets [] (Code.lhs_rhs g (n + 1) l r) := by
  unfold Code.lhs_rhs
  split
  · exact .fail
  · exact pair (clean.lhs l) (clean.rhs r) _

theorem lhs_succ (clean : Clean g n) (np : Tree) : Sets [] (Code.lhs g (n + 1) np) := by
  cases np with
  | nil => exact .fail
  | operand v complex =>
    unfold Code.lhs
    split
    · exact .pure _
    · exact .fail
  | mk op tp u complex l r =>
    cases op with
    | OREG | OMEM | OAUTO => exact .bind (.ofOption _) fun v => .pure _
    | OPTR => exact clean.rhs _
    | OFIELD => exact clean.field _ _ _ _
    | _ => exact .fail

theorem field_succ (clean : Clean g n) (tp : CType) (l r : Tree) (islhs : Bool) :
    Sets [] (Code.field g (n + 1) tp l r islhs) := by
  unfold Code.field
  split
  · refine .bind (clean.rhs _) fun addr => .bind (.ofOption _) fun addr => .bind (clean.rhs _) fun addr => ?_
    split
    · exact .pure _
    · exact Sets.load _ _
  · exact .fail

theorem bool_succ (clean : Clean g n) (np : Tree) (ifyes ifno : Sym) : Sets [] (Code.bool g (n + 1) np ifyes ifno) := by
  have both : ∀ l r : Tree, ∀ yes no : Sym → Sym, Sets [] (do
      let label ← newlabel
      Code.bool g n l (yes label) (no label)
      setlabel (some label)
      Code.bool g n r ifyes ifno) := by
    intro l r yes no
    exact Sets.newlabel fun label => .bind (clean.bool _ _ _) fun _ => Sets.define (clean.bool _ _ _)
  have leaf : Sets [] (do
      let v ← Code.rhs g n np
      let v ← Gen.ofOption v
      Gen.emit (.ASBRANCH v.addr ifyes ifno)) :=
    .bind (clean.rhs _) fun v => .bind (.ofOption _) fun v => .emit rfl
  cases np with
  | nil => exact .fail
  | operand v complex => exact leaf
  | mk op tp u complex l r =>
    cases op with
    | ONEG => exact clean.bool _ _ _
    | OAND => exact both _ _ id fun _ => ifno
    | OOR => exact both _ _ (fun _ => ifyes) id
    | _ => exact leaf

theorem ternary_succ (clean : Clean g n) (tp : CType) (l colon : Tree) : Sets [] (Code.ternary g (n + 1) tp l colon) := by
  unfold Code.ternary
  split
  · refine .bind (Sets.tmpnode _) fun tmp => ?_
    refine Sets.newlabel fun ifyes => Sets.newlabel fun ifno => Sets.newlabel fun phi => ?_
    refine Generates.perm ?_ (List.reverse_perm [phi, ifno, ifyes])
    refine .bind (clean.rhs _) fun v => .bind (.ofOption _) fun v => .bind (.emit rfl) fun _ => ?_
    refine Sets.define (.bind (clean.rhs _) fun v => .bind (Sets.copy _ _ _) fun _ => .bind (.emit rfl) fun _ => ?_)
    exact Sets.define (.bind (clean.rhs _) fun v => .bind (Sets.copy _ _ _) fun _ => Sets.define (.pure _))
  · exact .fail

theorem assign_succ (clean : Clean g n) (tp : CType) (u : Payload) (l r : Tree) :
    Sets [] (Code.assign g (n + 1) tp u l r) := by
  unfold Code.assign
  split
  · exact clean.postoper _ _ _ _
  · exact clean.postoper _ _ _ _
  · split
    · exact .fail
    · split
      · refine .bind (clean.lhs_rhs _ _) fun pair => .bind (.ofOption _) fun r => .bind (Sets.load _ _) fun left => ?_
        refine .bind (.ofOption _) fun left => .bind (clean.rhs _) fun ret => .bind (.ofOption _) fun op => ?_
        exact .bind (Sets.code _ _ _ _) fun _ => .pure _
      · exact .bind (.ofOption _) fun r => clean.store _ _ _
  · exact clean.store _ _ _

theorem store_succ (clean : Clean g n) (tp : CType) (l r : Tree) : Sets [] (Code.store g (n + 1) tp l r) := by
  unfold Code.store
  refine .bind (clean.lhs_rhs _ _) fun pair => .bind (.ofOption _) fun op => ?_
  exact .bind (Sets.code _ _ _ _) fun _ => .pure _

theorem postoper_succ (clean : Clean g n) (tp : CType) (op : Op) (l r : Tree) :
    Sets [] (Code.postoper g (n + 1) tp op l r) := by
  unfold Code.postoper
  refine .bind (clean.lhs_rhs _ _) fun pair => .bind (.ofOption _) fun l => .bind (Sets.load _ _) fun ret => ?_
  refine .bind (.ofOption _) fun ret => .bind (.ofOption _) fun r => .bind (.ofOption _) fun aux => ?_
  refine .bind (clean.rhs _) fun r => .bind (.ofOption _) fun op => ?_
  exact .bind (Sets.code _ _ _ _) fun _ => .pure _

end Clean

theorem clean (g : Globals) (n : Nat) : Clean g n := by
  induction n with
  | zero =>
    exact ⟨fun _ => .fail, fun _ _ _ _ => .fail, fun _ _ => .fail, fun _ _ => .fail, fun _ => .fail,
      fun _ _ _ _ => .fail, fun _ _ _ => .fail, fun _ _ _ => .fail, fun _ _ _ _ => .fail, fun _ _ _ => .fail,
      fun _ _ _ _ => .fail⟩
  | succ n ih =>
    exact ⟨ih.rhs_succ, ih.binary_succ, ih.rhs_rhs_succ, ih.lhs_rhs_succ, ih.lhs_succ, ih.field_succ, ih.bool_succ,
      ih.ternary_succ, ih.assign_succ, ih.store_succ, ih.postoper_succ⟩

theorem function_sets (g : Globals) : Sets [] (function g) :=
  .bind (.each (fun _ => Sets.code _ _ _ _) _) fun _ => .bind (.each (fun _ => Sets.code _ _ _ _) _) fun _ =>
    .bind (.each (fun _ => Sets.code _ _ _ _) _) fun _ => .pure _

/-! The statements. -/

/-- The labels of the statements, where the first one may have got its label from a branch. -/
def heads (label : Option Sym) : List (Entry Tree) → List Sym
  | [] => []
  | np :: next => (label <|> np.label).toList ++ next.filterMap Entry.label

theorem heads_none (nodes : List (Entry Tree)) : heads none nodes = nodes.filterMap Entry.label := by
  cases nodes with
  | nil => rfl
  | cons np next => cases here : np.label <;> simp [heads, here]

/-- A branch makes the label of the next statement, or finds it. -/
theorem nextlabel_sets {next : List (Entry Tree)} {k : Sym → Gen Inst α}
    (rest : ∀ sym, Sets (heads (some sym) next) (k sym)) : Sets (next.filterMap Entry.label) (nextlabel next >>= k) := by
  cases next with
  | nil => exact fun num last b code run => nomatch run
  | cons np next =>
    cases here : np.label with
    | none =>
      have taken : nextlabel (np :: next) = newlabel := by simp only [nextlabel, here]
      rw [taken, List.filterMap_cons_none here]
      exact Sets.newlabel fun sym => rest sym
    | some sym =>
      have found : nextlabel (np :: next) = pure sym := by simp only [nextlabel, here]
      rw [found, Gen.pure_bind, List.filterMap_cons_some here]
      exact rest sym

theorem cgen_sets (g : Globals) (fuel : Nat) (label : Option Sym) (sw : Option Switch) (nodes : List (Entry Tree)) :
    Sets (heads label nodes) (cgen g fuel label sw nodes) := by
  induction nodes generalizing label sw with
  | nil =>
    unfold cgen
    split
    · exact .pure ()
    · exact .fail
  | cons np next ih =>
    have later : ∀ sw, Sets (next.filterMap Entry.label) (cgen g fuel none sw next) := fun sw => heads_none next ▸ ih none sw
    have expr := (clean g fuel).rhs
    have branch := (clean g fuel).bool
    refine (Sets.setlabel _).append fun _ => ?_
    cases sw with
    | none =>
      cases np.stmt with
      | OBFUN => exact .bind (function_sets g) fun _ => later _
      | ONOP | OBLOOP | OELOOP | OEFUN => exact later _
      | OJMP sym => exact .bind (.emit rfl) fun _ => later _
      | OBRANCH sym left => exact nextlabel_sets fun label => .bind (branch _ _ _) fun _ => ih _ _
      | ORET left =>
        cases left with
        | none => exact .bind (.emit rfl) fun _ => later _
        | some left => exact .bind (expr _) fun p => .bind (.emit rfl) fun _ => later _
      | OBSWITCH left nr => exact .bind (expr _) fun p => .bind (.ofOption _) fun idx => later _
      | expr np => exact .bind (expr _) fun _ => later _
      | OCASE | ODEFAULT | OESWITCH => exact .fail
    | some sw =>
      cases np.stmt with
      | OESWITCH sym => exact .bind (.emit rfl) fun _ => later _
      | OCASE sym left => exact nextlabel_sets fun label => .bind (branch _ _ _) fun _ => ih _ _
      | ODEFAULT sym => exact later _
      | _ => exact .fail

/-! The labels after the jump optimisation. -/

/-- The statements have different labels, none of which has a number that was not taken. -/
def Numbered (num : Nat) (nodes : List (Entry E)) : Prop :=
  (nodes.filterMap Entry.label).Nodup ∧ ∀ i, num < i → .tmp i ∉ nodes.filterMap Entry.label

/-- The labels of `nodes'` are those of `nodes`, or are numbers taken between. -/
def Within (num num' : Nat) (nodes nodes' : List (Entry E)) : Prop :=
  ∀ l ∈ nodes'.filterMap Entry.label, l ∈ nodes.filterMap Entry.label ∨ ∃ i, num < i ∧ i ≤ num' ∧ l = .tmp i

theorem labelNext_labels {num : Nat} {next : List (Entry E)} (numbered : Numbered num next) :
    let visited := labelNext num next
    num ≤ visited.2 ∧ Numbered visited.2 visited.1 ∧ Within num visited.2 next visited.1 := by
  cases next with
  | nil => exact ⟨Nat.le_refl _, numbered, fun l member => .inl member⟩
  | cons np rest =>
    obtain ⟨stmt, label⟩ := np
    cases label with
    | some sym => exact ⟨Nat.le_refl _, numbered, fun l member => .inl member⟩
    | none =>
      change num ≤ num + 1 ∧ Numbered (num + 1) (⟨stmt, some (.tmp (num + 1))⟩ :: rest) ∧ Within num (num + 1) _ _
      refine ⟨Nat.le_succ num, ⟨?_, ?_⟩, ?_⟩
      · exact List.nodup_cons.mpr ⟨numbered.2 (num + 1) (by omega), numbered.1⟩
      · intro i above member
        rcases List.mem_cons.mp member with same | member
        · cases same
          omega
        · exact numbered.2 i (by omega) member
      · intro l member
        rcases List.mem_cons.mp member with same | member
        · exact .inr ⟨num + 1, by omega, Nat.le_refl _, same⟩
        · exact .inl member

section optm
variable (stmtOf : Sym → Option (Stmt E)) (size : Nat)

/-- The statement keeps its label; what follows it may get one. -/
theorem optmDep_labels (prev : Option (Entry E)) {num : Nat} (np : Entry E) {next : List (Entry E)}
    (numbered : Numbered num next) :
    let visited := optmDep stmtOf size prev num np next
    num ≤ visited.num ∧ Numbered visited.num visited.next ∧ Within num visited.num next visited.next ∧
      ∀ np' ∈ visited.np, np'.label = np.label := by
  have same : num ≤ num ∧ Numbered num next ∧ Within num num next next :=
    ⟨Nat.le_refl _, numbered, fun l member => .inl member⟩
  obtain ⟨le, renumbered, within⟩ := labelNext_labels numbered
  obtain ⟨stmt, label⟩ := np
  cases stmt with
  | OEFUN =>
    simp only [optmDep]
    split
    · exact ⟨Nat.le_refl _, numbered, fun l member => .inl member, by simp⟩
    · exact ⟨Nat.le_refl _, numbered, fun l member => .inl member, by simp⟩
  | OBRANCH sym left =>
    simp only [optmDep]
    split
    · exact ⟨le, renumbered, within, by simp⟩
    · exact ⟨le, renumbered, within, by simp⟩
  | OJMP sym =>
    simp only [optmDep]
    split
    · exact ⟨same.1, same.2.1, same.2.2, by simp⟩
    · exact ⟨same.1, same.2.1, same.2.2, by simp⟩
  | _ => exact ⟨same.1, same.2.1, same.2.2, by simp [optmDep]⟩

theorem Numbered.tail {num : Nat} {np : Entry E} {next : List (Entry E)} (numbered : Numbered num (np :: next)) :
    Numbered num next := by
  have sub : (next.filterMap Entry.label).Sublist ((np :: next).filterMap Entry.label) :=
    (List.sublist_cons_self np next).filterMap Entry.label
  exact ⟨numbered.1.sublist sub, fun i above member => numbered.2 i above (sub.subset member)⟩

theorem Within.cons {num last : Nat} {np : Entry E} {next nodes : List (Entry E)} (within : Within num last next nodes) :
    Within num last (np :: next) nodes := by
  intro l member
  rcases within l member with early | fresh
  · exact .inl (((List.sublist_cons_self np next).filterMap Entry.label).subset early)
  · exact .inr fresh

theorem Within.trans {num mid last : Nat} {first second third : List (Entry E)} (one : Within num mid first second)
    (two : Within mid last second third) (low : num ≤ mid) (high : mid ≤ last) : Within num last first third := by
  intro l member
  rcases two l member with early | ⟨i, above, below, rfl⟩
  · rcases one l early with early | ⟨i, above, below, rfl⟩
    · exact .inl early
    · exact .inr ⟨i, above, by omega, rfl⟩
  · exact .inr ⟨i, by omega, below, rfl⟩

/-- A statement in front, with a label that is not given to the later ones. -/
theorem Numbered.cons {num last : Nat} {np : Entry E} {next nodes : List (Entry E)} (numbered : Numbered num (np :: next))
    (later : Numbered last nodes) (within : Within num last next nodes) (le : num ≤ last) : Numbered last (np :: nodes) := by
  cases here : np.label with
  | none =>
    unfold Numbered
    rw [List.filterMap_cons_none here]
    exact later
  | some sym =>
    have own : sym ∉ next.filterMap Entry.label ∧ ∀ i, num < i → .tmp i ≠ sym := by
      unfold Numbered at numbered
      rw [List.filterMap_cons_some here] at numbered
      exact ⟨(List.nodup_cons.mp numbered.1).1, fun i above same => numbered.2 i above (same ▸ List.mem_cons_self)⟩
    unfold Numbered
    rw [List.filterMap_cons_some here]
    refine ⟨List.nodup_cons.mpr ⟨?_, later.1⟩, ?_⟩
    · intro member
      rcases within sym member with early | ⟨i, above, -, rfl⟩
      · exact own.1 early
      · exact own.2 i above rfl
    · intro i above member
      rcases List.mem_cons.mp member with same | member
      · exact own.2 i (by omega) same
      · exact later.2 i above member

theorem apply_labels (prev : Option (Entry E)) (num : Nat) (nodes : List (Entry E)) (numbered : Numbered num nodes) :
    let last := optmNum stmtOf size prev num nodes
    let result := apply stmtOf size prev num nodes
    num ≤ last ∧ Numbered last result ∧ Within num last nodes result := by
  induction prev, num, nodes using apply.induct stmtOf size with
  | case1 prev num =>
    rw [apply, optmNum]
    exact ⟨Nat.le_refl _, numbered, fun l member => .inl member⟩
  | case2 prev num np next visited deleted ih =>
    obtain ⟨le, renumbered, within, -⟩ := optmDep_labels stmtOf size prev np numbered.tail
    obtain ⟨later, result, inside⟩ := ih renumbered
    rw [apply, optmNum]
    simp only [visited] at deleted later result inside
    simp only [deleted]
    exact ⟨Nat.le_trans le later, result, (within.trans inside le later).cons⟩
  | case3 prev num np next visited np' kept ih =>
    obtain ⟨le, renumbered, within, label⟩ := optmDep_labels stmtOf size prev np numbered.tail
    obtain ⟨later, result, inside⟩ := ih renumbered
    have same : np'.label = np.label := label np' kept
    rw [apply, optmNum]
    simp only [visited] at kept later result inside
    simp only [kept]
    have whole := within.trans inside le later
    have moved : Numbered num (np' :: next) := by
      simpa only [Numbered, List.filterMap_cons, same] using numbered
    refine ⟨Nat.le_trans le later, moved.cons result whole (Nat.le_trans le later), ?_⟩
    intro l member
    rcases List.mem_filterMap.mp member with ⟨e, here, is⟩
    rcases List.mem_cons.mp here with rfl | here
    · exact .inl (List.mem_filterMap.mpr ⟨np, List.mem_cons_self, same ▸ is⟩)
    · exact whole.cons l (List.mem_filterMap.mpr ⟨e, here, is⟩)

end optm

end Scc.Cc2.Qbe.Code
