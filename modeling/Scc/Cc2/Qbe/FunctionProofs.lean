import Scc.Cc2.Qbe.FunctionLabels

set_option linter.all false

/-! The lines of a function: a label comes after each transfer of control, the labels that are targets are
defined once, and control leaves at the end. -/
namespace Scc.Cc2.Qbe.Code
open Transition
variable {α β E : Type}

/-- Control does not go past the instruction. -/
def Inst.leaves : Inst → Bool
  | .ASRET _ | .ASJMP _ => true
  | _ => false

def Line.labelOf : Line → Option Sym
  | .label sym => some sym
  | .inst _ => none

structure WellFormed (lines : List Line) : Prop where
  followed : ∀ before pc after, lines = before ++ .inst pc :: after → pc.ends → after = [] ∨
    ∃ sym rest, after = .label sym :: rest
  defined : ∀ pc, .inst pc ∈ lines → ∀ sym ∈ pc.targets, (labels Line.labelOf lines).count sym = 1
  closed : ∃ before pc, lines = before ++ [.inst pc] ∧ pc.leaves

/-- The statements of a function as they are read: `OEFUN` comes last, and a label is declared once, with
a number from the input or one that was taken before. -/
structure Body where
  stmts : List (Stmt Node)
  num : Nat
  closing : ∃ init, stmts = init ++ [.OEFUN]
  unique : (labels Stmt.labelOf stmts).Nodup
  taken : ∀ i, num < i → .tmp i ∉ labels Stmt.labelOf stmts

/-! The end of the function. -/

/-- The last statement returns, or the one before an `OEFUN` without a label leaves the function. -/
inductive Closing : List (Entry E) → Prop
  | ret (left : Option E) (label : Option Sym) : Closing [⟨.ORET left, label⟩]
  | last (np : Entry E) (leaves : needsRet (some np.stmt) = false) : Closing [np, ⟨.OEFUN, none⟩]
  | more (np : Entry E) {next : List (Entry E)} (closing : Closing next) : Closing (np :: next)

/-- What remains ends with an `OEFUN`, which may have a label only right after a branch. -/
def Pending (prev : Option (Entry E)) (nodes : List (Entry E)) : Prop :=
  ∃ init label, nodes = init ++ [⟨.OEFUN, label⟩] ∧ (label.isSome → init = [] ∧ needsRet (prev.map Entry.stmt))

section optm
variable (stmtOf : Sym → Option (Stmt E)) (size : Nat)

theorem Closing.front {prev : Option (Entry E)} {np : Entry E} {nodes : List (Entry E)}
    (closing : Closing ((some np).toList ++ nodes)) : Closing (prev.toList ++ np :: nodes) := by
  cases prev with
  | none => exact closing
  | some prev => exact .more prev closing

/-- A branch gives a label to the `OEFUN` only when nothing stands between. -/
theorem labelNext_pending (num : Nat) (init : List (Entry E)) :
    (init = [] ∧ ∃ sym, (labelNext num (init ++ [⟨.OEFUN, none⟩])).1 = [⟨.OEFUN, some sym⟩]) ∨
      ∃ init', (labelNext num (init ++ [⟨.OEFUN, none⟩])).1 = init' ++ [⟨.OEFUN, none⟩] := by
  cases init with
  | nil => exact .inl ⟨rfl, _, rfl⟩
  | cons np rest =>
    obtain ⟨stmt, label⟩ := np
    cases label with
    | none => exact .inr ⟨_ :: rest, rfl⟩
    | some sym => exact .inr ⟨_ :: rest, rfl⟩

theorem Pending.of_append (prev : Option (Entry E)) (init : List (Entry E)) : Pending prev (init ++ [⟨.OEFUN, none⟩]) :=
  ⟨init, none, rfl, nofun⟩

theorem optmDep_pending (prev : Option (Entry E)) (num : Nat) (np : Entry E) {init next : List (Entry E)}
    (tail : next = init ++ [⟨.OEFUN, none⟩]) :
    Pending ((optmDep stmtOf size prev num np next).np <|> prev) (optmDep stmtOf size prev num np next).next := by
  subst tail
  obtain ⟨stmt, label⟩ := np
  cases stmt with
  | OEFUN =>
    simp only [optmDep]
    split
    · exact .of_append _ (⟨.ORET none, none⟩ :: init)
    · exact .of_append _ init
  | OBRANCH sym left =>
    simp only [optmDep]
    rcases labelNext_pending num init with ⟨rfl, l, labelled⟩ | ⟨init', labelled⟩
    · rw [labelled, if_neg (by simp [falls])]
      exact ⟨[], some l, rfl, fun _ => ⟨rfl, rfl⟩⟩
    · rw [labelled]
      split
      · exact .of_append _ init'
      · exact .of_append _ init'
  | OJMP sym =>
    simp only [optmDep]
    split
    · exact .of_append _ init
    · exact .of_append _ init
  | _ => exact .of_append _ init

theorem apply_ret (prev : Option (Entry E)) (num : Nat) (left : Option E) (label : Option Sym) :
    apply stmtOf size prev num [⟨.ORET left, label⟩] = [⟨.ORET left, label⟩] := by
  rw [apply]
  simp only [optmDep]
  rw [apply]

theorem apply_oefun (prev : Option (Entry E)) (num : Nat) (label : Option Sym) :
    apply stmtOf size prev num [⟨.OEFUN, label⟩] =
      if needsRet (prev.map Entry.stmt) then [⟨.OEFUN, label⟩, ⟨.ORET none, none⟩] else [⟨.OEFUN, label⟩] := by
  rw [apply]
  by_cases again : needsRet (prev.map Entry.stmt) = true
  · simp only [optmDep, again, if_true, apply_ret]
  · simp only [optmDep, again, if_false, Bool.false_eq_true, apply]

theorem apply_closing (prev : Option (Entry E)) (num : Nat) (nodes : List (Entry E)) (pending : Pending prev nodes) :
    Closing (prev.toList ++ apply stmtOf size prev num nodes) := by
  induction prev, num, nodes using apply.induct stmtOf size with
  | case1 prev num =>
    obtain ⟨init, label, same, -⟩ := pending
    exact absurd same (by simp)
  | case2 prev num np next visited deleted ih =>
    obtain ⟨init, label, same, only⟩ := pending
    cases init with
    | nil =>
      cases same
      simp only [visited, optmDep] at deleted
      split at deleted
      · cases deleted
      · cases deleted
    | cons first init =>
      cases label with
      | some sym => cases (only rfl).1
      | none =>
        obtain ⟨rfl, tail⟩ := List.cons.inj same
        have later := optmDep_pending stmtOf size prev num np tail
        simp only [visited] at deleted ih
        rw [deleted] at later
        rw [apply]
        simp only [deleted]
        exact ih later
  | case3 prev num np next visited np' kept ih =>
    obtain ⟨init, label, same, only⟩ := pending
    cases init with
    | nil =>
      cases same
      rw [apply_oefun]
      split
      case isTrue => exact .front (.more _ (.ret _ _))
      case isFalse settled =>
        cases prev with
        | none => contradiction
        | some prev =>
          have bare : label = none := by
            by_contra some
            have needed := (only (Option.isSome_iff_ne_none.mpr some)).2
            contradiction
          subst bare
          exact .last prev (Bool.not_eq_true _ ▸ settled)
    | cons first init =>
      cases label with
      | some sym => cases (only rfl).1
      | none =>
        obtain ⟨rfl, tail⟩ := List.cons.inj same
        have later := optmDep_pending stmtOf size prev num np tail
        simp only [visited] at kept ih
        rw [kept] at later
        rw [apply]
        simp only [kept]
        exact .front (ih later)

end optm

/-! `sethi` keeps labels and the end. -/

theorem sethi_cons {np : Entry Node} {next : List (Entry Node)} {nodes : List (Entry Tree)}
    (run : (np :: next).mapM sethiEntry = some nodes) :
    ∃ np' next', sethiEntry np = some np' ∧ next.mapM sethiEntry = some next' ∧ nodes = np' :: next' := by
  rw [List.mapM_cons] at run
  obtain ⟨np', one, rest⟩ := Option.bind_eq_some_iff.mp run
  obtain ⟨next', two, same⟩ := Option.bind_eq_some_iff.mp rest
  cases same
  exact ⟨np', next', one, two, rfl⟩

theorem sethiEntry_label {np : Entry Node} {np' : Entry Tree} (run : sethiEntry np = some np') : np'.label = np.label := by
  obtain ⟨stmt, -, same⟩ := Option.map_eq_some_iff.mp run
  subst same
  rfl

theorem sethi_labels {nodes : List (Entry Node)} {nodes' : List (Entry Tree)} (run : nodes.mapM sethiEntry = some nodes') :
    nodes'.filterMap Entry.label = nodes.filterMap Entry.label := by
  induction nodes generalizing nodes' with
  | nil =>
    cases run
    rfl
  | cons np next ih =>
    obtain ⟨np', next', one, two, rfl⟩ := sethi_cons run
    rw [List.filterMap_cons, List.filterMap_cons, sethiEntry_label one, ih two]

/-- A return stays a return, and what leaves the function still does. -/
theorem sethiStmt_needsRet {stmt : Stmt Node} {stmt' : Stmt Tree} (run : sethiStmt stmt = some stmt') :
    needsRet (some stmt') = needsRet (some stmt) := by
  cases stmt with
  | ORET left =>
    cases left with
    | none =>
      cases run
      rfl
    | some left =>
      obtain ⟨left', -, rfl⟩ := Option.map_eq_some_iff.mp run
      rfl
  | OBRANCH | OBSWITCH | OCASE | expr =>
    obtain ⟨left', -, rfl⟩ := Option.map_eq_some_iff.mp run
    rfl
  | _ =>
    cases run
    rfl

theorem sethi_closing {nodes : List (Entry Node)} {nodes' : List (Entry Tree)} (closing : Closing nodes)
    (run : nodes.mapM sethiEntry = some nodes') : Closing nodes' := by
  induction closing generalizing nodes' with
  | ret left label =>
    obtain ⟨np', next', one, two, rfl⟩ := sethi_cons run
    cases two
    obtain ⟨stmt, read, rfl⟩ := Option.map_eq_some_iff.mp one
    cases left with
    | none =>
      cases read
      exact .ret _ _
    | some left =>
      obtain ⟨left', -, rfl⟩ := Option.map_eq_some_iff.mp read
      exact .ret _ _
  | last np leaves =>
    obtain ⟨np', next', one, two, rfl⟩ := sethi_cons run
    obtain ⟨end_, rest, three, four, rfl⟩ := sethi_cons two
    cases three
    cases four
    obtain ⟨stmt, read, rfl⟩ := Option.map_eq_some_iff.mp one
    exact .last _ ((sethiStmt_needsRet read).trans leaves)
  | more np closing ih =>
    obtain ⟨np', next', one, two, rfl⟩ := sethi_cons run
    exact .more np' (ih two)

/-! The last instruction. -/

/-- The code ends with an instruction that leaves. -/
def Leaves (gen : Gen Inst α) : Prop :=
  ∀ ⦃num last a code⦄, gen num = some (a, code, last) → ∃ before pc, code = before ++ [pc] ∧ pc.leaves

namespace Leaves

theorem fail : Leaves (Gen.fail : Gen Inst α) := nofun

theorem bind {gen : Gen Inst α} {k : α → Gen Inst β} (rest : ∀ a, Leaves (k a)) : Leaves (gen >>= k) := by
  intro num last b code run
  obtain ⟨a, mid, first, second, -, late, rfl⟩ := Gen.bind_some run
  obtain ⟨before, pc, rfl, leaves⟩ := rest a late
  exact ⟨first ++ before, pc, (List.append_assoc ..).symm, leaves⟩

/-- Nothing is emitted after the instruction. -/
theorem emit {pc : Inst} {k : Unit → Gen Inst β} (leaves : pc.leaves)
    (silent : ∀ ⦃num last b code⦄, k () num = some (b, code, last) → code = []) : Leaves (Gen.emit pc >>= k) := by
  intro num last b code run
  obtain ⟨a, mid, first, second, early, late, rfl⟩ := Gen.bind_some run
  cases early
  exact ⟨[], pc, by rw [silent late]; rfl, leaves⟩

end Leaves

section cgen
variable {g : Globals} {fuel : Nat}

theorem cgen_nil ⦃num last : Nat⦄ ⦃b : Unit⦄ ⦃code : List Inst⦄
    (run : cgen g fuel none none [] num = some (b, code, last)) : code = [] :=
  (Gen.pure_some run).2.1

theorem cgen_oefun ⦃num last : Nat⦄ ⦃b : Unit⦄ ⦃code : List Inst⦄
    (run : cgen g fuel none none [⟨.OEFUN, none⟩] num = some (b, code, last)) : code = [] := by
  obtain ⟨a, mid, first, second, early, late, rfl⟩ := Gen.bind_some run
  rw [(Gen.pure_some early).2.1, cgen_nil late]
  rfl

/-- Either way of leaving, before code that emits nothing. -/
theorem cgen_last (label : Option Sym) (sw : Option Switch) (np : Entry Tree) (next : List (Entry Tree))
    (leaves : needsRet (some np.stmt) = false)
    (silent : ∀ ⦃num last b code⦄, cgen g fuel none none next num = some (b, code, last) → code = []) :
    Leaves (cgen g fuel label sw (np :: next)) := by
  obtain ⟨stmt, own⟩ := np
  refine .bind fun _ => ?_
  cases sw with
  | some sw =>
    cases stmt with
    | ORET left => exact .fail
    | OJMP sym => exact .fail
    | _ => cases leaves
  | none =>
    cases stmt with
    | ORET left =>
      cases left with
      | none => exact .emit rfl silent
      | some left => exact .bind fun p => .emit rfl silent
    | OJMP sym => exact .emit rfl silent
    | _ => cases leaves

theorem cgen_leaves {nodes : List (Entry Tree)} (closing : Closing nodes) (label : Option Sym) (sw : Option Switch) :
    Leaves (cgen g fuel label sw nodes) := by
  induction closing generalizing label sw with
  | ret left own => exact cgen_last label sw _ [] rfl cgen_nil
  | last np leaves => exact cgen_last label sw np _ leaves cgen_oefun
  | more np closing ih =>
    refine .bind fun _ => ?_
    cases sw with
    | none =>
      cases np.stmt with
      | OBFUN | OJMP | expr => exact .bind fun _ => ih _ _
      | ONOP | OBLOOP | OELOOP | OEFUN => exact ih _ _
      | OBRANCH | OBSWITCH => exact .bind fun _ => .bind fun _ => ih _ _
      | ORET left =>
        cases left with
        | none => exact .bind fun _ => ih _ _
        | some left => exact .bind fun _ => .bind fun _ => ih _ _
      | OCASE | ODEFAULT | OESWITCH => exact .fail
    | some sw =>
      cases np.stmt with
      | OESWITCH => exact .bind fun _ => ih _ _
      | OCASE => exact .bind fun _ => .bind fun _ => ih _ _
      | ODEFAULT => exact ih _ _
      | _ => exact .fail

end cgen

/-! The output. -/

theorem mark_fst (targets : List Sym) (entry : Bool) (prog : List Inst) : (mark targets entry prog).map Prod.fst = prog := by
  induction prog generalizing entry with
  | nil => rfl
  | cons pc next ih => rw [mark, List.map_cons, ih]

/-- The lines have the labels of the instructions and labels with new numbers. -/
theorem writeout_labels (num : Nat) (haslabel : Bool) (prog : List (Inst × Bool)) :
    ∃ last, Defines Line.labelOf Sym.tmp (labels Inst.labelOf (prog.map Prod.fst)) num last (writeout num haslabel prog) := by
  induction prog generalizing num haslabel with
  | nil => exact ⟨num, .plain (Nat.le_refl _) rfl⟩
  | cons first next ih =>
    obtain ⟨pc, bbentry⟩ := first
    have plain : pc.labelOf = none → ∃ last, Defines Line.labelOf Sym.tmp
        (labels Inst.labelOf (((pc, bbentry) :: next).map Prod.fst)) num last
        (if bbentry && !haslabel then .label (.tmp (num + 1)) :: .inst pc :: writeout (num + 1) false next
          else .inst pc :: writeout num false next) := by
      intro none
      have inst : ∀ n, Defines Line.labelOf Sym.tmp [] n n [.inst pc] := fun n => .plain (Nat.le_refl _) rfl
      rw [List.map_cons, labels_cons, none, Option.toList_none, List.nil_append]
      split
      · obtain ⟨last, later⟩ := ih (num + 1) false
        have entry : Defines Line.labelOf Sym.tmp [.tmp (num + 1)] (num + 1) (num + 1) [.label (.tmp (num + 1))] := .label rfl
        exact ⟨last, (entry.append ((inst _).append later)).fresh⟩
      · obtain ⟨last, later⟩ := ih num false
        exact ⟨last, (inst _).append later⟩
    cases pc with
    | ASLABEL sym =>
      obtain ⟨last, later⟩ := ih num true
      have label : Defines Line.labelOf Sym.tmp [sym] num num [.label sym] := .label rfl
      exact ⟨last, label.append later⟩
    | _ => exact plain rfl

theorem writeout_entry (targets : List Sym) (num : Nat) (prog : List Inst) :
    writeout num false (mark targets true prog) = [] ∨
      ∃ sym rest, writeout num false (mark targets true prog) = .label sym :: rest := by
  cases prog with
  | nil => exact .inl rfl
  | cons pc next =>
    cases pc with
    | ASLABEL sym => exact .inr ⟨sym, _, rfl⟩
    | _ => exact .inr ⟨_, _, rfl⟩

/-- The lines of an instruction that is no label, and of what follows it. -/
theorem writeout_cons (targets : List Sym) (entry : Bool) (num : Nat) (haslabel : Bool) {pc : Inst} (next : List Inst)
    (plain : pc.labelOf = none) : ∃ first num', (first = [] ∨ ∃ sym, first = [.label sym]) ∧
      writeout num haslabel (mark targets entry (pc :: next)) =
        first ++ .inst pc :: writeout num' false (mark targets pc.ends next) := by
  have lines : writeout num haslabel (mark targets entry (pc :: next)) =
      if (entry || pc.labelOf.any (· ∈ targets)) && !haslabel then
        .label (.tmp (num + 1)) :: .inst pc :: writeout (num + 1) false (mark targets pc.ends next)
      else .inst pc :: writeout num false (mark targets pc.ends next) := by
    cases pc with
    | ASLABEL sym => cases plain
    | _ => rfl
  rw [lines]
  split
  · exact ⟨[_], num + 1, .inr ⟨_, rfl⟩, rfl⟩
  · exact ⟨[], num, .inl rfl, rfl⟩

theorem writeout_followed (targets : List Sym) (entry : Bool) (num : Nat) (haslabel : Bool) (prog : List Inst)
    {before after : List Line} {pc : Inst} (split : writeout num haslabel (mark targets entry prog) = before ++ .inst pc :: after)
    (ends : pc.ends) : after = [] ∨ ∃ sym rest, after = .label sym :: rest := by
  induction prog generalizing entry num haslabel before with
  | nil => exact absurd split (by simp [mark, writeout])
  | cons here next ih =>
    cases plain : here.labelOf with
    | some sym =>
      cases here with
      | ASLABEL sym =>
        cases before with
        | nil => cases split
        | cons first before => exact ih _ _ _ (List.cons.inj split).2
      | _ => cases plain
    | none =>
      obtain ⟨first, num', labelled, lines⟩ := writeout_cons targets entry num haslabel next plain
      rw [lines] at split
      have inside : ∀ before, .inst here :: writeout num' false (mark targets here.ends next) = before ++ .inst pc :: after →
          after = [] ∨ ∃ sym rest, after = .label sym :: rest := by
        intro before split
        cases before with
        | nil =>
          cases split
          rw [ends]
          exact writeout_entry targets num' next
        | cons line before => exact ih _ _ _ (List.cons.inj split).2
      rcases labelled with rfl | ⟨sym, rfl⟩
      · exact inside before split
      · cases before with
        | nil => cases split
        | cons line before => exact inside before (List.cons.inj split).2

theorem writeout_mem (targets : List Sym) (entry : Bool) (num : Nat) (haslabel : Bool) (prog : List Inst) {pc : Inst}
    (member : .inst pc ∈ writeout num haslabel (mark targets entry prog)) : pc ∈ prog := by
  induction prog generalizing entry num haslabel with
  | nil => cases member
  | cons here next ih =>
    cases plain : here.labelOf with
    | some sym =>
      cases here with
      | ASLABEL sym =>
        rcases List.mem_cons.mp member with same | later
        · cases same
        · exact List.mem_cons_of_mem _ (ih _ _ _ later)
      | _ => cases plain
    | none =>
      obtain ⟨first, num', labelled, lines⟩ := writeout_cons targets entry num haslabel next plain
      rw [lines] at member
      rcases List.mem_append.mp member with early | late
      · rcases labelled with rfl | ⟨sym, rfl⟩
        · cases early
        · cases List.mem_singleton.mp early
      · rcases List.mem_cons.mp late with same | later
        · cases same
          exact List.mem_cons_self
        · exact List.mem_cons_of_mem _ (ih _ _ _ later)

theorem writeout_last (targets : List Sym) (entry : Bool) (num : Nat) (haslabel : Bool) (before : List Inst) {pc : Inst}
    (leaves : pc.leaves) :
    ∃ lines, writeout num haslabel (mark targets entry (before ++ [pc])) = lines ++ [.inst pc] := by
  induction before generalizing entry num haslabel with
  | nil =>
    have plain : pc.labelOf = none := by
      cases pc with
      | ASLABEL sym => cases leaves
      | _ => rfl
    obtain ⟨first, num', -, lines⟩ := writeout_cons targets entry num haslabel [] plain
    exact ⟨first, lines⟩
  | cons here next ih =>
    cases plain : here.labelOf with
    | some sym =>
      cases here with
      | ASLABEL sym =>
        obtain ⟨lines, rest⟩ := ih false num true
        exact ⟨.label sym :: lines, congrArg (Line.label sym :: ·) rest⟩
      | _ => cases plain
    | none =>
      obtain ⟨first, num', -, lines⟩ := writeout_cons targets entry num haslabel (next ++ [pc]) plain
      obtain ⟨rest, later⟩ := ih here.ends num' false
      exact ⟨first ++ .inst here :: rest, by rw [List.cons_append, lines, later, List.append_assoc, List.cons_append]⟩

/-! The whole function. -/

theorem entries_labels (stmts : List (Stmt E)) :
    (stmts.map entry).filterMap Entry.label = labels Stmt.labelOf stmts := by
  rw [List.filterMap_map]
  rfl

theorem body_numbered (body : Body) : Numbered body.num (body.stmts.map entry) := by
  unfold Numbered
  rw [entries_labels]
  exact ⟨body.unique, body.taken⟩

theorem body_pending (body : Body) : Pending none (body.stmts.map entry) := by
  obtain ⟨init, same⟩ := body.closing
  rw [same, List.map_append]
  exact .of_append none (init.map entry)

/-- The instructions that a function is compiled to. -/
theorem compile_code {g : Globals} {fuel num : Nat} {stmts : List (Stmt Node)} {lines : List Line}
    (accepted : compile g fuel num stmts = some lines) :
    ∃ nodes prog last, (optm num (stmts.map entry)).mapM sethiEntry = some nodes ∧
      cgen g fuel none none nodes (optmNum (stmtOf stmts) (stmts.map entry).length none num (stmts.map entry)) =
        some ((), prog, last) ∧
      (∀ sym ∈ prog.flatMap Inst.targets, sym ∈ labels Inst.labelOf prog) ∧
      lines = writeout last false (mark (prog.flatMap Inst.targets) true prog) := by
  obtain ⟨nodes, weighed, rest⟩ := Option.bind_eq_some_iff.mp accepted
  obtain ⟨⟨_, prog, last⟩, generated, rest⟩ := Option.bind_eq_some_iff.mp rest
  obtain ⟨marked, blocks, rest⟩ := Option.bind_eq_some_iff.mp rest
  cases rest
  refine ⟨nodes, prog, last, weighed, generated, ?_⟩
  simp only [getbblocks] at blocks
  split at blocks
  case isTrue set =>
    cases blocks
    exact ⟨set, rfl⟩
  case isFalse => cases blocks

theorem function_wellFormed (body : Body) (g : Globals) (fuel : Nat) {lines : List Line}
    (accepted : compile g fuel body.num body.stmts = some lines) : WellFormed lines := by
  obtain ⟨nodes, prog, last, weighed, generated, set, rfl⟩ := compile_code accepted
  have same : (body.stmts.map entry).map Entry.stmt = body.stmts := by
    rw [List.map_map]
    exact List.map_id _
  obtain ⟨-, numbered, -⟩ := apply_labels (stmtOf body.stmts) (body.stmts.map entry).length none body.num
    (body.stmts.map entry) (body_numbered body)
  have closing := apply_closing (stmtOf body.stmts) (body.stmts.map entry).length none body.num
    (body.stmts.map entry) (body_pending body)
  have kept := sethi_labels weighed
  rw [optm, same] at weighed kept
  have defined : Defines Inst.labelOf Sym.tmp (nodes.filterMap Entry.label) _ last prog :=
    heads_none nodes ▸ cgen_sets g fuel none none nodes generated
  obtain ⟨top, written⟩ := writeout_labels last false (mark (prog.flatMap Inst.targets) true prog)
  rw [mark_fst] at written
  have injective : Function.Injective Sym.tmp := fun _ _ equal => Sym.tmp.inj equal
  have once : (labels Inst.labelOf prog).Nodup := by
    refine defined.nodup injective ?_ ?_
    · rw [kept]
      exact numbered.1
    · rw [kept]
      exact numbered.2
  have apart : ∀ n, last < n → .tmp n ∉ labels Inst.labelOf prog := by
    intro n above member
    rcases defined.mem_iff member with early | ⟨i, -, below, equal⟩
    · rw [kept] at early
      exact numbered.2 n (Nat.lt_of_le_of_lt defined.le above) early
    · cases equal
      omega
  refine ⟨?_, ?_, ?_⟩
  · intro before pc after split ends
    exact writeout_followed _ _ _ _ _ split ends
  · intro pc member sym target
    have inside : sym ∈ labels Inst.labelOf prog :=
      set sym (List.mem_flatMap.mpr ⟨pc, writeout_mem _ _ _ _ _ member, target⟩)
    obtain ⟨taken, perm, -⟩ := written.own
    exact List.count_eq_one_of_mem (written.nodup injective once apart)
      (perm.symm.subset (List.mem_append_left _ inside))
  · obtain ⟨before, pc, rfl, leaves⟩ := cgen_leaves (sethi_closing closing weighed) none none generated
    obtain ⟨lines, same⟩ := writeout_last _ true last false before leaves
    exact ⟨lines, pc, same, leaves⟩

/-- `if (x) return 1;` where the branch goes to the end. -/
def early : Body where
  stmts := [.OBFUN, .OBRANCH (.named 2) (.mk .OAUTO int32type (.sym (.named 1)) .nil .nil),
    .ORET (some (.mk .OCONST int32type (.i 1) .nil .nil)), .ONOP (.named 2), .OEFUN]
  num := 0
  closing := ⟨[_, _, _, _], rfl⟩
  unique := List.nodup_singleton _
  taken := by simp [Stmt.labelOf]

def noLocals : Globals := ⟨fun _ => 0, [], fun _ => .nil⟩

theorem function_wellFormed_early : ∃ lines, compile noLocals 4 early.num early.stmts = some lines ∧
    WellFormed lines := by
  have optimized : optm early.num (early.stmts.map entry) = [⟨.OBFUN, none⟩,
      ⟨.OBRANCH (.named 2) (.mk .OAUTO int32type (.sym (.named 1)) .nil .nil), none⟩,
      ⟨.ORET (some (.mk .OCONST int32type (.i 1) .nil .nil)), some (.tmp 1)⟩, ⟨.ONOP (.named 2), some (.named 2)⟩,
      ⟨.OEFUN, none⟩, ⟨.ORET none, none⟩] := by
    simp [optm, early, apply, optmDep, thread_label, entry, Stmt.labelOf, labelNext, falls, needsRet]
  have counted : optmNum (stmtOf early.stmts) (early.stmts.map entry).length none early.num (early.stmts.map entry) = 1 := by
    simp [early, optmNum, optmDep, thread_label, entry, Stmt.labelOf, labelNext, falls, needsRet]
  have accepted : compile noLocals 4 early.num early.stmts = some [.label (.tmp 3),
      .inst (.op .ASLDSW (some (.tmp 2)) (some (.var (.named 1))) none), .inst (.ASBRANCH (.tmp 2) (.named 2) (.tmp 1)),
      .label (.tmp 1), .inst (.ASRET (some (.const 1))), .label (.named 2), .inst (.ASRET none)] := by
    simp only [compile, optimized, counted]
    rfl
  exact ⟨_, accepted, function_wellFormed early noLocals 4 accepted⟩
end Scc.Cc2.Qbe.Code
