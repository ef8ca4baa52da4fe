import Scc.Cc1.StmtLabels
import Scc.Ir.Statements

set_option linter.all false

/-! What cc1 emits for a function behaves as the statement list that cc2 builds from it: the entries of a switch, which
stand in its body for cc1 and next to its head for cc2, lead to the same statements. -/
namespace Scc.Ir
open Cc2 Transition

/-! The calls of `emit`, line by line. -/

/-- The calls of whole lines. -/
def calls (code : List Line) : List Cc1.Emit := code.flatMap Line.calls

@[simp] theorem calls_nil : calls [] = [] := rfl

@[simp] theorem calls_cons (line : Line) (code : List Line) : calls (line :: code) = line.calls ++ calls code := rfl

theorem group_calls (code : List Line) : group (calls code) = code := by
  induction code with
  | nil => rfl
  | cons line code ih =>
    have first : group (line.calls ++ calls code) = line :: group (calls code) := by
      cases line with
      | _ => rfl
    exact first.trans (congrArg (line :: ·) ih)

/-- An operation that takes an operand is followed by it. -/
def Lined (code : List Cc1.Emit) : Prop := ∃ lines, code = calls lines

theorem Lined.nil : Lined [] := ⟨[], rfl⟩

theorem Lined.line (line : Line) {code : List Cc1.Emit} : Lined code → Lined (line.calls ++ code)
  | ⟨lines, same⟩ => ⟨line :: lines, same ▸ rfl⟩

theorem Lined.append {first second : List Cc1.Emit} : Lined first → Lined second → Lined (first ++ second)
  | ⟨lines, same⟩, ⟨more, same'⟩ => ⟨lines ++ more, by rw [same, same', calls, calls, calls, List.flatMap_append]⟩

theorem init_lined (init : List Cc1.Init) : Lined (init.map Cc1.Init.emits) := by
  induction init with
  | nil => exact .nil
  | cons first rest ih =>
    cases first with
    | decl sym type => exact .line (.decl sym type) ih
    | expr np => exact .line (.expr np) ih

theorem stmt_lined (newlabel : Nat → Nat) (s : Cc1.Stmt) (lbreak lcont : Option Nat) (n : Nat) :
    Lined (Cc1.stmt newlabel lbreak lcont n s).1 := by
  induction s generalizing lbreak lcont n with
  | skip => exact .nil
  | seq first rest ih₁ ih₂ => exact (ih₁ ..).append (ih₂ ..)
  | decl sym type => exact .line (.decl sym type) .nil
  | expr np => exact .line (.expr np) .nil
  | label sym body ih => exact .line (.label sym) (ih ..)
  | goto sym => exact .line (.jump sym) .nil
  | «while» cond body ih =>
    exact .line (.jump _) (.line .bloop (.line (.label _) ((ih ..).append
      (.line (.label _) (.line (.branch _ _) (.line .eloop (.line (.label _) .nil)))))))
  | dowhile body cond ih =>
    exact .line .bloop (.line (.label _) ((ih ..).append
      (.line (.label _) (.line (.branch _ _) (.line .eloop (.line (.label _) .nil))))))
  | «for» init econd einc body ih =>
    refine (init_lined init).append (.line (.jump _) (.line .bloop (.line (.label _) ((ih ..).append ?_))))
    refine .line (.label _) (.line (.expr _) (.line (.label _) ?_))
    cases econd with
    | none => exact .line (.jump _) (.line (.expr _) (.line .eloop (.line (.label _) .nil)))
    | some econd => exact .line (.branch _ _) (.line .eloop (.line (.label _) .nil))
  | «if» cond body ih => exact .line (.branch _ _) ((ih ..).append (.line (.label _) .nil))
  | ifelse cond body other ih₁ ih₂ =>
    exact .line (.branch _ _) ((ih₁ ..).append (.line (.jump _) (.line (.label _) ((ih₂ ..).append
      (.line (.label _) .nil)))))
  | «break» =>
    cases lbreak with
    | none => exact .nil
    | some sym => exact .line (.jump sym) .nil
  | «continue» =>
    cases lcont with
    | none => exact .nil
    | some sym => exact .line (.jump sym) .nil
  | «return» np => exact .line (.ret _) .nil
  | switch cond body ih =>
    exact .line (.bswitch _) ((ih ..).append (.line (.eswitch _) (.line (.label _) .nil)))
  | case np body ih => exact .line (.case _ np) (.line (.label _) (ih ..))
  | default body ih => exact .line (.default _) (.line (.label _) (ih ..))

theorem function_lined (newlabel : Nat → Nat) (s : Cc1.Stmt) :
    calls (functionLines newlabel s) = Cc1.function newlabel s := by
  obtain ⟨lines, same⟩ := (stmt_lined newlabel s none none 0).append (.line .efun .nil)
  have same : Cc1.function newlabel s = calls lines := same
  rw [functionLines, same, group_calls]

/-! Labels of switches. -/

/-- The `default` labels of the switch that a statement stands in. -/
def defaults : Cc1.Stmt → Nat
  | .seq first rest => defaults first + defaults rest
  | .label _ body | .while _ body | .dowhile body _ | .for _ _ _ body | .if _ body | .case _ body => defaults body
  | .ifelse _ body other => defaults body + defaults other
  | .default body => defaults body + 1
  | _ => 0

/-- No switch has several `default` labels, which is an error. -/
def single : Cc1.Stmt → Bool
  | .seq first rest => single first && single rest
  | .label _ body | .while _ body | .dowhile body _ | .for _ _ _ body | .if _ body | .case _ body | .default body =>
    single body
  | .ifelse _ body other => single body && single other
  | .switch _ body => defaults body ≤ 1 && single body
  | _ => true

abbrev Entry := Option Cc1.Node × Nat

def unnamed (entries : List Entry) : Nat := entries.countP fun entry => entry.1.isNone

/-- The tables of the switches have one `default` at most. -/
def Once : List Cc1.Emit → Prop
  | [] => True
  | .OBSWITCH :: code => unnamed (Cc1.table 0 code) ≤ 1 ∧ Once code
  | _ :: code => Once code

theorem Once.tail {line : Cc1.Emit} {code : List Cc1.Emit} (once : Once (line :: code)) : Once code := by
  cases line with
  | OBSWITCH => exact once.2
  | _ => exact once

theorem Once.suffix {first code : List Cc1.Emit} (once : Once (first ++ code)) : Once code := by
  induction first with
  | nil => exact once
  | cons line first ih => exact ih once.tail

theorem unnamed_append (first second : List Entry) : unnamed (first ++ second) = unnamed first + unnamed second :=
  List.countP_append

theorem init_table (init : List Cc1.Init) : Cc1.table 0 (init.map Cc1.Init.emits) = [] := by
  induction init with
  | nil => rfl
  | cons first rest ih =>
    cases first with
    | decl sym type => exact ih
    | expr np => exact ih

theorem stmt_unnamed (newlabel : Nat → Nat) (s : Cc1.Stmt) (lbreak lcont : Option Nat) (n : Nat) :
    unnamed (Cc1.table 0 (Cc1.stmt newlabel lbreak lcont n s).1) = defaults s := by
  have split (s : Cc1.Stmt) (lbreak lcont : Option Nat) (n : Nat) (rest : List Cc1.Emit) :
      unnamed (Cc1.table 0 ((Cc1.stmt newlabel lbreak lcont n s).1 ++ rest)) =
        unnamed (Cc1.table 0 (Cc1.stmt newlabel lbreak lcont n s).1) + unnamed (Cc1.table 0 rest) := by
    rw [(Cc1.stmt_balanced newlabel s lbreak lcont n).entries, unnamed_append]
  induction s generalizing lbreak lcont n with
  | skip | decl sym type | expr np | goto sym | «return» np => rfl
  | seq first rest ih₁ ih₂ => exact (split ..).trans (congrArg₂ _ (ih₁ ..) (ih₂ ..))
  | label sym body ih => exact ih ..
  | «while» cond body ih => exact (split body _ _ (n + 3) _).trans (ih ..)
  | dowhile body cond ih => exact (split body _ _ (n + 3) _).trans (ih ..)
  | «for» init econd einc body ih =>
    refine (congrArg unnamed ((Cc1.balanced_init init).entries _)).trans ?_
    rw [init_table, List.nil_append]
    refine (split body _ _ (n + 4) _).trans ((congrArg₂ _ (ih ..) ?_).trans (Nat.add_zero _))
    cases econd with
    | none | some econd => rfl
  | «if» cond body ih => exact (split body _ _ (n + 1) _).trans (ih ..)
  | ifelse cond body other ih₁ ih₂ =>
    refine (split body _ _ (n + 1) _).trans (congrArg₂ _ (ih₁ ..) ?_)
    exact (split other _ _ _ _).trans (ih₂ ..)
  | «break» => cases lbreak with
    | none | some sym => rfl
  | «continue» => cases lcont with
    | none | some sym => rfl
  | switch cond body ih =>
    have operand : Cc1.Balanced (.OEXPR (Cc1.switchCond cond) ::
        (Cc1.stmt newlabel (some (newlabel n)) lcont (n + 1) body).1) := .cons trivial (Cc1.stmt_balanced ..)
    exact congrArg unnamed (Cc1.table_switch operand 0 (newlabel n) [.OLABEL (newlabel n)])
  | case np body ih =>
    exact (List.countP_cons_of_neg (by simp)).trans (ih ..)
  | default body ih =>
    exact (List.countP_cons_of_pos (by simp)).trans (congrArg (· + 1) (ih ..))

theorem Once.within {first more rest : List Cc1.Emit} (once : Once (first ++ (more ++ rest))) :
    Once (first ++ more ++ rest) := by
  rwa [List.append_assoc]

theorem Once.plain {more rest : List Cc1.Emit} (once : Once rest) (plain : ∀ line ∈ more, line ≠ .OBSWITCH) :
    Once (more ++ rest) := by
  induction more with
  | nil => exact once
  | cons line more ih =>
    obtain ⟨first, others⟩ := List.forall_mem_cons.mp plain
    cases line with
    | OBSWITCH => exact absurd rfl first
    | _ => exact ih others

theorem init_once (init : List Cc1.Init) {rest : List Cc1.Emit} (once : Once rest) :
    Once (init.map Cc1.Init.emits ++ rest) := by
  induction init with
  | nil => exact once
  | cons first more ih =>
    cases first with
    | decl sym type => exact ih
    | expr np => exact ih

/-- The lines of a statement and what follows. -/
theorem stmt_once (newlabel : Nat → Nat) (s : Cc1.Stmt) (lbreak lcont : Option Nat) (n : Nat) {rest : List Cc1.Emit}
    (singles : single s = true) (once : Once rest) : Once ((Cc1.stmt newlabel lbreak lcont n s).1 ++ rest) := by
  induction s generalizing lbreak lcont n rest with
  | skip | decl sym type | expr np | goto sym | «return» np => exact once
  | seq first more ih₁ ih₂ =>
    obtain ⟨one, two⟩ := Bool.and_eq_true_iff.mp singles
    exact (ih₁ _ _ _ one (ih₂ _ _ _ two once)).within
  | label sym body ih => exact ih _ _ _ singles once
  | «while» cond body ih =>
    exact (ih (some (newlabel (n + 2))) (some (newlabel (n + 1))) (n + 3) singles (once.plain (by simp))).within
  | dowhile body cond ih =>
    exact (ih (some (newlabel (n + 2))) (some (newlabel (n + 1))) (n + 3) singles (once.plain (by simp))).within
  | «for» init econd einc body ih =>
    have after : Once (.OLABEL (newlabel (n + 1)) :: .OEXPR (einc.getD .nil) :: .OLABEL (newlabel (n + 2)) ::
        (Cc1.forTest (newlabel n) (econd.map fun c => c.tree false) ++ [.OELOOP, .OLABEL (newlabel (n + 3))]) ++ rest) := by
      cases econd with
      | none | some econd => exact once
    have inner : Once (.OJUMP (newlabel (n + 2)) :: .OBLOOP :: .OLABEL (newlabel n) ::
        (Cc1.stmt newlabel (some (newlabel (n + 3))) (some (newlabel (n + 1))) (n + 4) body).1 ++ _ ++ rest) :=
      (ih (some (newlabel (n + 3))) (some (newlabel (n + 1))) (n + 4) singles after).within
    exact (init_once init inner).within
  | «if» cond body ih => exact (ih lbreak lcont (n + 1) singles (once.plain (by simp))).within
  | ifelse cond body other ih₁ ih₂ =>
    obtain ⟨one, two⟩ := Bool.and_eq_true_iff.mp singles
    have second (i lend : Nat) : Once (.OJUMP lend :: .OLABEL (newlabel n) ::
        (Cc1.stmt newlabel lbreak lcont i other).1 ++ [.OLABEL lend] ++ rest) :=
      (ih₂ lbreak lcont i two (once.plain (by simp))).within
    exact (ih₁ lbreak lcont (n + 1) one (second _ _)).within
  | «break» => cases lbreak with
    | none | some sym => exact once
  | «continue» => cases lcont with
    | none | some sym => exact once
  | switch cond body ih =>
    obtain ⟨few, inside⟩ := Bool.and_eq_true_iff.mp singles
    have later := ih (some (newlabel n)) lcont (n + 1) inside
      (show Once ([.OESWITCH (newlabel n), .OLABEL (newlabel n)] ++ rest) from once)
    have entries : unnamed (Cc1.table 0 ((Cc1.stmt newlabel (some (newlabel n)) lcont (n + 1) body).1 ++
        ([.OESWITCH (newlabel n), .OLABEL (newlabel n)] ++ rest))) ≤ 1 := by
      rw [(Cc1.stmt_balanced ..).entries, unnamed_append, stmt_unnamed]
      exact of_decide_eq_true few
    have whole : Once ((.OBSWITCH :: .OEXPR (Cc1.switchCond cond) ::
      (Cc1.stmt newlabel (some (newlabel n)) lcont (n + 1) body).1) ++ ([.OESWITCH (newlabel n), .OLABEL (newlabel n)] ++
        rest)) := ⟨entries, later⟩
    exact whole.within
  | case np body ih => exact ih _ _ (n + 1) singles once
  | default body ih => exact ih _ _ (n + 1) singles once

theorem function_once (newlabel : Nat → Nat) (s : Cc1.Stmt) (singles : single s = true) :
    Once (Cc1.function newlabel s) :=
  stmt_once newlabel s none none 0 singles trivial

/-! The evaluation of operands. -/

section
variable {W V Ev : Type}

/-- cc2 evaluates the tree that it reads for the operand of a line as cc1 means it. The constant of a `case` has no
side effects. -/
def Line.Agrees (m : Cc1.Meaning W V Ev) (sem : Semantics Node W V Ev) (table : Nat → CType) : Line → Prop
  | .expr np => np = .nil ∨ ∀ w, m.run np w = ((sem.eval (tree table np) w).1, (sem.eval (tree table np) w).2.1)
  | .branch _ np => ∀ w, m.truth np w =
      ((sem.eval (tree table np) w).1, (sem.eval (tree table np) w).2.1, sem.nonzero (sem.eval (tree table np) w).2.2)
  | .ret np => np = .nil ∨ ∀ w, m.value np w = sem.eval (tree table np) w
  | .bswitch np => ∀ w, m.value np w = sem.eval (tree table np) w
  | .case _ np => ∀ w, sem.eval (tree table np) w = ([], w, m.constant np)
  | _ => True

/-- The operands of all lines are evaluated alike, with the types that their symbols have there. -/
def Evaluates (m : Cc1.Meaning W V Ev) (sem : Semantics Node W V Ev) (table : Nat → CType) : List Line → Prop
  | [] => True
  | line :: code => line.Agrees m sem table ∧ Evaluates m sem (line.declares table) code

variable {m : Cc1.Meaning W V Ev} {sem : Semantics Node W V Ev}

/-- The entries that a switch has for cc1, and those of cc2 up to its end. -/
inductive Entries (m : Cc1.Meaning W V Ev) (sem : Semantics Node W V Ev) (last : Nat) :
    List Entry → List (Stmt Node) → Prop
  | stop : Entries m sem last [] [.OESWITCH (.named last)]
  | case {np : Cc1.Node} {left : Node} {sym : Nat} {entries : List Entry} {code : List (Stmt Node)}
      (constant : ∀ w, sem.eval left w = ([], w, m.constant np)) (rest : Entries m sem last entries code) :
      Entries m sem last ((some np, sym) :: entries) (.OCASE (.named sym) left :: code)
  | default {sym : Nat} {entries : List Entry} {code : List (Stmt Node)} (rest : Entries m sem last entries code) :
      Entries m sem last ((none, sym) :: entries) (.ODEFAULT (.named sym) :: code)

/-- The lines up to the end of a switch, with `depth` switches open in it and `around` others around it. -/
theorem lines_entries {code : List Line} {table : Nat → CType} {depth around : Nat} (reads : Evaluates m sem table code)
    (nests : nested (depth + around + 1) (statements table code) = true) :
    ∃ last, Cc1.tableEnd depth (calls code) = some last ∧
      Entries m sem last (Cc1.table depth (calls code)) (entries depth (statements table code)) := by
  induction code generalizing table depth with
  | nil => cases nests
  | cons line code ih =>
    obtain ⟨first, later⟩ := reads
    cases line with
    | decl sym type => exact ih later nests
    | label sym | jump sym | branch sym np | bloop | eloop | ret np | efun =>
      rw [statements, Line.stmt, Option.toList_some, List.singleton_append, nested_plain rfl] at nests
      rw [statements, Line.stmt, Option.toList_some, List.singleton_append, entries_plain rfl]
      exact ih later nests
    | expr np =>
      by_cases missing : np = .nil
      · subst missing
        exact ih later nests
      · rw [statements, Line.stmt, if_neg missing, Option.toList_some, List.singleton_append, nested_plain rfl] at nests
        rw [statements, Line.stmt, if_neg missing, Option.toList_some, List.singleton_append, entries_plain rfl]
        exact ih later nests
    | bswitch np =>
      have inner := (Bool.and_eq_true_iff.mp nests).2
      rw [Nat.add_right_comm depth around 1] at inner
      exact ih later inner
    | eswitch sym =>
      cases depth with
      | zero => exact ⟨sym, rfl, .stop⟩
      | succ depth =>
        rw [Nat.add_right_comm depth 1 around] at nests
        exact ih later nests
    | case sym np =>
      obtain ⟨last, ends, entries⟩ := ih later (Bool.and_eq_true_iff.mp nests).2
      cases depth with
      | zero => exact ⟨last, ends, .case first entries⟩
      | succ depth => exact ⟨last, ends, entries⟩
    | default sym =>
      obtain ⟨last, ends, entries⟩ := ih later (Bool.and_eq_true_iff.mp nests).2
      cases depth with
      | zero => exact ⟨last, ends, .default entries⟩
      | succ depth => exact ⟨last, ends, entries⟩

/-- Where a table leads to, with the `default` met before it. -/
def leads (m : Cc1.Meaning W V Ev) (v : V) (last : Nat) (deflabel : Option Nat) (entries : List Entry) : Nat :=
  match entries.find? fun entry => entry.1.any fun np => m.equal (m.constant np) v with
  | some entry => entry.2
  | none => (((entries.find? fun entry => entry.1.isNone).map Prod.snd).or deflabel).getD last

theorem leads_destination (v : V) (last : Nat) (entries : List Entry) :
    Cc1.destination m v entries (some last) = some (leads m v last none entries) := by
  rw [Cc1.destination, leads]
  cases entries.find? fun entry => entry.1.any fun np => m.equal (m.constant np) v with
  | some entry => rfl
  | none =>
    cases entries.find? fun entry => entry.1.isNone with
    | some entry => rfl
    | none => rfl

theorem leads_case {v : V} {np : Cc1.Node} (other : m.equal (m.constant np) v = false) (last sym : Nat)
    (deflabel : Option Nat) (entries : List Entry) :
    leads m v last deflabel ((some np, sym) :: entries) = leads m v last deflabel entries := by
  simp [leads, other]

theorem leads_default (v : V) (last sym : Nat) (deflabel : Option Nat) {entries : List Entry}
    (only : unnamed entries = 0) :
    leads m v last deflabel ((none, sym) :: entries) = leads m v last (some sym) entries := by
  have others : entries.find? (fun entry => entry.1.isNone) = none :=
    List.find?_eq_none.mpr (List.countP_eq_zero.mp only)
  simp [leads, others]

/-- cc2 walks over the table without side effects. -/
theorem table_runs (equal : ∀ a b, m.equal a b = sem.equal a b) (body : List (Stmt Node)) {entries : List Entry}
    {table : List (Stmt Node)} {last : Nat} (matched : Entries m sem last entries table) (after : List (Stmt Node))
    (v : V) (w : W) (deflabel : Option Nat) (once : unnamed entries ≤ 1) :
    ∃ n, Runs (step sem body) (n + 1) (.table v (deflabel.map .named) (table ++ after) w) []
      (goto body (.named (leads m v last deflabel entries)) w) := by
  induction matched generalizing deflabel with
  | stop =>
    refine ⟨0, .one ?_⟩
    cases deflabel with
    | none | some sym => rfl
  | @case np left sym entries code constant rest ih =>
    cases same : m.equal (m.constant np) v with
    | true =>
      refine ⟨0, .one ?_⟩
      simp [step, tableStep, constant, ← equal, same, leads]
    | false =>
      obtain ⟨n, run⟩ := ih deflabel once
      rw [← leads_case same last sym] at run
      refine ⟨n + 1, .silent ?_ run⟩
      simp [step, tableStep, constant, ← equal, same]
  | @default sym entries code rest ih =>
    have only : unnamed entries = 0 :=
      Nat.le_zero.mp (Nat.le_of_succ_le_succ ((List.countP_cons_of_pos (by simp)).symm.trans_le once))
    obtain ⟨n, run⟩ := ih (some sym) (Nat.le_trans (Nat.le_of_eq only) (Nat.zero_le 1))
    rw [← leads_default v last sym deflabel only] at run
    exact ⟨n + 1, .silent rfl run⟩

/-! The list of cc2. -/

/-- The statements of lines, as cc2 arranges them. -/
def lower (table : Nat → CType) (code : List Line) : List (Stmt Node) := (arrange (statements table code)).map exchanged

section
variable {table : Nat → CType} {line : Line} {np : Stmt Node} {code : List Line}

theorem lower_none (stands : line.stmt table = none) : lower table (line :: code) = lower (line.declares table) code := by
  rw [lower, statements, stands]
  rfl

theorem lower_plain (stands : line.stmt table = some np) (plain : np.plain = true) :
    lower table (line :: code) = exchanged np :: lower (line.declares table) code := by
  rw [lower, statements, stands, Option.toList_some, List.singleton_append, arrange_plain plain]
  rfl

variable (table code) in
theorem lower_switch (np : Cc1.Node) : ∃ nr, lower table (.bswitch np :: code) =
    .OBSWITCH (tree table np) nr :: (entries 0 (statements table code) ++ lower table code) := by
  refine ⟨(entries 0 (statements table code)).length, ?_⟩
  rw [← exchanged_entries 0 (statements table code), lower, lower, ← List.map_append, exchanged_entries]
  rfl

/-- Lines whose operands are evaluated alike and whose switches are closed. -/
structure Ready (m : Cc1.Meaning W V Ev) (sem : Semantics Node W V Ev) (table : Nat → CType) (code : List Line) : Prop where
  reads : Evaluates m sem table code
  nests : ∃ depth, nested depth (statements table code) = true
  once : Once (calls code)

theorem nested_tail {depth : Nat} {np : Stmt Node} {code : List (Stmt Node)} (nests : nested depth (np :: code) = true) :
    ∃ depth, nested depth code = true := by
  cases np with
  | OBSWITCH left nr => exact ⟨depth + 1, (Bool.and_eq_true_iff.mp nests).2⟩
  | OESWITCH sym =>
    cases depth with
    | zero => cases nests
    | succ depth => exact ⟨depth, nests⟩
  | OCASE sym left => exact ⟨depth, (Bool.and_eq_true_iff.mp nests).2⟩
  | ODEFAULT sym => exact ⟨depth, (Bool.and_eq_true_iff.mp nests).2⟩
  | _ => exact ⟨depth, (nested_plain rfl _ _).symm.trans nests⟩

theorem Ready.tail (ready : Ready m sem table (line :: code)) : Ready m sem (line.declares table) code where
  reads := ready.reads.2
  nests := by
    obtain ⟨depth, nests⟩ := ready.nests
    rw [statements] at nests
    cases stands : line.stmt table with
    | none =>
      rw [stands] at nests
      exact ⟨depth, nests⟩
    | some np =>
      rw [stands] at nests
      exact nested_tail nests
  once := ready.once.suffix

theorem labels_entries (depth : Nat) (code : List (Stmt Node)) : labels Stmt.labelOf (entries depth code) = [] := by
  refine List.filterMap_eq_nil_iff.mpr fun np member => ?_
  have entry := entries_are_entries depth code np member
  cases np with
  | OCASE sym left | ODEFAULT sym | OESWITCH sym => rfl
  | _ => cases entry

/-- A label is found at the same place. -/
theorem seek_lowered (ready : Ready m sem table code) (sym : Nat) :
    (seek Cc1.Emit.labelOf sym (calls code) = none ∧ seek Stmt.labelOf (.named sym) (lower table code) = none) ∨
      ∃ table' code', seek Cc1.Emit.labelOf sym (calls code) = some (calls code') ∧
        seek Stmt.labelOf (.named sym) (lower table code) = some (lower table' code') ∧ Ready m sem table' code' := by
  induction code generalizing table with
  | nil => exact .inl ⟨rfl, rfl⟩
  | cons line code ih =>
    have later := ih ready.tail
    cases line with
    | label sym' =>
      have stands : lower table (.label sym' :: code) = .ONOP (.named sym') :: lower table code :=
        lower_plain (show Line.stmt table (.label sym') = some (.ONOP (.named sym')) from rfl) rfl
      by_cases same : sym' = sym
      · subst same
        refine .inr ⟨table, .label sym' :: code, if_pos rfl, ?_, ready⟩
        rw [stands]
        exact if_pos rfl
      · have skips : seek Cc1.Emit.labelOf sym (calls (.label sym' :: code)) = seek Cc1.Emit.labelOf sym (calls code) :=
          if_neg fun here => same (Option.some.inj here)
        have skips' : seek Stmt.labelOf (.named sym) (lower table (.label sym' :: code)) =
            seek Stmt.labelOf (.named sym) (lower table code) := by
          rw [stands]
          exact if_neg fun here => same (Sym.named.inj (Option.some.inj here))
        rw [skips, skips']
        exact later
    | bswitch np =>
      obtain ⟨nr, stands⟩ := lower_switch table code np
      have skips : seek Stmt.labelOf (.named sym) (lower table (.bswitch np :: code)) =
          seek Stmt.labelOf (.named sym) (lower table code) := by
        rw [stands]
        refine (if_neg nofun).trans (seek_append_of_notMem ?_)
        rw [labels_entries]
        exact List.not_mem_nil
      rw [skips]
      exact later
    | eswitch sym' | case sym' np | default sym' | decl sym' type => exact later
    | expr np =>
      by_cases missing : np = .nil
      · subst missing
        exact later
      · have stands : (Line.expr np).stmt table = some (.expr (tree table np)) := if_neg missing
        rw [lower_plain stands rfl]
        exact later
    | jump sym' | branch sym' np | bloop | eloop | ret np | efun =>
      rw [lower_plain rfl rfl]
      exact later

end

/-! The simulation. -/

def outcome : Cc2.Outcome W V → Cc1.Outcome W V
  | .returned value w => .returned value w
  | .stuck => .stuck

/-- The execution of a list of cc2, with the results that cc1 knows. -/
abbrev observed (sem : Semantics Node W V Ev) (list : List (Stmt Node)) (c : Config Node W V) :
    Next (Config Node W V) Ev (Cc1.Outcome W V) := (step sem list c).map outcome

/-- The lines ahead, and the statements of cc2 for them. -/
inductive Match (m : Cc1.Meaning W V Ev) (sem : Semantics Node W V Ev) : Cc1.Point W V → Config Node W V → Prop
  | lines {table : Nat → CType} {code : List Line} {w : W} (ready : Ready m sem table code) :
      Match m sem (.at (calls code) w) (.at (lower table code) w)
  | returned {value : Option V} {w : W} : Match m sem (.returned value w) (.returned value w)
  | stuck : Match m sem .stuck .stuck

def ahead : Cc1.Point W V → Nat
  | .at code _ => code.length
  | _ => 0

section
variable {table : Nat → CType} {lines : List Line}

/-- The list of a function, with its head. -/
abbrev listed (table : Nat → CType) (lines : List Line) : List (Stmt Node) := .OBFUN :: lower table lines

theorem jump_matched (ready : Ready m sem table lines) (sym : Nat) (w : W) :
    Match m sem (Cc1.jump (calls lines) (some sym) w) (goto (listed table lines) (.named sym) w) := by
  have head : seek Stmt.labelOf (.named sym) (listed table lines) = seek Stmt.labelOf (.named sym) (lower table lines) :=
    if_neg nofun
  rw [goto, head, Cc1.jump, Option.bind_some]
  rcases seek_lowered ready sym with ⟨missing, missing'⟩ | ⟨table', code, found, found', ready'⟩
  · rw [missing, missing']
    exact .stuck
  · rw [found, found']
    exact .lines ready'

/-- What one line of cc1 does, cc2 does. -/
theorem line_step (equal : ∀ a b, m.equal a b = sem.equal a b) (ready : Ready m sem table lines)
    {here : Nat → CType} {line : Line} {code : List Line} (position : Ready m sem here (line :: code)) (w : W)
    {es : List Ev} {next : Cc1.Point W V}
    (head : Cc1.flat m (calls lines) (.at (calls (line :: code)) w) = .more es next) :
    (∃ n c, Runs (step sem (listed table lines)) (n + 1) (.at (lower here (line :: code)) w) es c ∧ Match m sem next c) ∨
      (es = [] ∧ Match m sem next (.at (lower here (line :: code)) w) ∧
        ahead next < ahead (V := V) (.at (calls (line :: code)) w)) := by
  have later := position.tail
  have first := position.reads.1
  have one {c : Config Node W V} (stepped : step sem (listed table lines) (.at (lower here (line :: code)) w) = .more es c)
      (related : Match m sem next c) :
      ∃ n c, Runs (step sem (listed table lines)) (n + 1) (.at (lower here (line :: code)) w) es c ∧ Match m sem next c :=
    ⟨0, c, .one stepped, related⟩
  cases line with
  | decl sym type =>
    obtain ⟨rfl, rfl⟩ := Next.more.inj head
    exact .inr ⟨rfl, .lines later, Nat.lt_succ_self _⟩
  | eswitch sym =>
    obtain ⟨rfl, rfl⟩ := Next.more.inj head
    exact .inr ⟨rfl, .lines later, Nat.lt_succ_self _⟩
  | default sym =>
    obtain ⟨rfl, rfl⟩ := Next.more.inj head
    exact .inr ⟨rfl, .lines later, Nat.lt_succ_self _⟩
  | case sym np =>
    obtain ⟨rfl, rfl⟩ := Next.more.inj head
    exact .inr ⟨rfl, .lines later, Nat.lt_succ_of_lt (Nat.lt_succ_self _)⟩
  | label sym | bloop | eloop | efun =>
    obtain ⟨rfl, rfl⟩ := Next.more.inj head
    rw [lower_plain rfl rfl] at one ⊢
    exact .inl (one rfl (.lines later))
  | jump sym =>
    obtain ⟨rfl, rfl⟩ := Next.more.inj head
    rw [lower_plain rfl rfl] at one ⊢
    exact .inl (one rfl (jump_matched ready sym w))
  | expr np =>
    obtain ⟨rfl, rfl⟩ := Next.more.inj head
    rcases first with rfl | agrees
    · exact .inr ⟨rfl, .lines later, Nat.lt_succ_self _⟩
    · by_cases missing : np = .nil
      · subst missing
        exact .inr ⟨rfl, .lines later, Nat.lt_succ_self _⟩
      · have stands : (Line.expr np).stmt here = some (.expr (tree here np)) := if_neg missing
        rw [lower_plain stands rfl] at one ⊢
        have ran : m.run np w = ((sem.eval (tree here np) w).1, (sem.eval (tree here np) w).2.1) := agrees w
        rw [ran] at one ⊢
        exact .inl (one rfl (.lines later))
  | branch sym np =>
    obtain ⟨rfl, rfl⟩ := Next.more.inj head
    rw [lower_plain rfl rfl] at one ⊢
    have agrees : m.truth np w = ((sem.eval (tree here np) w).1, (sem.eval (tree here np) w).2.1,
      sem.nonzero (sem.eval (tree here np) w).2.2) := first w
    rw [agrees] at one ⊢
    refine .inl (one rfl ?_)
    cases taken : sem.nonzero (sem.eval (tree here np) w).2.2 with
    | true => exact jump_matched ready sym _
    | false => exact .lines later
  | ret np =>
    have result : Cc1.flat m (calls lines) (.at (calls (.ret np :: code)) w) =
      .more (m.result np w).1 (.returned (m.result np w).2.1 (m.result np w).2.2) := rfl
    obtain ⟨rfl, rfl⟩ := Next.more.inj (result.symm.trans head)
    by_cases missing : np = .nil
    · subst missing
      rw [lower_plain (show (Line.ret .nil).stmt here = some (.ORET none) from rfl) rfl] at one ⊢
      exact .inl (one rfl .returned)
    · have stands : (Line.ret np).stmt here = some (.ORET (some (tree here np))) :=
        congrArg (fun left => some (Stmt.ORET left)) (if_neg missing)
      have agrees : m.value np w = sem.eval (tree here np) w := (first.resolve_left missing) w
      have value : m.result np w =
          ((sem.eval (tree here np) w).1, some (sem.eval (tree here np) w).2.2, (sem.eval (tree here np) w).2.1) := by
        rw [← agrees]
        cases np with
        | nil => exact absurd rfl missing
        | mk => rfl
      rw [lower_plain stands rfl] at one ⊢
      rw [value] at one ⊢
      exact .inl (one rfl .returned)
  | bswitch np =>
    have selects : Cc1.flat m (calls lines) (.at (calls (.bswitch np :: code)) w) = .more (m.value np w).1
      (Cc1.jump (calls lines) (Cc1.destination m (m.value np w).2.2 (Cc1.table 0 (calls code))
        (Cc1.tableEnd 0 (calls code))) (m.value np w).2.1) := rfl
    obtain ⟨rfl, rfl⟩ := Next.more.inj (selects.symm.trans head)
    obtain ⟨depth, nests⟩ := position.nests
    have inside := (Bool.and_eq_true_iff.mp nests).2
    rw [← Nat.zero_add depth] at inside
    obtain ⟨last, ends, matched⟩ := lines_entries position.reads.2 inside
    have agrees : m.value np w = sem.eval (tree here np) w := first w
    obtain ⟨nr, stands⟩ := lower_switch here code np
    obtain ⟨n, walk⟩ := table_runs equal (listed table lines) matched (lower here code)
      (m.value np w).2.2 (m.value np w).2.1 none position.once.1
    have evaluated : step sem (listed table lines) (.at (lower here (.bswitch np :: code)) w) = .more (m.value np w).1
        (.table (m.value np w).2.2 none (entries 0 (statements here code) ++ lower here code) (m.value np w).2.1) := by
      rw [stands, agrees]
      rfl
    have run := Runs.next evaluated walk
    rw [List.append_nil] at run
    refine .inl ⟨n + 1, _, run, ?_⟩
    rw [ends, leads_destination]
    exact jump_matched ready _ _

theorem line_simulation (equal : ∀ a b, m.equal a b = sem.equal a b) (ready : Ready m sem table lines) :
    Simulation (Cc1.flat m (calls lines)) (observed sem (listed table lines)) (Match m sem) ahead where
  done := by
    intro p c r matched stops
    cases matched with
    | @lines here code w position =>
      cases code with
      | nil =>
        cases stops
        exact ⟨0, _, .refl _, rfl⟩
      | cons line code =>
        cases line with
        | _ => cases stops
    | returned =>
      cases stops
      exact ⟨0, _, .refl _, rfl⟩
    | stuck =>
      cases stops
      exact ⟨0, _, .refl _, rfl⟩
  more := by
    intro p c es next matched head
    cases matched with
    | @lines here code w position =>
      cases code with
      | nil => cases head
      | cons line code =>
        rcases line_step equal ready position w head with ⟨n, c, run, related⟩ | silent
        · exact .inl ⟨n, c, Runs.map_iff.mpr run, related⟩
        · exact .inr silent
    | returned => cases head
    | stuck => cases head

theorem lines_same_behavior (equal : ∀ a b, m.equal a b = sem.equal a b) (ready : Ready m sem table lines) (w : W) :
    SameBehavior (Cc1.flat m (calls lines)) (.at (calls lines) w)
      (observed sem (listed table lines)) (.at (listed table lines) w) :=
  have entered : observed sem (listed table lines) (.at (listed table lines) w) =
    .more [] (.at (lower table lines) w) := rfl
  ((line_simulation equal ready).same_behavior (.lines ready)).trans (SameBehavior.of_silent entered).symm

end

theorem function_split (newlabel : Nat → Nat) (body : Cc1.Stmt) :
    functionLines newlabel body = group (Cc1.stmt newlabel none none 0 body).1 ++ [.efun] :=
  (stmt_formed newlabel body none none 0).group [.OEFUN]

theorem function_ready (newlabel : Nat → Nat) (body : Cc1.Stmt) {table : Nat → CType} (nests : switched 0 body = true)
    (singles : single body = true) {m : Cc1.Meaning W V Ev} {sem : Semantics Node W V Ev}
    (reads : Evaluates m sem table (functionLines newlabel body)) : Ready m sem table (functionLines newlabel body) where
  reads := reads
  nests := by
    obtain ⟨table', nest⟩ := (stmt_formed newlabel body none none 0).nested table 0 [.efun]
    refine ⟨0, ?_⟩
    rw [function_split, nest, nests]
    rfl
  once := by
    rw [function_lined]
    exact function_once newlabel body singles

end

/-! Constants. -/

def constantValue : Cc1.Node → BitVec 64
  | .mk .OSYM true type (some sym) _ _ => sym.u &&& Cc1.ones type.size
  | _ => 0

/-- Constants have no effects. -/
def constants : Cc1.Meaning Unit (BitVec 64) Unit where
  value np w := ([], w, constantValue np)
  nonzero v := v != 0
  constant := constantValue
  equal := (· == ·)
  holds _ _ l r := l == r

def constantTrees : Semantics Node Unit (BitVec 64) Unit where
  eval np w := ([], w, match np with
    | .mk .OCONST _ (.i n) _ _ => n
    | _ => 0)
  nonzero v := v != 0
  equal := (· == ·)

theorem switchSeven_evaluates (table : Nat → CType) :
    Evaluates constants constantTrees table (functionLines (fun n => n + 1) switchSeven) :=
  ⟨fun _ => rfl, fun _ => rfl, trivial, .inr fun _ => rfl, trivial, trivial, trivial, trivial⟩

end Scc.Ir
