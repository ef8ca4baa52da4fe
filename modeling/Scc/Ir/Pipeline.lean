import Scc.Cc1.StmtSimulation
import Scc.Cc2.Qbe.OptmProofs
import Scc.Ir.Lowering

set_option linter.all false

/-! From the statements of a function to the list that cc2 generates code from. The list that cc2 builds is that of a
well-formed function, and the conditions that the jump optimisation drops are those of the `if` statements over nothing. -/
namespace Scc.Ir
open Cc2 Transition

/-! Where control goes. -/

/-- The label that a line transfers control to. -/
def goal : Cc1.Emit → Option Nat
  | .OJUMP sym | .OBRANCH sym | .OESWITCH sym | .OCASE sym | .ODEFAULT sym => some sym
  | _ => none

/-- The labels that the program itself names in its `goto` statements. -/
def gotos : Cc1.Stmt → List Nat
  | .seq first rest => gotos first ++ gotos rest
  | .label _ body | .while _ body | .dowhile body _ | .for _ _ _ body | .if _ body | .switch _ body | .case _ body
  | .default body => gotos body
  | .ifelse _ body other => gotos body ++ gotos other
  | .goto sym => [sym]
  | _ => []

section
attribute [local simp] goal gotos Cc1.stmt Cc1.Emit.labelOf Cc1.While Cc1.Dowhile Cc1.For
end

/-- A label for the statements in a statement. -/
def Around (lbreak lcont : Option Nat) (s : Cc1.Stmt) (sym : Nat) : Prop :=
  lbreak = some sym ∨ lcont = some sym ∨ sym ∈ gotos s

theorem init_goals (init : List Cc1.Init) : labels goal (init.map Cc1.Init.emits) = [] := by
  induction init with
  | nil => rfl
  | cons first rest ih =>
    cases first with
    | decl | expr => simpa [goal, Cc1.Init.emits] using ih

/-- Control goes to a label that the lines define, or to one of those around them. -/
theorem stmt_goals (newlabel : Nat → Nat) (s : Cc1.Stmt) (lbreak lcont : Option Nat) (n : Nat) :
    ∀ sym ∈ labels goal (Cc1.stmt newlabel lbreak lcont n s).1, Around lbreak lcont s sym ∨
      sym ∈ labels Cc1.Emit.labelOf (Cc1.stmt newlabel lbreak lcont n s).1 := by
  intro sym
  induction s generalizing lbreak lcont n with
  | seq first rest ih₁ ih₂ =>
    have one := ih₁ lbreak lcont n
    have two := ih₂ lbreak lcont (Cc1.stmt newlabel lbreak lcont n first).2
    simp only [Cc1.stmt, labels_append, List.mem_append, Around, gotos] at one two ⊢
    grind
  | skip | decl | expr | «return» => simp [Cc1.stmt, goal]
  | goto sym' =>
    simp only [Cc1.stmt, labels_cons, labels_nil, goal, Option.toList_some, List.append_nil, Around, gotos]
    grind
  | label sym' body ih =>
    have inner := ih lbreak lcont n
    simp only [Cc1.stmt, labels_cons, goal, Cc1.Emit.labelOf, Option.toList_none, List.nil_append, Around, gotos,
      List.mem_append] at inner ⊢
    grind
  | «while» cond body ih =>
    have inner := ih (some (newlabel (n + 2))) (some (newlabel (n + 1))) (n + 3)
    simp only [Around, gotos, Option.some.injEq] at inner ⊢
    simp [Cc1.stmt, Cc1.While, goal, Cc1.Emit.labelOf]
    grind
  | dowhile body cond ih =>
    have inner := ih (some (newlabel (n + 2))) (some (newlabel (n + 1))) (n + 3)
    simp only [Around, gotos, Option.some.injEq] at inner ⊢
    simp [Cc1.stmt, Cc1.Dowhile, goal, Cc1.Emit.labelOf]
    grind
  | «for» init econd einc body ih =>
    have inner := ih (some (newlabel (n + 3))) (some (newlabel (n + 1))) (n + 4)
    have test : labels goal (Cc1.forTest (newlabel n) (econd.map fun c => c.tree false)) = [newlabel n] := by
      cases econd with
      | none | some econd => rfl
    simp only [Around, gotos, Option.some.injEq] at inner ⊢
    simp [Cc1.stmt, Cc1.For, goal, Cc1.Emit.labelOf, init_goals, Cc1.labels_init, Cc1.labels_forTest, test]
    grind
  | «if» cond body ih =>
    have inner := ih lbreak lcont (n + 1)
    simp only [Around, gotos] at inner ⊢
    simp [Cc1.stmt, goal, Cc1.Emit.labelOf]
    grind
  | ifelse cond body other ih₁ ih₂ =>
    have one := ih₁ lbreak lcont (n + 1)
    have two := ih₂ lbreak lcont ((Cc1.stmt newlabel lbreak lcont (n + 1) body).2 + 1)
    simp only [Around, gotos, List.mem_append] at one two ⊢
    simp [Cc1.stmt, goal, Cc1.Emit.labelOf]
    grind
  | «break» =>
    cases lbreak with
    | none => simp [Cc1.stmt]
    | some sym' =>
      simp [Cc1.stmt, goal, Around]
      grind
  | «continue» =>
    cases lcont with
    | none => simp [Cc1.stmt]
    | some sym' =>
      simp [Cc1.stmt, goal, Around]
      grind
  | switch cond body ih =>
    have inner := ih (some (newlabel n)) lcont (n + 1)
    simp only [Around, gotos, Option.some.injEq] at inner ⊢
    simp [Cc1.stmt, goal, Cc1.Emit.labelOf]
    grind
  | case np body ih =>
    have inner := ih lbreak lcont (n + 1)
    simp only [Around, gotos] at inner ⊢
    simp [Cc1.stmt, goal, Cc1.Emit.labelOf]
    grind
  | default body ih =>
    have inner := ih lbreak lcont (n + 1)
    simp only [Around, gotos] at inner ⊢
    simp [Cc1.stmt, goal, Cc1.Emit.labelOf]
    grind

/-- The `goto` statements of a function name labels that it has. -/
theorem function_goals (newlabel : Nat → Nat) (body : Cc1.Stmt) (named : ∀ sym ∈ gotos body, sym ∈ body.named) :
    ∀ sym ∈ labels goal (Cc1.function newlabel body), sym ∈ labels Cc1.Emit.labelOf (Cc1.function newlabel body) := by
  intro sym member
  rw [Cc1.function, labels_append, List.mem_append] at member ⊢
  rcases member with inside | ending
  · rcases stmt_goals newlabel body none none 0 sym inside with (missing | missing | named') | defined
    · cases missing
    · cases missing
    · have times := Cc1.count_labels newlabel body none none 0 sym
      have once := List.count_pos_iff.mpr (named sym named')
      exact .inl (List.count_pos_iff.mp (by omega))
    · exact .inl defined
  · cases ending

/-! The list that cc2 builds. -/

section
variable {W V Ev : Type} {code : List Line}

theorem labels_lower (table : Nat → CType) (code : List Line) :
    labels Stmt.labelOf (lower table code) = (labels Cc1.Emit.labelOf (calls code)).map .named := by
  induction code generalizing table with
  | nil => rfl
  | cons line code ih =>
    cases line with
    | label sym =>
      rw [lower_plain (show (Line.label sym).stmt table = some (.ONOP (.named sym)) from rfl) rfl]
      exact congrArg (Sym.named sym :: ·) (ih table)
    | bswitch np =>
      obtain ⟨nr, stands⟩ := lower_switch table code np
      rw [stands]
      refine (labels_append (entries 0 (statements table code)) (lower table code)).trans ?_
      rw [labels_entries]
      exact ih table
    | eswitch | case | default | decl => exact ih _
    | expr np =>
      by_cases missing : np = .nil
      · subst missing
        exact ih table
      · have stands : (Line.expr np).stmt table = some (.expr (tree table np)) := if_neg missing
        rw [lower_plain stands rfl]
        exact ih table
    | jump | branch | bloop | eloop | ret | efun =>
      rw [lower_plain rfl rfl]
      exact ih table

theorem entries_subset (depth : Nat) (code : List (Stmt Node)) : entries depth code ⊆ code := by
  fun_induction entries depth code with
  | case1 => exact List.Subset.refl _
  | case3 => exact List.cons_subset_cons _ (List.nil_subset _)
  | case5 _ _ _ ih | case6 _ _ ih => exact List.cons_subset_cons _ ih
  | _ => exact List.subset_cons_of_subset _ ‹_›

theorem arrange_aimed {code : List (Stmt Node)} {np : Stmt Node} (member : np ∈ arrange code) {sym : Sym}
    (aimed : np.target = some sym) : np ∈ code := by
  induction code with
  | nil => cases member
  | cons first code ih =>
    cases first with
    | OBSWITCH left nr =>
      rcases List.mem_cons.mp member with rfl | member
      · cases aimed
      · refine List.mem_cons_of_mem _ ?_
        rcases List.mem_append.mp member with entry | later
        · exact entries_subset 0 code entry
        · exact ih later
    | OCASE | ODEFAULT | OESWITCH => exact List.mem_cons_of_mem _ (ih member)
    | _ =>
      rw [arrange_plain rfl] at member
      rcases List.mem_cons.mp member with rfl | later
      · exact List.mem_cons_self
      · exact List.mem_cons_of_mem _ (ih later)

theorem goals_statements (table : Nat → CType) (code : List Line) {np : Stmt Node} (member : np ∈ statements table code)
    {sym : Sym} (aimed : np.target = some sym) : ∃ sym' ∈ labels goal (calls code), sym = .named sym' := by
  induction code generalizing table with
  | nil => cases member
  | cons line code ih =>
    rw [statements, List.mem_append] at member
    rw [calls_cons, labels_append]
    rcases member with first | later
    · rw [Option.mem_toList] at first
      cases line with
      | jump sym' | branch sym' _ | eswitch sym' | case sym' _ | default sym' =>
        obtain rfl := Option.some.inj first
        obtain rfl := Option.some.inj aimed
        exact ⟨sym', List.mem_append_left _ List.mem_cons_self, rfl⟩
      | expr np' =>
        by_cases missing : np' = .nil
        · rw [Line.stmt, if_pos missing] at first
          cases first
        · rw [Line.stmt, if_neg missing] at first
          obtain rfl := Option.some.inj first
          cases aimed
      | decl => cases first
      | _ =>
        obtain rfl := Option.some.inj first
        cases aimed
    · obtain ⟨sym', found, same⟩ := ih _ later
      exact ⟨sym', List.mem_append_right _ found, same⟩

theorem goals_lower (table : Nat → CType) (code : List Line) {np : Stmt Node} (member : np ∈ lower table code) {sym : Sym}
    (aimed : np.target = some sym) : ∃ sym' ∈ labels goal (calls code), sym = .named sym' := by
  obtain ⟨before, among, rfl⟩ := List.mem_map.mp member
  have aimed' : before.target = some sym := by
    cases before with
    | _ => exact aimed
  exact goals_statements table code (arrange_aimed among aimed') aimed'

/-- A statement that is no entry of a switch stands after the entries. -/
theorem suffix_entries {depth : Nat} {statements code rest : List (Stmt Node)} {np : Stmt Node} (other : np.entry = false)
    (position : np :: code <:+ entries depth statements ++ rest) : np :: code <:+ rest :=
  suffix_of_notMem (fun among => Bool.false_ne_true (other.symm.trans (entries_are_entries depth statements np among))) position

theorem Entries.table {m : Cc1.Meaning W V Ev} {sem : Semantics Node W V Ev} {last : Nat} {entries : List Entry}
    {code : List (Stmt Node)} (matched : Entries m sem last entries code) (after : List (Stmt Node)) :
    Table (code ++ after) := by
  induction matched with
  | stop => exact trivial
  | case => assumption
  | default => assumption

variable {m : Cc1.Meaning W V Ev} {sem : Semantics Node W V Ev} {table : Nat → CType}

/-- A line whose statement is not an entry of a switch, with what follows it in the list. -/
inductive Stands (table : Nat → CType) : List Line → Stmt Node → List (Stmt Node) → Prop
  | plain {line : Line} {before np : Stmt Node} (code : List Line) (stands : line.stmt table = some before)
      (plain : before.plain = true) (same : np = exchanged before) :
      Stands table (line :: code) np (lower (line.declares table) code)
  | switch (np : Cc1.Node) (nr : Nat) (code : List Line) :
      Stands table (.bswitch np :: code) (.OBSWITCH (tree table np) nr)
        (Cc2.entries 0 (statements table code) ++ lower table code)

/-- Every statement of the list that is no entry has its line. -/
theorem lower_suffix (ready : Ready m sem table code) {np : Stmt Node} {rest : List (Stmt Node)} (other : np.entry = false)
    (position : np :: rest <:+ lower table code) :
    ∃ table' code', Ready m sem table' code' ∧ code' <:+ code ∧ Stands table' code' np rest := by
  induction code generalizing table with
  | nil => exact absurd (List.suffix_nil.mp position) (List.cons_ne_nil _ _)
  | cons line code ih =>
    have further (later : np :: rest <:+ lower (line.declares table) code) : ∃ table' code', Ready m sem table' code' ∧
        code' <:+ line :: code ∧ Stands table' code' np rest := by
      obtain ⟨table', code', ready', before, stands⟩ := ih ready.tail later
      exact ⟨table', code', ready', before.trans (List.suffix_cons _ _), stands⟩
    have plain {first : Stmt Node} (stands : line.stmt table = some first) (plain : first.plain = true) :
        ∃ table' code', Ready m sem table' code' ∧ code' <:+ line :: code ∧ Stands table' code' np rest := by
      rw [lower_plain stands plain] at position
      rcases List.suffix_cons_iff.mp position with same | later
      · obtain ⟨rfl, rfl⟩ := List.cons.inj same
        exact ⟨table, _, ready, List.suffix_refl _, .plain code stands plain rfl⟩
      · exact further later
    cases line with
    | bswitch tree =>
      obtain ⟨nr, stands⟩ := lower_switch table code tree
      rw [stands] at position
      rcases List.suffix_cons_iff.mp position with same | later
      · obtain ⟨rfl, rfl⟩ := List.cons.inj same
        exact ⟨table, _, ready, List.suffix_refl _, .switch tree nr code⟩
      · exact further (suffix_entries other later)
    | decl | eswitch | case | default => exact further position
    | expr tree =>
      by_cases missing : tree = .nil
      · subst missing
        exact further position
      · exact plain (if_neg missing) rfl
    | _ => exact plain rfl rfl

theorem listed_tables (ready : Ready m sem table code) (left : Node) (nr : Nat) (rest : List (Stmt Node))
    (position : .OBSWITCH left nr :: rest <:+ listed table code) : Table rest := by
  rcases List.suffix_cons_iff.mp position with same | later
  · cases (List.cons.inj same).1
  · obtain ⟨table', code', ready', -, stands⟩ := lower_suffix ready rfl later
    cases stands with
    | @plain line before _ code stands plain same =>
      cases before with
      | OBSWITCH => cases plain
      | _ => cases same
    | switch np nr code =>
      obtain ⟨depth, nests⟩ := ready'.nests
      have inside := (Bool.and_eq_true_iff.mp nests).2
      rw [← Nat.zero_add depth] at inside
      obtain ⟨last, -, matched⟩ := lines_entries ready'.reads.2 inside
      exact matched.table _

theorem listed_ends {going : List Line} (open' : .efun ∉ going) (ready : Ready m sem table (going ++ [.efun]))
    (rest : List (Stmt Node)) (position : .OEFUN :: rest <:+ listed table (going ++ [.efun])) : rest = [] := by
  rcases List.suffix_cons_iff.mp position with same | later
  · cases (List.cons.inj same).1
  · obtain ⟨table', code', ready', before, stands⟩ := lower_suffix ready rfl later
    cases stands with
    | @plain line first _ code stands plain same =>
      have ending : line = .efun := by
        cases line with
        | efun => rfl
        | decl => cases stands
        | expr np =>
          by_cases missing : np = .nil
          · subst missing
            cases stands
          · obtain rfl := Option.some.inj ((if_neg missing).symm.trans stands)
            cases same
        | _ =>
          obtain rfl := Option.some.inj stands
          cases same
      subst ending
      obtain rfl := (List.cons.inj ((List.suffix_cons_iff.mp (suffix_of_notMem open' before)).resolve_right
        fun empty => List.cons_ne_nil _ _ (List.suffix_nil.mp empty))).2
      rfl

/-- The function that cc2 has built at the end of a body. -/
def built (body : Cc1.Stmt) (supply : Cc1.Supply body.named) (named : ∀ sym ∈ gotos body, sym ∈ body.named)
    (ready : Ready m sem table (functionLines supply.newlabel body)) : Cc2.Function Node where
  stmts := listed table (functionLines supply.newlabel body)
  closed := by
    intro np member sym aimed
    have among : np ∈ lower table (functionLines supply.newlabel body) := by
      refine (List.mem_cons.mp member).resolve_left fun head => ?_
      subst head
      cases aimed
    obtain ⟨sym', found, rfl⟩ := goals_lower table _ among aimed
    rw [function_lined] at found
    have defined := function_goals supply.newlabel body named sym' found
    rw [← function_lined] at defined
    have list := labels_lower table (functionLines supply.newlabel body)
    exact (list ▸ List.mem_map_of_mem defined :)
  unique := by
    have once := Cc1.function_unique body supply
    rw [← function_lined] at once
    have list := labels_lower table (functionLines supply.newlabel body)
    exact (list ▸ once.map fun _ _ same => Sym.named.inj same :)
  tables := listed_tables ready
  ends := by
    have ready' := ready
    rw [function_split] at ready' ⊢
    exact listed_ends (stmt_formed supply.newlabel body none none 0).going ready'

/-! Branches to what follows. -/

/-- Nothing but labels and marks stands before the label. -/
def fallsTo (sym : Nat) : List Cc1.Emit → Bool
  | .OLABEL sym' :: code => sym' = sym || fallsTo sym code
  | .OEXPR .nil :: code | .OCASE _ :: .OEXPR _ :: code => fallsTo sym code
  | .ODECL _ _ :: code | .OBLOOP :: code | .OELOOP :: code | .OESWITCH _ :: code | .ODEFAULT _ :: code => fallsTo sym code
  | _ => false

theorem falls_lower (table : Nat → CType) (sym : Nat) (code : List Line) :
    Qbe.falls (.named sym) (lower table code) = fallsTo sym (calls code) := by
  induction code generalizing table with
  | nil => rfl
  | cons line code ih =>
    cases line with
    | label sym' =>
      rw [lower_plain (show (Line.label sym').stmt table = some (.ONOP (.named sym')) from rfl) rfl]
      refine congrArg₂ or ?_ (ih table)
      exact decide_eq_decide.mpr ⟨Sym.named.inj, congrArg Sym.named⟩
    | bswitch np =>
      obtain ⟨nr, stands⟩ := lower_switch table code np
      rw [stands]
      rfl
    | eswitch | case | default | decl => exact ih _
    | expr np =>
      by_cases missing : np = .nil
      · subst missing
        exact ih table
      · have stands : (Line.expr np).stmt table = some (.expr (tree table np)) := if_neg missing
        rw [lower_plain stands rfl]
        cases np with
        | nil => exact absurd rfl missing
        | mk => rfl
    | bloop | eloop =>
      rw [lower_plain rfl rfl]
      exact ih table
    | jump | branch | ret | efun =>
      rw [lower_plain rfl rfl]
      rfl

theorem fallsTo_label {sym : Nat} {code : List Cc1.Emit} (falling : fallsTo sym code = true) :
    sym ∈ labels Cc1.Emit.labelOf code := by
  fun_induction fallsTo sym code with
  | case1 sym' code ih =>
    rw [labels_cons, List.mem_append]
    rcases Bool.or_eq_true_iff.mp falling with same | later
    · exact .inl (List.mem_singleton.mpr (of_decide_eq_true same).symm)
    · exact .inr (ih later)
  | case2 code ih | case4 _ _ code ih | case5 code ih | case6 code ih | case7 _ code ih | case8 _ code ih => exact ih falling
  | case3 _ _ code ih => exact ih falling
  | case9 => cases falling

/-- A statement for which nothing is emitted but labels. -/
def blank : Cc1.Stmt → Bool
  | .skip | .decl _ _ | .expr .nil => true
  | .seq first rest => blank first && blank rest
  | .label _ body | .case _ body | .default body => blank body
  | _ => false

theorem init_falls (sym : Nat) (init : List Cc1.Init) {rest : List Cc1.Emit} (stops : fallsTo sym rest = false) :
    fallsTo sym (init.map Cc1.Init.emits ++ rest) = false := by
  induction init with
  | nil => exact stops
  | cons first init ih =>
    cases first with
    | decl => exact ih
    | expr np =>
      cases np with
      | nil => exact ih
      | mk => rfl

/-- A branch over a statement falls to its label if nothing is emitted for the statement. -/
theorem stmt_falls (newlabel : Nat → Nat) (s : Cc1.Stmt) (lbreak lcont : Option Nat) (n sym : Nat) (rest : List Cc1.Emit)
    (placed : s.placed lbreak.isSome lcont.isSome = true)
    (apart : sym ∉ labels Cc1.Emit.labelOf (Cc1.stmt newlabel lbreak lcont n s).1) :
    fallsTo sym ((Cc1.stmt newlabel lbreak lcont n s).1 ++ rest) = (blank s && fallsTo sym rest) := by
  induction s generalizing lbreak lcont n rest with
  | skip | decl => rfl
  | expr np =>
    cases np with
    | nil | mk => rfl
  | seq first more ih₁ ih₂ =>
    obtain ⟨one, two⟩ := Bool.and_eq_true_iff.mp placed
    simp only [Cc1.stmt, labels_append, List.mem_append, not_or] at apart
    rw [Cc1.stmt, List.append_assoc, ih₁ _ _ _ _ one apart.1, ih₂ _ _ _ _ two apart.2, blank, Bool.and_assoc]
  | label sym' body ih =>
    simp only [Cc1.stmt, labels_cons, Cc1.Emit.labelOf, Option.toList_some, List.singleton_append, List.mem_cons, not_or] at apart
    have other : (decide (sym' = sym)) = false := decide_eq_false (Ne.symm apart.1)
    rw [Cc1.stmt, List.cons_append, fallsTo, ih _ _ _ _ placed apart.2, other, Bool.false_or, blank]
  | dowhile body cond ih =>
    simp only [Cc1.stmt, Cc1.labels_Dowhile, List.mem_cons, List.mem_append, not_or] at apart
    have other : decide (newlabel n = sym) = false := decide_eq_false (Ne.symm apart.1)
    have inner := ih (some (newlabel (n + 2))) (some (newlabel (n + 1))) (n + 3)
      ([.OLABEL (newlabel (n + 1)), .OBRANCH (newlabel n), .OEXPR (cond.tree false), .OELOOP, .OLABEL (newlabel (n + 2))] ++ rest)
      placed apart.2.1
    simp only [Cc1.stmt, Cc1.Dowhile, List.cons_append, List.append_assoc, fallsTo, other, Bool.false_or] at inner ⊢
    have stops : decide (newlabel (n + 1) = sym) = false := decide_eq_false (Ne.symm apart.2.2.1)
    rw [inner, stops]
    exact Bool.and_false _
  | «for» init econd einc body =>
    exact (congrArg (fallsTo sym) (List.append_assoc _ _ _)).trans (init_falls sym init rfl)
  | goto | «while» | «if» | ifelse | «return» | switch => rfl
  | «break» =>
    cases lbreak with
    | none => cases placed
    | some sym' => rfl
  | «continue» =>
    cases lcont with
    | none => cases placed
    | some sym' => rfl
  | case np body ih =>
    simp only [Cc1.stmt, labels_cons, Cc1.Emit.labelOf, Option.toList_some, Option.toList_none, List.nil_append,
      List.singleton_append, List.mem_cons, not_or] at apart
    have other : decide (newlabel n = sym) = false := decide_eq_false (Ne.symm apart.1)
    simp only [Cc1.stmt, List.cons_append, fallsTo, other, Bool.false_or]
    rw [ih _ _ _ _ placed apart.2, blank]
  | default body ih =>
    simp only [Cc1.stmt, labels_cons, Cc1.Emit.labelOf, Option.toList_some, Option.toList_none, List.nil_append,
      List.singleton_append, List.mem_cons, not_or] at apart
    have other : decide (newlabel n = sym) = false := decide_eq_false (Ne.symm apart.1)
    simp only [Cc1.stmt, List.cons_append, fallsTo, other, Bool.false_or]
    rw [ih _ _ _ _ placed apart.2, blank]

/-! Conditions without side effects. -/

/-- The evaluation has no side effects. -/
def Quiet (m : Cc1.Meaning W V Ev) (np : Cc1.Node) : Prop := ∀ w, (m.truth np w).1 = [] ∧ (m.truth np w).2.1 = w

/-- The conditions of the branches that fall to their labels have no side effects. -/
def Calm (m : Cc1.Meaning W V Ev) : List Cc1.Emit → Prop
  | [] => True
  | .OBRANCH sym :: .OEXPR np :: code => (fallsTo sym code = true → Quiet m np) ∧ Calm m code
  | _ :: code => Calm m code

/-- The conditions of the `if` statements over nothing have no side effects. -/
def Guarded (m : Cc1.Meaning W V Ev) : Cc1.Stmt → Prop
  | .seq first rest => Guarded m first ∧ Guarded m rest
  | .label _ body | .while _ body | .dowhile body _ | .for _ _ _ body | .switch _ body | .case _ body | .default body =>
    Guarded m body
  | .if cond body =>
    (blank body = true → ∀ w, (m.holdsCond cond w).1 = [] ∧ (m.holdsCond cond w).2.1 = w) ∧ Guarded m body
  | .ifelse _ body other => Guarded m body ∧ Guarded m other
  | _ => True

theorem quiet_negated {cond : Cc1.Cond} (quiet : ∀ w, (m.holdsCond cond w).1 = [] ∧ (m.holdsCond cond w).2.1 = w) :
    Quiet m (cond.tree true) := by
  intro w
  have opposite : m.truth (cond.tree true) w = _ := Cc1.cond_negated m cond w
  rw [opposite]
  exact quiet w

/-- A branch back to the start of a loop does not fall to it. -/
theorem never_falls {sym : Nat} {body code : List Cc1.Emit}
    (unique : (labels Cc1.Emit.labelOf (.OLABEL sym :: (body ++ code))).Nodup) : fallsTo sym code ≠ true := by
  intro falling
  rw [labels_cons, labels_append, Cc1.Emit.labelOf, Option.toList_some, List.singleton_append] at unique
  exact (List.nodup_cons.mp unique).1 (List.mem_append_right _ (fallsTo_label falling))

theorem label_apart {sym : Nat} {body code : List Cc1.Emit} (more : List Cc1.Emit)
    (unique : (labels Cc1.Emit.labelOf (body ++ (more ++ .OLABEL sym :: code))).Nodup) :
    sym ∉ labels Cc1.Emit.labelOf body := by
  intro earlier
  rw [labels_append, labels_append, labels_cons, Cc1.Emit.labelOf, Option.toList_some, List.singleton_append] at unique
  exact List.disjoint_of_nodup_append unique earlier (List.mem_append_right _ List.mem_cons_self)

theorem nodup_later (first : List Cc1.Emit) {code : List Cc1.Emit} (unique : (labels Cc1.Emit.labelOf (first ++ code)).Nodup) :
    (labels Cc1.Emit.labelOf code).Nodup := by
  rw [labels_append] at unique
  exact unique.of_append_right

theorem loopEnd_calm {begin lcont lbreak : Nat} {np : Cc1.Node} {body rest : List Cc1.Emit}
    (unique : (labels Cc1.Emit.labelOf (.OLABEL begin :: (body ++ Cc1.loopEnd begin lcont lbreak np rest))).Nodup)
    (calm : Calm m rest) : Calm m (Cc1.loopEnd begin lcont lbreak np rest) := by
  have apart := List.append_assoc body [.OLABEL lcont, .OBRANCH begin, .OEXPR np] (.OELOOP :: .OLABEL lbreak :: rest)
  have unique : (labels Cc1.Emit.labelOf (.OLABEL begin :: (body ++ ([.OLABEL lcont, .OBRANCH begin, .OEXPR np] ++
    .OELOOP :: .OLABEL lbreak :: rest)))).Nodup := unique
  rw [← apart] at unique
  exact ⟨fun falling => absurd falling (never_falls unique), calm⟩

theorem forEnd_calm {begin lcont cond lbreak : Nat} {econd einc : Option Cc1.Node} {body rest : List Cc1.Emit}
    (unique : (labels Cc1.Emit.labelOf (.OLABEL begin :: (body ++ Cc1.forEnd begin lcont cond lbreak econd einc rest))).Nodup)
    (calm : Calm m rest) : Calm m (Cc1.forEnd begin lcont cond lbreak econd einc rest) := by
  cases econd with
  | none => exact calm
  | some np =>
    have apart := List.append_assoc body [.OLABEL lcont, .OEXPR (einc.getD .nil), .OLABEL cond, .OBRANCH begin, .OEXPR np]
      (.OELOOP :: .OLABEL lbreak :: rest)
    have unique : (labels Cc1.Emit.labelOf (.OLABEL begin :: (body ++ ([.OLABEL lcont, .OEXPR (einc.getD .nil), .OLABEL cond,
      .OBRANCH begin, .OEXPR np] ++ .OELOOP :: .OLABEL lbreak :: rest)))).Nodup := unique
    rw [← apart] at unique
    exact ⟨fun falling => absurd falling (never_falls unique), calm⟩

theorem init_calm (init : List Cc1.Init) {rest : List Cc1.Emit} (calm : Calm m rest) :
    Calm m (init.map Cc1.Init.emits ++ rest) := by
  induction init with
  | nil => exact calm
  | cons first init ih =>
    cases first with
    | decl | expr => exact ih

theorem stmt_calm (newlabel : Nat → Nat) (s : Cc1.Stmt) (lbreak lcont : Option Nat) (n : Nat) {rest : List Cc1.Emit}
    (placed : s.placed lbreak.isSome lcont.isSome = true) (guarded : Guarded m s)
    (unique : (labels Cc1.Emit.labelOf ((Cc1.stmt newlabel lbreak lcont n s).1 ++ rest)).Nodup) (later : Calm m rest) :
    Calm m ((Cc1.stmt newlabel lbreak lcont n s).1 ++ rest) := by
  induction s generalizing lbreak lcont n rest with
  | skip | decl | expr | goto | «return» => exact later
  | seq first more ih₁ ih₂ =>
    obtain ⟨one, two⟩ := Bool.and_eq_true_iff.mp placed
    rw [Cc1.stmt, List.append_assoc] at unique ⊢
    exact ih₁ _ _ _ one guarded.1 unique (ih₂ _ _ _ two guarded.2 (nodup_later _ unique) later)
  | label sym body ih => exact ih _ _ _ placed guarded (nodup_later [.OLABEL sym] unique) later
  | «break» =>
    cases lbreak with
    | none | some sym => exact later
  | «continue» =>
    cases lcont with
    | none | some sym => exact later
  | case np body ih =>
    exact ih _ _ _ placed guarded (nodup_later [.OCASE (newlabel n), .OEXPR np, .OLABEL (newlabel n)] unique) later
  | default body ih =>
    exact ih _ _ _ placed guarded (nodup_later [.ODEFAULT (newlabel n), .OLABEL (newlabel n)] unique) later
  | «while» cond body ih =>
    have code : (Cc1.stmt newlabel lbreak lcont n (.while cond body)).1 ++ rest =
        [.OJUMP (newlabel (n + 1)), .OBLOOP] ++ .OLABEL (newlabel n) ::
          ((Cc1.stmt newlabel (some (newlabel (n + 2))) (some (newlabel (n + 1))) (n + 3) body).1 ++
            Cc1.loopEnd (newlabel n) (newlabel (n + 1)) (newlabel (n + 2)) (cond.tree false) rest) := by
      simp [Cc1.stmt, Cc1.While, Cc1.loopEnd]
    rw [code] at unique ⊢
    have inside := nodup_later _ unique
    exact ih _ _ _ placed guarded (nodup_later [_] inside) (loopEnd_calm inside later)
  | dowhile body cond ih =>
    have code : (Cc1.stmt newlabel lbreak lcont n (.dowhile body cond)).1 ++ rest =
        [.OBLOOP] ++ .OLABEL (newlabel n) ::
          ((Cc1.stmt newlabel (some (newlabel (n + 2))) (some (newlabel (n + 1))) (n + 3) body).1 ++
            Cc1.loopEnd (newlabel n) (newlabel (n + 1)) (newlabel (n + 2)) (cond.tree false) rest) := by
      simp [Cc1.stmt, Cc1.Dowhile, Cc1.loopEnd]
    rw [code] at unique ⊢
    have inside := nodup_later _ unique
    exact ih _ _ _ placed guarded (nodup_later [_] inside) (loopEnd_calm inside later)
  | «for» init econd einc body ih =>
    have code : (Cc1.stmt newlabel lbreak lcont n (.for init econd einc body)).1 ++ rest =
        init.map Cc1.Init.emits ++ ([.OJUMP (newlabel (n + 2)), .OBLOOP] ++ .OLABEL (newlabel n) ::
          ((Cc1.stmt newlabel (some (newlabel (n + 3))) (some (newlabel (n + 1))) (n + 4) body).1 ++
            Cc1.forEnd (newlabel n) (newlabel (n + 1)) (newlabel (n + 2)) (newlabel (n + 3))
              (econd.map fun c => c.tree false) einc rest)) := by
      simp [Cc1.stmt, Cc1.For, Cc1.forEnd]
    rw [code] at unique ⊢
    have inside := nodup_later _ (nodup_later _ unique)
    exact init_calm init (ih _ _ _ placed guarded (nodup_later [_] inside) (forEnd_calm inside later))
  | «if» cond body ih =>
    have code : (Cc1.stmt newlabel lbreak lcont n (.if cond body)).1 ++ rest =
        [.OBRANCH (newlabel n), .OEXPR (cond.tree true)] ++
          ((Cc1.stmt newlabel lbreak lcont (n + 1) body).1 ++ .OLABEL (newlabel n) :: rest) := by
      simp [Cc1.stmt]
    rw [code] at unique ⊢
    have inside := nodup_later _ unique
    refine ⟨fun falling => quiet_negated (guarded.1 ?_), ih _ _ _ placed guarded.2 inside later⟩
    have falling : fallsTo (newlabel n) ((Cc1.stmt newlabel lbreak lcont (n + 1) body).1 ++ .OLABEL (newlabel n) :: rest) =
      true := falling
    rw [stmt_falls newlabel body _ _ _ _ _ placed (label_apart [] inside)] at falling
    exact (Bool.and_eq_true_iff.mp falling).1
  | ifelse cond body other ih₁ ih₂ =>
    obtain ⟨one, two⟩ := Bool.and_eq_true_iff.mp placed
    have code : (Cc1.stmt newlabel lbreak lcont n (.ifelse cond body other)).1 ++ rest =
        [.OBRANCH (newlabel n), .OEXPR (cond.tree true)] ++ ((Cc1.stmt newlabel lbreak lcont (n + 1) body).1 ++
          (.OJUMP (newlabel (Cc1.stmt newlabel lbreak lcont (n + 1) body).2) :: .OLABEL (newlabel n) ::
            ((Cc1.stmt newlabel lbreak lcont ((Cc1.stmt newlabel lbreak lcont (n + 1) body).2 + 1) other).1 ++
              .OLABEL (newlabel (Cc1.stmt newlabel lbreak lcont (n + 1) body).2) :: rest))) := by
      simp [Cc1.stmt]
    rw [code] at unique ⊢
    have inside := nodup_later _ unique
    have second := nodup_later [_, _] (nodup_later _ inside)
    refine ⟨fun falling => ?_, ih₁ _ _ _ one guarded.1 inside (ih₂ _ _ _ two guarded.2 second later)⟩
    have falling := (stmt_falls newlabel body _ _ _ _ _ one (label_apart [_] inside)).symm.trans falling
    exact absurd (Bool.and_eq_true_iff.mp falling).2 Bool.false_ne_true
  | switch cond body ih =>
    have code : (Cc1.stmt newlabel lbreak lcont n (.switch cond body)).1 ++ rest =
        [.OBSWITCH, .OEXPR (Cc1.switchCond cond)] ++ ((Cc1.stmt newlabel (some (newlabel n)) lcont (n + 1) body).1 ++
          ([.OESWITCH (newlabel n), .OLABEL (newlabel n)] ++ rest)) := by
      simp [Cc1.stmt]
    rw [code] at unique ⊢
    exact ih _ _ _ placed guarded (nodup_later _ unique) later

theorem Calm.suffix {first rest : List Line} (calm : Calm m (calls (first ++ rest))) : Calm m (calls rest) := by
  induction first with
  | nil => exact calm
  | cons line first ih =>
    cases line with
    | branch => exact ih calm.2
    | _ => exact ih calm

/-! Conditions that the jump optimisation drops. -/

/-- What is ahead is the end of the list. -/
def Within (list : List (Stmt Node)) : Config Node W V → Prop
  | .at ahead _ | .table _ _ ahead _ => ahead <:+ list
  | _ => True

theorem goto_within (list : List (Stmt Node)) (sym : Sym) (w : W) : Within list (goto (V := V) list sym w) := by
  rw [goto]
  cases found : seek Stmt.labelOf sym list with
  | none => exact trivial
  | some ahead => exact seek_suffix found

theorem step_within {list : List (Stmt Node)} {c c' : Config Node W V} {es : List Ev} (within : Within list c)
    (head : step sem list c = .more es c') : Within list c' := by
  have tail {np : Stmt Node} {ahead : List (Stmt Node)} (within : np :: ahead <:+ list) : ahead <:+ list :=
    (List.suffix_cons np ahead).trans within
  cases c with
  | «at» ahead w =>
    cases ahead with
    | nil => cases head
    | cons np ahead =>
      cases np with
      | OJMP sym =>
        obtain ⟨rfl, rfl⟩ := Next.more.inj head
        exact goto_within list sym w
      | OBRANCH sym left =>
        obtain ⟨rfl, rfl⟩ := Next.more.inj head
        split
        · exact goto_within list sym _
        · exact tail within
      | ORET left =>
        cases left with
        | none | some left =>
          obtain ⟨rfl, rfl⟩ := Next.more.inj head
          exact trivial
      | OCASE | ODEFAULT | OESWITCH =>
        obtain ⟨rfl, rfl⟩ := Next.more.inj head
        exact trivial
      | _ =>
        obtain ⟨rfl, rfl⟩ := Next.more.inj head
        exact tail within
  | table value deflabel ahead w =>
    cases ahead with
    | nil =>
      obtain ⟨rfl, rfl⟩ := Next.more.inj head
      exact trivial
    | cons np ahead =>
      cases np with
      | OCASE sym left =>
        obtain ⟨rfl, rfl⟩ := Next.more.inj head
        split
        · exact goto_within list sym _
        · exact tail within
      | ODEFAULT sym =>
        obtain ⟨rfl, rfl⟩ := Next.more.inj head
        exact tail within
      | OESWITCH sym =>
        obtain ⟨rfl, rfl⟩ := Next.more.inj head
        exact goto_within list _ w
      | _ =>
        obtain ⟨rfl, rfl⟩ := Next.more.inj head
        exact trivial
  | returned | stuck => cases head

theorem listed_harmless (ready : Ready m sem table code) (calm : Calm m (calls code)) (w : W) :
    Qbe.Harmless sem (listed table code) (.at (listed table code) w) := by
  intro n es sym left rest w' run falling
  have position : Within (listed table code) (.at (.OBRANCH sym left :: rest) w') :=
    run.invariant (P := Within (listed table code)) (fun _ _ _ within head => step_within within head) (List.suffix_refl _)
  rcases List.suffix_cons_iff.mp position with same | later
  · cases (List.cons.inj same).1
  · obtain ⟨table', code', ready', ⟨before, rfl⟩, stands⟩ := lower_suffix ready rfl later
    cases stands with
    | @plain line first _ code' stands plain same =>
      cases line with
      | branch sym' np =>
        obtain rfl := Option.some.inj stands
        obtain ⟨rfl, rfl⟩ := Stmt.OBRANCH.inj same
        rw [falls_lower] at falling
        have quiet := calm.suffix.1 falling w'
        have agrees : m.truth np w' = _ := ready'.reads.1 w'
        rw [agrees] at quiet
        exact quiet
      | decl => cases stands
      | expr np =>
        by_cases missing : np = .nil
        · subst missing
          cases stands
        · obtain rfl := Option.some.inj ((if_neg missing).symm.trans stands)
          cases same
      | _ =>
        obtain rfl := Option.some.inj stands
        cases same

theorem gotos_nil {s : Cc1.Stmt} (gotoFree : s.gotoFree = true) : gotos s = [] := by
  induction s with
  | seq _ _ ih₁ ih₂ | ifelse _ _ _ ih₁ ih₂ =>
    obtain ⟨one, two⟩ := Bool.and_eq_true_iff.mp gotoFree
    exact List.append_eq_nil_iff.mpr ⟨ih₁ one, ih₂ two⟩
  | goto => cases gotoFree
  | label _ _ ih | «while» _ _ ih | dowhile _ _ ih | «for» _ _ _ _ ih | «if» _ _ ih | switch _ _ ih | case _ _ ih
  | default _ ih => exact ih gotoFree
  | _ => rfl

/-- The jump optimisation of the list of a function. -/
theorem optimized_same_behavior (equal : ∀ a b, m.equal a b = sem.equal a b) {body : Cc1.Stmt}
    (supply : Cc1.Supply body.named) (named : ∀ sym ∈ gotos body, sym ∈ body.named)
    (placed : body.placed false false = true) (guarded : Guarded m body)
    (ready : Ready m sem table (functionLines supply.newlabel body)) {nodes : List (Qbe.Entry Node)}
    (list : nodes.map Qbe.Entry.stmt = listed table (functionLines supply.newlabel body)) (num : Nat) (w : W) :
    SameBehavior (Cc1.flat m (Cc1.function supply.newlabel body)) (.at (Cc1.function supply.newlabel body) w)
      (observed sem ((Qbe.optm num nodes).map Qbe.Entry.stmt)) (.at ((Qbe.optm num nodes).map Qbe.Entry.stmt) w) := by
  have calm : Calm m (calls (functionLines supply.newlabel body)) := by
    rw [function_lined]
    exact stmt_calm supply.newlabel body none none 0 placed guarded (Cc1.function_unique body supply) trivial
  have result : (Qbe.optm num nodes).map Qbe.Entry.stmt =
      Qbe.optimized none (built body supply named ready).stmts := by
    rw [Qbe.optm, Qbe.apply_stmts, list, Option.map_none]
    rfl
  have dropped := (Qbe.optm_simulation (f := built body supply named ready) sem).same_behavior
    ⟨listed_harmless ready calm w, .code (List.suffix_refl _) (.same none _)⟩
  have lines := lines_same_behavior equal ready w
  rw [function_lined] at lines
  rw [result]
  exact lines.trans (dropped.map outcome)

end

/-- `newlabel` counts. -/
def counted : Cc1.Supply switchSeven.named :=
  ⟨fun n => n + 1, fun _ _ same => Nat.succ.inj same, fun _ => List.not_mem_nil, List.nodup_nil⟩

end Scc.Ir
