import Scc.Ir.Lines

set_option linter.all false

/-! cc2 rebuilds the statements of a function from the lines that cc1 prints for it. -/
namespace Scc.Ir
open Text Cc2

section
attribute [local simp] Ir.group statements exchanged Line.stmt Line.declares Cc2.nested arrange entries Line.calls
end

/-- `case` and `default` stand in switches, of which cc2 has at most `NR_BLOCK` open. -/
def switched (depth : Nat) : Cc1.Stmt → Bool
  | .seq first rest => switched depth first && switched depth rest
  | .label _ body | .while _ body | .dowhile body _ | .for _ _ _ body | .if _ body =>
    switched depth body
  | .ifelse _ body other => switched depth body && switched depth other
  | .switch _ body => depth < NR_BLOCK && switched (depth + 1) body
  | .case _ body | .default body => 0 < depth && switched depth body
  | _ => true

/-- A sequence of calls of `emit` that ends with its line, and the switches in it. -/
structure Formed (switched : Nat → Bool) (code : List Cc1.Emit) : Prop where
  group : ∀ rest, group (code ++ rest) = group code ++ group rest
  text : code.flatMap Cc1.emit = (Ir.group code).flatMap fun line => line.text ++ ['\n']
  going : .efun ∉ Ir.group code
  nested : ∀ table depth rest, ∃ table', nested depth (statements table (Ir.group code ++ rest)) =
    (switched depth && nested depth (statements table' rest))

/-- A line that neither opens or closes a switch nor labels one. -/
def Line.plain : Line → Bool
  | .bswitch _ | .eswitch _ | .case _ _ | .default _ | .efun => false
  | _ => true

theorem nested_line {line : Line} (plain : line.plain = true) (table : Nat → CType) (depth : Nat)
    (rest : List Line) : nested depth (statements table (line :: rest)) =
      nested depth (statements (line.declares table) rest) := by
  have each : ∀ np ∈ line.stmt table, np.plain = true := by
    cases line with
    | bswitch | eswitch | case | default | efun => cases plain
    | _ => simp [Line.stmt, Stmt.plain, Stmt.entry]
  cases stands : line.stmt table with
  | none => simp [statements, stands]
  | some np =>
    simp only [statements, stands, Option.toList_some, List.singleton_append]
    exact nested_plain (each np stands) _ _

section
variable {inner outer : Nat → Bool} {code more : List Cc1.Emit}

theorem Formed.nil : Formed (fun _ => true) [] where
  group _ := rfl
  text := rfl
  going := List.not_mem_nil
  nested table depth rest := ⟨table, by simp [Ir.group]⟩

theorem Formed.append (one : Formed inner code) (two : Formed outer more) :
    Formed (fun depth => inner depth && outer depth) (code ++ more) where
  group rest := by rw [List.append_assoc, one.group, two.group, one.group, List.append_assoc]
  text := by rw [List.flatMap_append, one.group, List.flatMap_append, one.text, two.text]
  going := by
    rw [one.group, List.mem_append, not_or]
    exact ⟨one.going, two.going⟩
  nested table depth rest := by
    obtain ⟨table', first⟩ := one.nested table depth (Ir.group more ++ rest)
    obtain ⟨table'', second⟩ := two.nested table' depth rest
    exact ⟨table'', by rw [one.group, List.append_assoc, first, second, Bool.and_assoc]⟩

/-- The calls for one line in front of others. -/
theorem Formed.line (line : Line) (plain : line.plain = true)
    (grouped : ∀ rest, Ir.group (line.calls ++ rest) = line :: Ir.group rest)
    (formed : Formed inner code) : Formed inner (line.calls ++ code) where
  group rest := by rw [List.append_assoc, grouped, grouped, formed.group, List.cons_append]
  text := by rw [List.flatMap_append, grouped, List.flatMap_cons, line.printed, formed.text]
  going := by
    rw [grouped, List.mem_cons, not_or]
    exact ⟨fun same => by simp [← same, Line.plain] at plain, formed.going⟩
  nested table depth rest := by
    obtain ⟨table', later⟩ := formed.nested (line.declares table) depth rest
    exact ⟨table', by rw [grouped, List.cons_append, nested_line plain, later]⟩

theorem Formed.congr (formed : Formed inner code) (same : ∀ depth, inner depth = outer depth) :
    Formed outer code := by
  rwa [← funext same]

/-- A whole switch: its head, its body and its end. -/
theorem Formed.switch (np : Cc1.Node) (sym : Nat) (body : Formed inner code)
    (after : Formed outer more) :
    Formed (fun depth => (depth < NR_BLOCK && inner (depth + 1)) && outer depth)
      (.OBSWITCH :: .OEXPR np :: (code ++ .OESWITCH sym :: more)) where
  group rest := by simp [Ir.group, body.group, after.group]
  text := by
    have head := (Line.bswitch np).printed
    have ending := (Line.eswitch sym).printed
    simp only [Line.calls, List.flatMap_cons, List.flatMap_nil, List.append_nil] at head ending
    simp only [Ir.group, body.group, List.flatMap_cons, List.flatMap_append, ending, body.text, after.text]
    rw [← List.append_assoc, head]
  going := by
    simp [Ir.group, body.group, body.going, after.going]
  nested table depth rest := by
    obtain ⟨table', first⟩ :=
      body.nested table (depth + 1) (.eswitch sym :: (Ir.group more ++ rest))
    obtain ⟨table'', second⟩ := after.nested table' depth rest
    refine ⟨table'', ?_⟩
    have lines : Ir.group (.OBSWITCH :: .OEXPR np :: (code ++ .OESWITCH sym :: more)) ++ rest =
        .bswitch np :: (Ir.group code ++ .eswitch sym :: (Ir.group more ++ rest)) := by
      simp [Ir.group, body.group]
    rw [lines]
    simp only [statements, Line.stmt, Line.declares, Option.toList_some, List.singleton_append,
      Cc2.nested] at first ⊢
    rw [first, second, Bool.and_assoc, Bool.and_assoc]

/-- A label of the switch around it. -/
theorem Formed.case (sym : Nat) (np : Cc1.Node) (after : Formed outer more) :
    Formed (fun depth => 0 < depth && outer depth) (.OCASE sym :: .OEXPR np :: more) where
  group rest := by simp [Ir.group, after.group]
  text := by
    change ((Line.case sym np).calls ++ more).flatMap Cc1.emit = _
    rw [List.flatMap_append, Line.printed, after.text, Ir.group, List.flatMap_cons]
  going := by simp [Ir.group, after.going]
  nested table depth rest := by
    obtain ⟨table', later⟩ := after.nested table depth rest
    refine ⟨table', ?_⟩
    simp only [Ir.group, List.cons_append, statements, Line.stmt, Line.declares, Option.toList_some,
      List.nil_append, Cc2.nested, later, Bool.and_assoc]

theorem Formed.default (sym : Nat) (after : Formed outer more) :
    Formed (fun depth => 0 < depth && outer depth) (.ODEFAULT sym :: more) where
  group rest := by simp [Ir.group, after.group]
  text := by
    change ((Line.default sym).calls ++ more).flatMap Cc1.emit = _
    rw [List.flatMap_append, Line.printed, after.text, Ir.group, List.flatMap_cons]
  going := by simp [Ir.group, after.going]
  nested table depth rest := by
    obtain ⟨table', later⟩ := after.nested table depth rest
    refine ⟨table', ?_⟩
    simp only [Ir.group, List.cons_append, statements, Line.stmt, Line.declares, Option.toList_some,
      List.nil_append, Cc2.nested, later, Bool.and_assoc]

theorem Formed.label (sym : Nat) (formed : Formed inner code) : Formed inner (.OLABEL sym :: code) :=
  .line (.label sym) rfl (fun _ => rfl) formed

theorem Formed.jump (sym : Nat) (formed : Formed inner code) : Formed inner (.OJUMP sym :: code) :=
  .line (.jump sym) rfl (fun _ => rfl) formed

theorem Formed.expr (np : Cc1.Node) (formed : Formed inner code) :
    Formed inner (.OEXPR np :: code) :=
  .line (.expr np) rfl (fun _ => rfl) formed

theorem Formed.decl (sym : Cc1.Symbol) (type : Cc1.CType) (formed : Formed inner code) :
    Formed inner (.ODECL sym type :: code) :=
  .line (.decl sym type) rfl (fun _ => rfl) formed

theorem Formed.branch (sym : Nat) (np : Cc1.Node) (formed : Formed inner code) :
    Formed inner (.OBRANCH sym :: .OEXPR np :: code) :=
  .line (.branch sym np) rfl (fun _ => rfl) formed

theorem Formed.ret (np : Cc1.Node) (formed : Formed inner code) :
    Formed inner (.ORET :: .OEXPR np :: code) :=
  .line (.ret np) rfl (fun _ => rfl) formed

theorem Formed.bloop (formed : Formed inner code) : Formed inner (.OBLOOP :: code) :=
  .line .bloop rfl (fun _ => rfl) formed

theorem Formed.eloop (formed : Formed inner code) : Formed inner (.OELOOP :: code) :=
  .line .eloop rfl (fun _ => rfl) formed

/-- Lines without switches after others. -/
theorem Formed.followed (formed : Formed inner code) (plain : Formed (fun _ => true) more) :
    Formed inner (code ++ more) :=
  (formed.append plain).congr fun _ => Bool.and_true _

/-- Lines without switches before others. -/
theorem Formed.preceded (plain : Formed (fun _ => true) code) (formed : Formed outer more) :
    Formed outer (code ++ more) :=
  (plain.append formed).congr fun _ => Bool.true_and _

end

theorem init_formed (init : List Cc1.Init) : Formed (fun _ => true) (init.map Cc1.Init.emits) := by
  induction init with
  | nil => exact .nil
  | cons first rest ih =>
    cases first with
    | decl sym type => exact .decl sym type ih
    | expr np => exact .expr np ih

theorem stmt_formed (newlabel : Nat → Nat) (s : Cc1.Stmt) (lbreak lcont : Option Nat) (n : Nat) :
    Formed (fun depth => switched depth s) (Cc1.stmt newlabel lbreak lcont n s).1 := by
  induction s generalizing lbreak lcont n with
  | skip => exact .nil
  | seq first rest ih₁ ih₂ => exact (ih₁ ..).append (ih₂ ..)
  | decl sym type => exact .decl sym type .nil
  | expr np => exact .expr np .nil
  | label sym body ih => exact .label sym (ih ..)
  | goto sym => exact .jump sym .nil
  | «while» cond body ih =>
    exact .jump _ (.bloop (.label _ ((ih ..).followed
      (.label _ (.branch _ _ (.eloop (.label _ .nil)))))))
  | dowhile body cond ih =>
    exact .bloop (.label _ ((ih ..).followed (.label _ (.branch _ _ (.eloop (.label _ .nil))))))
  | «for» init econd einc body ih =>
    refine (init_formed init).preceded (.jump _ (.bloop (.label _ ((ih ..).followed ?_))))
    refine .label _ (.expr _ (.label _ ?_))
    cases econd with
    | none => exact .jump _ (.expr _ (.eloop (.label _ .nil)))
    | some econd => exact .branch _ _ (.eloop (.label _ .nil))
  | «if» cond body ih => exact .branch _ _ ((ih ..).followed (.label _ .nil))
  | ifelse cond body other ih₁ ih₂ =>
    exact .branch _ _ ((ih₁ ..).append (.jump _ (.label _ ((ih₂ ..).followed (.label _ .nil)))))
  | «break» =>
    cases lbreak with
    | none => exact .nil
    | some sym => exact .jump sym .nil
  | «continue» =>
    cases lcont with
    | none => exact .nil
    | some sym => exact .jump sym .nil
  | «return» np => exact .ret _ .nil
  | switch cond body ih =>
    have formed := Formed.switch (Cc1.switchCond cond) (newlabel n)
      (ih (some (newlabel n)) lcont (n + 1)) (.label (newlabel n) .nil)
    exact formed.congr fun depth => Bool.and_true _
  | case np body ih => exact .case _ np (.label _ (ih ..))
  | default body ih => exact .default _ (.label _ (ih ..))

/-! Reading the lines. -/

theorem nested_exchanged (depth : Nat) (code : List (Stmt Node)) :
    nested depth (code.map exchanged) = nested depth code := by
  induction code generalizing depth with
  | nil => rfl
  | cons np code ih =>
    cases np with
    | OESWITCH sym =>
      cases depth with
      | zero => rfl
      | succ depth => exact ih depth
    | _ => simp [exchanged, nested, ih]

theorem entries_exchanged (depth : Nat) (code : List (Stmt Node)) :
    entries depth (code.map exchanged) = entries depth code := by
  induction code generalizing depth with
  | nil => rfl
  | cons np code ih => cases np <;> cases depth <;> simp [exchanged, entries, ih]

theorem exchanged_entries (depth : Nat) (code : List (Stmt Node)) :
    (entries depth code).map exchanged = entries depth code := by
  have all := entries_are_entries depth code
  refine (List.map_congr_left fun np member => ?_).trans (List.map_id _)
  have entry := all np member
  cases np <;> first | rfl | cases entry

theorem arrange_exchanged (code : List (Stmt Node)) :
    arrange (code.map exchanged) = (arrange code).map exchanged := by
  induction code with
  | nil => rfl
  | cons np code ih =>
    cases np with
    | OBSWITCH left nr =>
      simp [exchanged, arrange, ih, entries_exchanged, exchanged_entries]
    | _ => simp [exchanged, arrange, Stmt.entry, ih]

theorem Line.declares_stmt {line : Line} {table : Nat → CType} {np : Stmt Node}
    (stands : line.stmt table = some np) : line.declares table = table := by
  cases line <;> first | rfl | cases stands

theorem Line.stmt_going {line : Line} {table : Nat → CType} {np : Stmt Node}
    (stands : line.stmt table = some np) (other : line ≠ .efun) :
    (exchanged np).ends = false := by
  cases line with
  | efun => exact absurd rfl other
  | decl => cases stands
  | expr np =>
    by_cases missing : np = .nil
    · simp [Line.stmt, missing] at stands
    · obtain rfl := Option.some.inj ((if_neg missing).symm.trans stands)
      rfl
  | _ => cases stands; rfl

theorem lines_run {base : Nodes} {frames : List Frame} (code : List Line) (s : State)
    (repr : Represents base frames s) (readable : Readable s.table (code ++ [.efun]))
    (nest : nested frames.length ((statements s.table (code ++ [.efun])).map exchanged) = true)
    (going : .efun ∉ code) (empty : s.stack = []) (calm : s.ininit = false)
    (endf : s.endf = false) :
    ∃ s', lines ((code ++ [Line.efun]).map Line.text) s = .ok s' ∧ s'.stack = [] ∧
      s'.endf = true ∧ stmtsOf s'.stmts =
        whole base frames ((statements s.table (code ++ [.efun])).map exchanged) := by
  induction code generalizing base frames s with
  | nil =>
    obtain ⟨fits, short, -⟩ := readable
    obtain ⟨base', frames', s', joined, after, repr', nest', list⟩ := join_step repr nest
    have read := nextline_stmt fits short empty calm rfl joined after.stack
    obtain rfl : frames' = [] := List.eq_nil_of_length_eq_zero (of_decide_eq_true nest')
    refine ⟨s', ?_, after.stack.trans empty, by simp [after.endf, Stmt.ends, exchanged], ?_⟩
    · simp [lines, endf, read]
    · have final : stmtsOf s'.stmts = whole base' [] [] := by
        simp [repr'.listed.stmts, nodes, whole, Cc2.close, arrange]
      exact final.trans list
  | cons line code ih =>
    obtain ⟨fits, short, later⟩ := readable
    have other : line ≠ .efun := fun same => going (same ▸ List.mem_cons_self)
    have going' : .efun ∉ code := fun member => going (List.mem_cons_of_mem _ member)
    have first : ∀ s', nextline line.text s = .ok s' →
        lines ((line :: code ++ [Line.efun]).map Line.text) s =
          lines ((code ++ [Line.efun]).map Line.text) s' := by
      intro s' read
      simp [lines, endf, read]
    cases stands : line.stmt s.table with
    | none =>
      have listed := repr.listed
      have repr' : Represents base frames { s with table := line.declares s.table } :=
        ⟨⟨listed.stmts, listed.curstmt, listed.unique, listed.fresh⟩, repr.swtbl⟩
      simp only [List.cons_append, statements, stands, Option.toList_none, List.nil_append] at nest ⊢
      obtain ⟨s', run, ends⟩ := ih _ repr' later nest going' empty calm endf
      exact ⟨s', (first _ (nextline_decl fits short empty calm stands)).trans run, ends⟩
    | some np =>
      simp only [List.cons_append, statements, stands, Option.toList_some, List.nil_append,
        List.map_cons, line.declares_stmt stands] at nest later ⊢
      obtain ⟨base', frames', s', joined, after, repr', nest', list⟩ := join_step repr nest
      have read := nextline_stmt fits short empty calm stands joined after.stack
      have open' : s'.endf = false := by
        simp [after.endf, endf, Line.stmt_going stands other]
      rw [← after.table] at later nest' list ⊢
      obtain ⟨s'', run, ends⟩ := ih s' repr' later nest' going' (after.stack.trans empty)
        (after.ininit.trans calm) open'
      rw [← list]
      exact ⟨s'', (first _ read).trans run, ends⟩

theorem Line.text_clean {table : Nat → CType} {line : Line} (fits : line.Fits table) :
    '\n' ∉ line.text := by
  intro member
  have word : ∀ {token : List Char}, (∀ c ∈ token, delim c = false) → '\n' ∉ token :=
    fun plain inside => absurd (plain _ inside) (by decide)
  cases line with
  | decl sym type =>
    simp only [Line.text_decl, List.append_assoc, List.cons_append, List.mem_append, List.mem_cons] at member
    rcases member with var | tab | letter | tab | quote | name
    · exact word (emitvar_plain sym).undivided var
    · exact absurd tab (by decide)
    · exact word fits.printable.undivided letter
    · exact absurd tab (by decide)
    · exact absurd quote (by decide)
    · exact word fits.name name
  | label sym => exact word (label_plain sym).undivided member
  | efun => exact absurd (List.mem_singleton.mp member) (by decide)
  | _ =>
    rw [Line.text_words rfl (Line.operand_emitted fits)] at member
    obtain ⟨token, among, inside⟩ := List.mem_flatMap.mp member
    rcases List.mem_cons.mp inside with tab | inside
    · exact absurd tab (by decide)
    · exact word (Line.words_plain (Line.operand_emitted fits) token among).undivided inside

theorem readable_clean {table : Nat → CType} {code : List Line} (readable : Readable table code) :
    ∀ text ∈ code.map Line.text, '\n' ∉ text := by
  induction code generalizing table with
  | nil => nofun
  | cons line code ih =>
    obtain ⟨fits, -, later⟩ := readable
    intro text member
    rcases List.mem_cons.mp member with rfl | member
    · exact line.text_clean fits
    · exact ih later text member

/-! Whole functions. -/

/-- The lines of the body of a function, up to its end. -/
def functionLines (newlabel : Nat → Nat) (body : Cc1.Stmt) : List Line :=
  group (Cc1.function newlabel body)

/-- The parser after the declaration of the function and its parameters. -/
def begun (table : Nat → CType) : State :=
  ⟨[], table, [(0, .OBFUN)], some 0, [], 1, false, false, []⟩

def Stmt.loop : Stmt Node → Bool
  | .OBLOOP | .OELOOP => true
  | _ => false

def unlooped (code : List (Stmt Node)) : List (Stmt Node) := code.filter fun np => !Stmt.loop np

theorem unlooped_exchanged (code : List (Stmt Node)) :
    unlooped (code.map exchanged) = unlooped code := by
  induction code with
  | nil => rfl
  | cons np code ih => cases np <;> simpa [unlooped, exchanged, Stmt.loop] using ih

/-- The list that cc2 builds, with the markers of loops as cc1 prints them. -/
theorem function_parsed (newlabel : Nat → Nat) (body : Cc1.Stmt) (table : Nat → CType)
    (nests : switched 0 body = true) (readable : Readable table (functionLines newlabel body)) :
    ∃ s, parse ((Cc1.function newlabel body).flatMap Cc1.emit) (begun table) = .ok s ∧
      s.stack = [] ∧ s.endf = true ∧ stmtsOf s.stmts =
        (.OBFUN :: arrange (statements table (functionLines newlabel body))).map exchanged := by
  have formed := stmt_formed newlabel body none none 0
  have split : functionLines newlabel body =
      group (Cc1.stmt newlabel none none 0 body).1 ++ [.efun] := formed.group [.OEFUN]
  have text : (Cc1.function newlabel body).flatMap Cc1.emit =
      ((functionLines newlabel body).map Line.text).flatMap fun line => line ++ ['\n'] := by
    have ending := Line.efun.printed
    simp only [Line.calls, List.flatMap_cons, List.flatMap_nil, List.append_nil] at ending
    simp [Cc1.function, split, formed.text, ending, List.flatMap_map]
  have read := splitOn_lines (readable_clean readable)
  rw [split] at readable
  have repr : Represents [(0, .OBFUN)] [] (begun table) := by
    refine ⟨⟨rfl, rfl, by simp [nodes], ?_⟩, rfl⟩
    simp [nodes, begun]
  obtain ⟨table', nest⟩ := formed.nested table 0 [.efun]
  have nest : nested 0 ((statements table
      (group (Cc1.stmt newlabel none none 0 body).1 ++ [.efun])).map exchanged) = true := by
    rw [nested_exchanged, nest, nests]
    rfl
  obtain ⟨s, run, stack, endf, list⟩ :=
    lines_run _ (begun table) repr readable nest formed.going rfl rfl rfl
  refine ⟨s, ?_, stack, endf, ?_⟩
  · rw [parse, text, read]
    simp only [List.getLast?_append, List.getLast?_singleton, Option.some_or, if_true,
      List.dropLast_concat, split]
    exact run
  · rw [list, split]
    simp [whole, Cc2.close, stmtsOf, arrange_exchanged, exchanged, begun]

def switchSeven : Cc1.Stmt :=
  .switch (Cc1.constnode Cc1.inttype 5)
    (.case (Cc1.constnode Cc1.inttype 1) (.expr (Cc1.constnode Cc1.inttype 7)))

theorem switchSeven_readable (table : Nat → CType) :
    Readable table (functionLines (fun n => n + 1) switchSeven) := by
  have constant : ∀ u under, under ≤ 1 →
      Operand table under (Cc1.constnode Cc1.inttype u) := fun u under small =>
    ⟨.constant (.inr (.inl rfl)) rfl rfl rfl, by simp [Declared, Cc1.constnode],
      show under + 1 ≤ STACKSIZ by unfold STACKSIZ; omega⟩
  have label : ∀ sym, sym ≤ 2 → sym < USHRT_MAX := fun sym small =>
    Nat.lt_of_le_of_lt small (by decide)
  exact ⟨constant 5 0 (by decide), by decide, ⟨label 2 (by decide), constant 1 1 (by decide)⟩,
    by decide, label 2 (by decide), by decide, .inr (constant 7 0 (by decide)), by decide,
    label 1 (by decide), by decide, label 1 (by decide), by decide, trivial, by decide, trivial⟩

/-- The list without the labels of switches and without the numbers in their heads. -/
def uncased (code : List (Stmt Node)) : List (Stmt Node) :=
  (code.filter fun np => match np with | .OCASE _ _ | .ODEFAULT _ => false | _ => true).map
    fun np => match np with | .OBSWITCH left _ => .OBSWITCH left 0 | np => np

end Scc.Ir
