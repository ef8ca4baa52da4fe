import Scc.Ir.RoundTrip
import Scc.Cc2.Tables

set_option linter.all false

/-! The lines of a function as cc1 prints them, what they are to mean to cc2, and how cc2
reads each of them. -/
namespace Scc.Ir
open Text Cc2

/-- A line, with the operand that another call of `emit` prints on it; a `nil` operand
prints nothing. -/
inductive Line where
  | decl (sym : Cc1.Symbol) (type : Cc1.CType)
  | expr (np : Cc1.Node)
  | label (sym : Nat)
  | jump (sym : Nat)
  | branch (sym : Nat) (np : Cc1.Node)
  | bloop
  | eloop
  | ret (np : Cc1.Node)
  | bswitch (np : Cc1.Node)
  | eswitch (sym : Nat)
  | case (sym : Nat) (np : Cc1.Node)
  | default (sym : Nat)
  | efun

/-- The lines of a sequence of calls. An operation whose operand is missing prints no line
of its own. -/
def group : List Cc1.Emit → List Line
  | [] => []
  | .ODECL sym type :: code => .decl sym type :: group code
  | .OEXPR np :: code => .expr np :: group code
  | .OLABEL sym :: code => .label sym :: group code
  | .OJUMP sym :: code => .jump sym :: group code
  | .OBRANCH sym :: .OEXPR np :: code => .branch sym np :: group code
  | .OBLOOP :: code => .bloop :: group code
  | .OELOOP :: code => .eloop :: group code
  | .ORET :: .OEXPR np :: code => .ret np :: group code
  | .OBSWITCH :: .OEXPR np :: code => .bswitch np :: group code
  | .OESWITCH sym :: code => .eswitch sym :: group code
  | .OCASE sym :: .OEXPR np :: code => .case sym np :: group code
  | .ODEFAULT sym :: code => .default sym :: group code
  | .OEFUN :: code => .efun :: group code
  | _ :: code => group code

def Line.text : Line → List Char
  | .decl sym type =>
    Cc1.emitvar sym ++ '\t' :: Cc1.emitletter type ++ '\t' :: '"' :: sym.name.toList
  | .expr np => Cc1.emitnode np
  | .label sym => 'L' :: Cc1.decimal sym
  | .jump sym => "\tj\tL".toList ++ Cc1.decimal sym
  | .branch sym np => "\ty\tL".toList ++ Cc1.decimal sym ++ Cc1.emitnode np
  | .bloop => "\te".toList
  | .eloop => "\tb".toList
  | .ret np => "\th".toList ++ Cc1.emitnode np
  | .bswitch np => "\ts".toList ++ Cc1.emitnode np
  | .eswitch sym => "\tt\tL".toList ++ Cc1.decimal sym
  | .case sym np => "\tv\tL".toList ++ Cc1.decimal sym ++ Cc1.emitnode np
  | .default sym => "\tf\tL".toList ++ Cc1.decimal sym
  | .efun => ['}']

/-- The calls of `emit` that print a line. -/
def Line.calls : Line → List Cc1.Emit
  | .decl sym type => [.ODECL sym type]
  | .expr np => [.OEXPR np]
  | .label sym => [.OLABEL sym]
  | .jump sym => [.OJUMP sym]
  | .branch sym np => [.OBRANCH sym, .OEXPR np]
  | .bloop => [.OBLOOP]
  | .eloop => [.OELOOP]
  | .ret np => [.ORET, .OEXPR np]
  | .bswitch np => [.OBSWITCH, .OEXPR np]
  | .eswitch sym => [.OESWITCH sym]
  | .case sym np => [.OCASE sym, .OEXPR np]
  | .default sym => [.ODEFAULT sym]
  | .efun => [.OEFUN]

theorem Line.printed (line : Line) : line.calls.flatMap Cc1.emit = line.text ++ ['\n'] := by
  -- An operation and its operand end the line together.
  have joined (front text : List Char) : front ++ (text ++ ['\n'] ++ []) = front ++ text ++ ['\n'] := by
    rw [List.append_nil, List.append_assoc]
  cases line with
  | bloop | eloop | efun => rfl
  | branch sym np | ret np | bswitch np | case sym np => exact joined _ _
  | _ => exact List.append_nil _

theorem Line.text_decl (sym : Cc1.Symbol) (type : Cc1.CType) : (Line.decl sym type).text =
    Cc1.emitvar sym ++ '\t' :: Cc1.emitletter type ++ '\t' :: '"' :: sym.name.toList := rfl

/-- The tree of an operand in cc2. -/
def tree (table : Nat → CType) (np : Cc1.Node) : Node := image table (unvoid np)

/-- The statement that a line stands for. -/
def Line.stmt (table : Nat → CType) : Line → Option (Stmt Node)
  | .decl _ _ => none
  | .expr np => if np = .nil then none else some (.expr (tree table np))
  | .label sym => some (.ONOP (.named sym))
  | .jump sym => some (.OJMP (.named sym))
  | .branch sym np => some (.OBRANCH (.named sym) (tree table np))
  | .bloop => some .OBLOOP
  | .eloop => some .OELOOP
  | .ret np => some (.ORET (if np = .nil then none else some (tree table np)))
  | .bswitch np => some (.OBSWITCH (tree table np) 0)
  | .eswitch sym => some (.OESWITCH (.named sym))
  | .case sym np => some (.OCASE (.named sym) (tree table np))
  | .default sym => some (.ODEFAULT (.named sym))
  | .efun => some .OEFUN

/-- The types of the symbols after a line. -/
def Line.declares (table : Nat → CType) : Line → Nat → CType
  | .decl sym type => Function.update table sym.id (received table type)
  | _ => table

def statements (table : Nat → CType) : List Line → List (Stmt Node)
  | [] => []
  | line :: code => (line.stmt table).toList ++ statements (line.declares table) code

/-- cc1 prints the letter of the end of a loop for its beginning, and the other way. -/
def exchanged : Stmt Node → Stmt Node
  | .OBLOOP => .OELOOP
  | .OELOOP => .OBLOOP
  | np => np

/-! What the limits of cc2 ask of a line. -/

/-- An operand whose symbols are declared and that fits on the stack above `under`
elements. -/
structure Operand (table : Nat → CType) (under : Nat) (np : Cc1.Node) : Prop where
  emitted : Emitted .expression np
  declared : Declared table np
  fits : under + slots np ≤ STACKSIZ

/-- The declaration of a variable; the name is a C identifier. -/
structure Variable (table : Nat → CType) (sym : Cc1.Symbol) (type : Cc1.CType) : Prop where
  small : sym.id < USHRT_MAX
  storage : sym.slocal || sym.sprivate || sym.sglobal || sym.sregister || !sym.sfield
  printable : Printable type
  object : (received table type).funf = false
  name : ∀ c ∈ sym.name.toList, delim c = false

def Line.Fits (table : Nat → CType) : Line → Prop
  | .decl sym type => Variable table sym type
  | .expr np | .ret np => np = .nil ∨ Operand table 0 np
  | .bswitch np => Operand table 0 np
  | .label sym | .jump sym | .eswitch sym | .default sym => sym < USHRT_MAX
  | .branch sym np | .case sym np => sym < USHRT_MAX ∧ Operand table 1 np
  | .bloop | .eloop | .efun => True

/-- Lines that cc2 has room for: see `nextline` for the length. -/
def Readable (table : Nat → CType) : List Line → Prop
  | [] => True
  | line :: code => line.Fits table ∧ line.text.length + 2 ≤ LINESIZ ∧
      Readable (line.declares table) code

/-! The tokens of a line. -/

/-- The lines of statements, which begin with a tab. -/
def Line.tabbed : Line → Bool
  | .decl _ _ | .label _ | .efun => false
  | _ => true

def Line.letter : Line → Option Char
  | .jump _ => some 'j'
  | .branch _ _ => some 'y'
  | .bloop => some 'e'
  | .eloop => some 'b'
  | .ret _ => some 'h'
  | .bswitch _ => some 's'
  | .eswitch _ => some 't'
  | .case _ _ => some 'v'
  | .default _ => some 'f'
  | _ => none

def Line.sym : Line → Option Nat
  | .jump sym | .branch sym _ | .eswitch sym | .case sym _ | .default sym => some sym
  | _ => none

def Line.operand : Line → Cc1.Node
  | .expr np | .branch _ np | .ret np | .bswitch np | .case _ np => np
  | _ => .nil

def Line.words (line : Line) : List Token :=
  (line.letter.map fun c => [c]).toList ++
    (line.sym.map fun sym => 'L' :: Cc1.decimal sym).toList ++ Ir.words line.operand

theorem Line.operand_emitted {table : Nat → CType} {line : Line} (fits : line.Fits table) :
    line.operand = .nil ∨ Emitted .expression line.operand := by
  cases line with
  | expr np => exact fits.imp_right Operand.emitted
  | ret np => exact fits.imp_right Operand.emitted
  | bswitch np => exact .inr fits.emitted
  | branch sym np => exact .inr fits.2.emitted
  | case sym np => exact .inr fits.2.emitted
  | _ => exact .inl rfl

theorem Line.text_words {line : Line} (tabbed : line.tabbed = true)
    (emitted : line.operand = .nil ∨ Emitted .expression line.operand) :
    line.text = line.words.flatMap fun word => '\t' :: word := by
  have operand : Cc1.emitnode line.operand =
      (Ir.words line.operand).flatMap fun word => '\t' :: word := by
    rcases emitted with missing | emitted
    · rw [missing]
      rfl
    · exact emitted_text emitted
  cases line with
  | decl | label | efun => cases tabbed
  | expr np => exact operand
  | bloop | eloop => rfl
  | jump sym =>
    show "\tj\tL".toList ++ Cc1.decimal sym = _
    simp [Line.words, Line.letter, Line.sym, Line.operand, Ir.words]
  | eswitch sym =>
    show "\tt\tL".toList ++ Cc1.decimal sym = _
    simp [Line.words, Line.letter, Line.sym, Line.operand, Ir.words]
  | default sym =>
    show "\tf\tL".toList ++ Cc1.decimal sym = _
    simp [Line.words, Line.letter, Line.sym, Line.operand, Ir.words]
  | ret np =>
    show "\th".toList ++ Cc1.emitnode np = _
    simp_all [Line.words, Line.letter, Line.sym, Line.operand]
  | bswitch np =>
    show "\ts".toList ++ Cc1.emitnode np = _
    simp_all [Line.words, Line.letter, Line.sym, Line.operand]
  | branch sym np =>
    show "\ty\tL".toList ++ Cc1.decimal sym ++ Cc1.emitnode np = _
    simp_all [Line.words, Line.letter, Line.sym, Line.operand]
  | case sym np =>
    show "\tv\tL".toList ++ Cc1.decimal sym ++ Cc1.emitnode np = _
    simp_all [Line.words, Line.letter, Line.sym, Line.operand]

theorem label_plain (sym : Nat) : Plain delim ('L' :: Cc1.decimal sym) where
  nonempty := List.cons_ne_nil _ _
  undivided c member := by
    rcases List.mem_cons.mp member with rfl | later
    · rfl
    · exact decimal_undivided c later

theorem Line.words_plain {line : Line}
    (emitted : line.operand = .nil ∨ Emitted .expression line.operand) :
    ∀ word ∈ line.words, Plain delim word := by
  intro word member
  rcases List.mem_append.mp member with front | operand
  · rcases List.mem_append.mp front with letter | label
    · have undivided : ∀ c ∈ line.letter, delim c = false := by
        cases line <;> simp [Line.letter] <;> rfl
      simp only [Option.mem_toList, Option.map_eq_some_iff] at letter
      obtain ⟨c, known, rfl⟩ := letter
      exact ⟨List.cons_ne_nil _ _, by simpa using undivided c known⟩
    · simp only [Option.mem_toList, Option.map_eq_some_iff] at label
      obtain ⟨sym, known, rfl⟩ := label
      exact label_plain sym
  · rcases emitted with missing | emitted
    · rw [missing] at operand
      cases operand
    · exact emitted_plain emitted word operand

/-- cc2 finds the tokens of a statement on its line. -/
theorem Line.tokens_text {table : Nat → CType} {line : Line} (fits : line.Fits table)
    (tabbed : line.tabbed = true) : tokens delim line.text = line.words := by
  rw [line.text_words tabbed (line.operand_emitted fits)]
  exact tokens_flatMap rfl (line.words_plain (line.operand_emitted fits))

/-! Reading a line. -/

theorem nextline_eq {c : Char} {text : List Char} {words : List Token} {s s' s'' : State}
    (short : (c :: text).length + 2 ≤ LINESIZ) (found : tokens delim (c :: text) = words)
    (some : words ≠ []) (evaluated : eval words s = .ok s') (handled : evalLine c s' = .ok s'')
    (empty : s''.stack = []) : nextline (c :: text) s = .ok s'' := by
  have room : ¬ (c :: text).length + 1 ≥ LINESIZ := by omega
  simp only [nextline, room, found, some, evaluated, handled, empty, if_false, if_true, bind,
    Except.bind]

/-- A line of a statement, whose tokens are evaluated to `s'`. -/
theorem nextline_tabbed {table : Nat → CType} {line : Line} {s s' s'' : State}
    (fits : line.Fits table) (tabbed : line.tabbed = true) (some : line.words ≠ [])
    (short : line.text.length + 2 ≤ LINESIZ) (evaluated : eval line.words s = .ok s')
    (handled : Cc2.stmt s' = .ok s'') (empty : s''.stack = []) :
    nextline line.text s = .ok s'' := by
  have found := line.tokens_text fits tabbed
  have text := line.text_words tabbed (line.operand_emitted fits)
  cases words : line.words with
  | nil => exact absurd words some
  | cons first rest =>
    rw [words, List.flatMap_cons, List.cons_append] at text
    rw [text] at short found ⊢
    exact nextline_eq short found some evaluated handled empty

def labelNode (table : Nat → CType) (sym : Nat) : Elem :=
  .node (.mk .OLABEL (table sym) (.sym (.named sym)) .nil .nil)

theorem eval_label {s : State} {sym : Nat} (small : sym < USHRT_MAX)
    (space : s.stack.length < STACKSIZ) (rest : List Token) :
    eval (('L' :: Cc1.decimal sym) :: rest) s =
      eval rest { s with stack := labelNode s.table sym :: s.stack } :=
  eval_token rest rfl rfl (variable_eq .OLABEL small space)

/-- The operand of a line is left on the stack. -/
theorem eval_operand {s : State} {np : Cc1.Node} (operand : Operand s.table s.stack.length np) :
    eval (words np) s = .ok { s with stack := .node (tree s.table np) :: s.stack } := by
  have read := eval_words operand.emitted s operand.declared s.stack [] operand.fits
  rw [List.append_nil] at read
  exact read

theorem words_ne_nil {role : Role} {np : Cc1.Node} (emitted : Emitted role np)
    (expression : role = .expression) : words np ≠ [] := by
  induction emitted with
  | void inner ih => simpa [words, own] using ih expression
  | none | argument => cases expression
  | cast castable => simp [words, own, castable.value]
  | unary known =>
    obtain ⟨c, text, -⟩ := unary_text known
    simp [words, own_operator text]
  | binary known =>
    obtain ⟨c, text, -⟩ := binary_text known
    simp [words, own_operator text]
  | assign known =>
    rcases assign_text known with ⟨text, -⟩ | ⟨c, op', text, -⟩
    · simp [words, own_operator text]
    · simp [words, own_operator text]
  | call known =>
    obtain ⟨c, text, -⟩ := call_text known
    simp [words, own_operator text]
  | _ => simp [words, own, Cc1.optxt]

/-- A statement with a label: its operands are read before its node is placed. -/
theorem eval_jump {c : Char} {op : Jump} {rest : List Token} {s s' s'' : State} (np : Stmt Node)
    (row : optbl c = some (.jump op)) (some : rest ≠ [])
    (read : eval rest { s with num := s.num + 1 } = .ok s') (node : jump op s' = .ok (np, s'')) :
    eval ([c] :: rest) s = place op s.num np s'' := by
  simp only [eval, row, some, read, node, if_false, bind, Except.bind]

section
variable {s : State} {sym : Nat} {np : Cc1.Node} (empty : s.stack = [])
include empty

/-- A label and nothing else. -/
theorem eval_labelled {c : Char} {op : Jump} {stmt : Stmt Node} (small : sym < USHRT_MAX)
    (row : optbl c = some (.jump op))
    (node : jump op { s with stack := [labelNode s.table sym], num := s.num + 1 } =
      .ok (stmt, { s with num := s.num + 1 })) :
    eval [[c], 'L' :: Cc1.decimal sym] s = place op s.num stmt { s with num := s.num + 1 } := by
  obtain ⟨stack, table, stmts, curstmt, swtbl, num, endf, ininit, data⟩ := s
  obtain rfl : stack = [] := empty
  have read := eval_label (s := ⟨[], table, stmts, curstmt, swtbl, num + 1, endf, ininit, data⟩) small
    (Nat.succ_pos 49) []
  exact eval_jump stmt row (List.cons_ne_nil _ _) read node

/-- A label and an operand. -/
theorem eval_conditional {c : Char} {op : Jump} {stmt : Stmt Node} (small : sym < USHRT_MAX)
    (operand : Operand s.table 1 np) (row : optbl c = some (.jump op))
    (node : jump op { s with
        stack := [.node (tree s.table np), labelNode s.table sym], num := s.num + 1 } =
      .ok (stmt, { s with num := s.num + 1 })) :
    eval ([c] :: ('L' :: Cc1.decimal sym) :: words np) s =
      place op s.num stmt { s with num := s.num + 1 } := by
  obtain ⟨stack, table, stmts, curstmt, swtbl, num, endf, ininit, data⟩ := s
  obtain rfl : stack = [] := empty
  have first := eval_label (s := ⟨[], table, stmts, curstmt, swtbl, num + 1, endf, ininit, data⟩) small
    (Nat.succ_pos 49) (words np)
  have second := eval_operand
    (s := ⟨[labelNode table sym], table, stmts, curstmt, swtbl, num + 1, endf, ininit, data⟩) operand
  exact eval_jump stmt row (List.cons_ne_nil _ _) (first.trans second) node

theorem eval_return (operand : np = .nil ∨ Operand s.table 0 np) :
    eval (['h'] :: words np) s =
      .ok { s with
        stack := [.stmt s.num (.ORET (if np = .nil then none else some (tree s.table np)))]
        num := s.num + 1 } := by
  obtain ⟨stack, table, stmts, curstmt, swtbl, num, endf, ininit, data⟩ := s
  obtain rfl : stack = [] := empty
  rcases operand with rfl | operand
  · rfl
  · have present : np ≠ .nil := by
      rintro rfl
      exact nomatch operand.emitted
    have read := eval_operand (s := ⟨[], table, stmts, curstmt, swtbl, num + 1, endf, ininit, data⟩) operand
    simp only [eval, optbl, read, bind, Except.bind, popnode, push, if_neg present]
    rfl

theorem eval_switch (operand : Operand s.table 0 np) (room : s.swtbl.length ≠ NR_BLOCK) :
    eval (['s'] :: words np) s =
      .ok { s with
        stack := [.stmt s.num (.OBSWITCH (tree s.table np) 0)]
        num := s.num + 1
        swtbl := ⟨0, s.num, s.num⟩ :: s.swtbl } := by
  obtain ⟨stack, table, stmts, curstmt, swtbl, num, endf, ininit, data⟩ := s
  obtain rfl : stack = [] := empty
  have read := eval_operand
    (s := ⟨[], table, stmts, curstmt, ⟨0, num, num⟩ :: swtbl, num + 1, endf, ininit, data⟩) operand
  simp only [eval, optbl, room, words_ne_nil operand.emitted rfl, read, if_false, bind, Except.bind,
    popnode, push]
  rfl

end

/-- cc2 reads from a line the statement that it stands for, but for the markers of loops. -/
theorem nextline_stmt {line : Line} {s s' : State} {np : Stmt Node} (fits : line.Fits s.table)
    (short : line.text.length + 2 ≤ LINESIZ) (empty : s.stack = []) (calm : s.ininit = false)
    (stands : line.stmt s.table = some np) (joined : join (exchanged np) s = .ok s')
    (kept : s'.stack = s.stack) : nextline line.text s = .ok s' := by
  obtain ⟨stack, table, stmts, curstmt, swtbl, num, endf, ininit, data⟩ := s
  obtain rfl : stack = [] := empty
  obtain rfl : ininit = false := calm
  have last : s'.stack = [] := kept
  -- the entries of switches are in the list before the line ends
  have idle : Cc2.stmt s' = .ok s' := by simp only [Cc2.stmt, last]
  cases line with
  | decl sym type => cases stands
  | expr np =>
    rcases fits with rfl | operand
    · cases stands
    · have present : np ≠ .nil := by
        rintro rfl
        cases operand.emitted
      obtain rfl := Option.some.inj ((if_neg present).symm.trans stands)
      exact nextline_tabbed (.inr operand) rfl (words_ne_nil operand.emitted rfl) short
        (eval_operand operand) joined last
  | label sym =>
    cases stands
    have read := eval_label (s := ⟨[], table, stmts, curstmt, swtbl, num, endf, false, data⟩) fits
      (Nat.succ_pos 49) []
    exact nextline_eq short (label_plain sym).tokens (List.cons_ne_nil _ _) read joined last
  | jump sym =>
    cases stands
    have read := eval_labelled (s := ⟨[], table, stmts, curstmt, swtbl, num, endf, false, data⟩) (c := 'j') rfl
      fits rfl rfl
    exact nextline_tabbed fits rfl (List.cons_ne_nil _ _) short read joined last
  | branch sym np =>
    cases stands
    have read := eval_conditional (s := ⟨[], table, stmts, curstmt, swtbl, num, endf, false, data⟩) (c := 'y')
      rfl fits.1 fits.2 rfl rfl
    exact nextline_tabbed fits rfl (List.cons_ne_nil _ _) short read joined last
  | bloop =>
    cases stands
    exact nextline_tabbed fits rfl (List.cons_ne_nil _ _) short rfl joined last
  | eloop =>
    cases stands
    exact nextline_tabbed fits rfl (List.cons_ne_nil _ _) short rfl joined last
  | ret np =>
    cases stands
    exact nextline_tabbed fits rfl (List.cons_ne_nil _ _) short (eval_return rfl fits) joined last
  | bswitch np =>
    cases stands
    have room : swtbl.length ≠ NR_BLOCK := by
      intro full
      simp only [exchanged, join, full, if_true] at joined
      cases joined
    have read := eval_switch (s := ⟨[], table, stmts, curstmt, swtbl, num, endf, false, data⟩) rfl fits room
    have joined : _ = Except.ok s' := (if_neg room).symm.trans joined
    exact nextline_tabbed fits rfl (List.cons_ne_nil _ _) short read joined last
  | eswitch sym =>
    cases stands
    have read := eval_labelled (s := ⟨[], table, stmts, curstmt, swtbl, num, endf, false, data⟩) (c := 't') rfl
      fits rfl rfl
    exact nextline_tabbed fits rfl (List.cons_ne_nil _ _) short (read.trans joined) idle last
  | case sym np =>
    cases stands
    have read := eval_conditional (s := ⟨[], table, stmts, curstmt, swtbl, num, endf, false, data⟩) (c := 'v')
      rfl fits.1 fits.2 rfl rfl
    exact nextline_tabbed fits rfl (List.cons_ne_nil _ _) short (read.trans joined) idle last
  | default sym =>
    cases stands
    have read := eval_labelled (s := ⟨[], table, stmts, curstmt, swtbl, num, endf, false, data⟩) (c := 'f') rfl
      fits rfl rfl
    exact nextline_tabbed fits rfl (List.cons_ne_nil _ _) short (read.trans joined) idle last
  | efun =>
    cases stands
    have plain : Plain delim ['}'] := ⟨List.cons_ne_nil _ _, undivided_of_all (by decide)⟩
    exact nextline_eq short plain.tokens (List.cons_ne_nil _ _) rfl joined last

/-! Declarations. -/

theorem eval_type {type : Cc1.CType} (printable : Printable type) {s : State}
    (space : s.stack.length < STACKSIZ) (rest : List Token) :
    eval (Cc1.emitletter type :: rest) s =
      eval rest { s with stack := .type (received s.table type) :: s.stack } := by
  rcases printable.letter with ⟨derived, letter, plain⟩ | known
  · have number : getsym (Cc1.decimal type.id) = .ok type.id := by
      have small := printable.id
      simp only [getsym, atoi_decimal, USHRT_MAX]
      exact if_neg (by omega)
    have text : Cc1.emitletter type = type.letter :: Cc1.decimal type.id := by
      unfold Cc1.emitletter
      rcases derived with op | op | op <;> simp [op, plain]
    have composed : optbl type.letter = some .composed ∧ lettertype type.letter = none := by
      simp only [List.mem_cons, List.not_mem_nil, or_false] at letter
      rcases letter with h | h | h <;> rw [h] <;> exact ⟨rfl, rfl⟩
    rw [text]
    refine eval_token rest composed.1 rfl ?_
    simp only [parseToken, number, bind, Except.bind, push_eq _ space, received, plain, composed.2]
    rfl
  · obtain ⟨tp, letter⟩ := Option.isSome_iff_exists.mp known
    unfold Cc1.emitletter received
    cases ellipsis : type.tellipsis with
    | true => exact eval_token rest rfl rfl (push_eq _ space)
    | false =>
      simp only [Bool.false_eq_true, if_false, letter]
      exact eval_token rest (optbl_letter letter) rfl (push_eq _ space)

/-- The letters of variables declare them. -/
theorem evalLine_variable {sym : Cc1.Symbol}
    (storage : sym.slocal || sym.sprivate || sym.sglobal || sym.sregister || !sym.sfield) :
    ∃ c op, Cc1.emitvar sym = c :: Cc1.decimal sym.id ∧ optbl c = some (.symbol op) ∧
      evalLine c = vardecl := by
  unfold Cc1.emitvar
  revert storage
  cases sym.slocal <;> cases sym.sprivate <;> cases sym.sglobal <;> cases sym.sregister <;>
    cases sym.sfield <;> cases sym.sextern <;>
    first | exact fun _ => ⟨_, _, rfl, rfl, rfl⟩ | exact nofun

theorem nextline_decl {line : Line} {s : State} (fits : line.Fits s.table)
    (short : line.text.length + 2 ≤ LINESIZ) (empty : s.stack = []) (calm : s.ininit = false)
    (stands : line.stmt s.table = none) :
    nextline line.text s = .ok { s with table := line.declares s.table } := by
  obtain ⟨stack, table, stmts, curstmt, swtbl, num, endf, ininit, data⟩ := s
  obtain rfl : stack = [] := empty
  obtain rfl : ininit = false := calm
  cases line with
  | decl sym type =>
    obtain ⟨c, op, var, row, handler⟩ := evalLine_variable fits.storage
    have plain : Plain delim ('"' :: sym.name.toList) :=
      ⟨List.cons_ne_nil _ _, by simpa [delim] using fits.name⟩
    have typed : Plain delim (Cc1.emitletter type) :=
      ⟨List.cons_ne_nil _ _, fits.printable.undivided⟩
    have found : tokens delim (Line.decl sym type).text =
        [Cc1.emitvar sym, Cc1.emitletter type, '"' :: sym.name.toList] := by
      simp only [Line.text_decl, List.append_assoc, List.cons_append]
      rw [(emitvar_plain sym).tokens_append rfl, typed.tokens_append rfl, plain.tokens]
    have start : (Line.decl sym type).text = c :: (Line.decl sym type).text.tail := by
      simp [Line.text_decl, var]
    rw [start] at short found ⊢
    have number := variable_eq (s := ⟨[], table, stmts, curstmt, swtbl, num, endf, false, data⟩) op fits.small
      (Nat.succ_pos 49)
    have read : eval [Cc1.emitvar sym, Cc1.emitletter type, '"' :: sym.name.toList]
        ⟨[], table, stmts, curstmt, swtbl, num, endf, false, data⟩ =
          .ok ⟨[.name sym.name.toList, .type (received table type),
            .node (.mk op (table sym.id) (.sym (.named sym.id)) .nil .nil)],
            table, stmts, curstmt, swtbl, num, endf, false, data⟩ := by
      rw [var, eval_token _ row rfl number, eval_type fits.printable (by simp [STACKSIZ])]
      exact eval_token [] rfl rfl (getname_eq _ (by simp [STACKSIZ]))
    refine nextline_eq short found (List.cons_ne_nil _ _) read ?_ rfl
    rw [handler]
    simp only [vardecl, fits.object]
    rfl
  | expr np =>
    rcases fits with rfl | operand
    · rfl
    · have present : np ≠ .nil := by
        rintro rfl
        cases operand.emitted
      exact absurd ((if_neg present).symm.trans stands) nofun
  | _ => cases stands

end Scc.Ir
