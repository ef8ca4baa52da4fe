import Scc.Cc1.Node

set_option linter.all false

/-! The statements of a function and the sequence of `emit` calls of `stmt.c` for them.
The parser is left out: a statement is what it has recognised. `newlabel` takes its
numbers from a supply, since the other symbols of the function use the same counter. -/
namespace Scc.Cc1

/-- The condition of a statement that `exp2cond` accepts, with the trees it builds. -/
structure Cond where
  exp : Node
  tree : Bool → Node
  accepted : ∀ neg, exp2cond exp neg = .ok (tree neg)
  present : ∀ neg, tree neg ≠ .nil
  /-- `compare` gives every comparison the type `int`. -/
  typed : ∀ {op nconst type sym left right}, exp = .mk op nconst type sym left right →
    isComparison op = true → type = inttype

/-- What stands before the first semicolon of a `for`. -/
inductive Init where
  | decl (sym : Symbol) (type : CType)
  | expr (np : Node)

inductive Stmt where
  /-- An empty statement, or the end of a block. -/
  | skip
  | seq (first rest : Stmt)
  | decl (sym : Symbol) (type : CType)
  | expr (np : Node)
  | label (sym : Nat) (body : Stmt)
  | goto (sym : Nat)
  | while (cond : Cond) (body : Stmt)
  | dowhile (body : Stmt) (cond : Cond)
  | for (init : List Init) (econd : Option Cond) (einc : Option Node) (body : Stmt)
  | if (cond : Cond) (body : Stmt)
  | ifelse (cond : Cond) (body other : Stmt)
  | break
  | continue
  | return (np : Option Node)
  | switch (cond : Node) (body : Stmt)
  | case (np : Node) (body : Stmt)
  | default (body : Stmt)

/-- A call of `emit`: the operation and its argument. -/
inductive Emit where
  | ODECL (sym : Symbol) (type : CType)
  | OEXPR (np : Node)
  | OLABEL (sym : Nat)
  | OJUMP (sym : Nat)
  | OBRANCH (sym : Nat)
  | OBLOOP
  | OELOOP
  | ORET
  | OBSWITCH
  | OESWITCH (sym : Nat)
  | OCASE (sym : Nat)
  | ODEFAULT (sym : Nat)
  | OEFUN

def Emit.labelOf : Emit → Option Nat
  | .OLABEL sym => some sym
  | _ => none

def Init.emits : Init → Emit
  | .decl sym type => .ODECL sym type
  | .expr np => .OEXPR np

def While (begin lcont lbreak : Nat) (np : Node) (body : List Emit) : List Emit :=
  .OJUMP lcont :: .OBLOOP :: .OLABEL begin :: (body ++
    [.OLABEL lcont, .OBRANCH begin, .OEXPR np, .OELOOP, .OLABEL lbreak])

def Dowhile (begin lcont lbreak : Nat) (np : Node) (body : List Emit) : List Emit :=
  .OBLOOP :: .OLABEL begin :: (body ++
    [.OLABEL lcont, .OBRANCH begin, .OEXPR np, .OELOOP, .OLABEL lbreak])

/-- The branch or jump at the bottom of a `for`, with its line of operands. -/
def forTest (begin : Nat) : Option Node → List Emit
  | some econd => [.OBRANCH begin, .OEXPR econd]
  | none => [.OJUMP begin, .OEXPR .nil]

def For (begin lcont cond lbreak : Nat) (init : List Init) (econd einc : Option Node)
    (body : List Emit) : List Emit :=
  init.map Init.emits ++ .OJUMP cond :: .OBLOOP :: .OLABEL begin :: (body ++
    .OLABEL lcont :: .OEXPR (einc.getD .nil) :: .OLABEL cond ::
      (forTest begin econd ++ [.OELOOP, .OLABEL lbreak]))

/-- The value switched on; an operand that is no integer is an error, and counts as 0. -/
def switchCond (cond : Node) : Node :=
  match convert cond inttype false with
  | .nil => constnode inttype 0
  | np => np

/-- The calls of `emit` for a statement and the number of labels taken after it. -/
def stmt (newlabel : Nat → Nat) (lbreak lcont : Option Nat) (n : Nat) : Stmt → List Emit × Nat
  | .skip => ([], n)
  | .seq first rest =>
    let (code, n) := stmt newlabel lbreak lcont n first
    let (more, n) := stmt newlabel lbreak lcont n rest
    (code ++ more, n)
  | .decl sym type => ([.ODECL sym type], n)
  | .expr np => ([.OEXPR np], n)
  | .label sym body =>
    let (code, n) := stmt newlabel lbreak lcont n body
    (.OLABEL sym :: code, n)
  | .goto sym => ([.OJUMP sym], n)
  | .while cond body =>
    let begin := newlabel n
    let lcont := newlabel (n + 1)
    let lbreak := newlabel (n + 2)
    let (code, n) := stmt newlabel (some lbreak) (some lcont) (n + 3) body
    (While begin lcont lbreak (cond.tree false) code, n)
  | .dowhile body cond =>
    let begin := newlabel n
    let lcont := newlabel (n + 1)
    let lbreak := newlabel (n + 2)
    let (code, n) := stmt newlabel (some lbreak) (some lcont) (n + 3) body
    (Dowhile begin lcont lbreak (cond.tree false) code, n)
  | .for init econd einc body =>
    let begin := newlabel n
    let lcont := newlabel (n + 1)
    let cond := newlabel (n + 2)
    let lbreak := newlabel (n + 3)
    let (code, n) := stmt newlabel (some lbreak) (some lcont) (n + 4) body
    (For begin lcont cond lbreak init (econd.map fun c => c.tree false) einc code, n)
  | .if cond body =>
    let lelse := newlabel n
    let (code, n) := stmt newlabel lbreak lcont (n + 1) body
    (.OBRANCH lelse :: .OEXPR (cond.tree true) :: (code ++ [.OLABEL lelse]), n)
  | .ifelse cond body other =>
    let lelse := newlabel n
    let (code, n) := stmt newlabel lbreak lcont (n + 1) body
    let lend := newlabel n
    let (code', n) := stmt newlabel lbreak lcont (n + 1) other
    (.OBRANCH lelse :: .OEXPR (cond.tree true) :: (code ++
      .OJUMP lend :: .OLABEL lelse :: (code' ++ [.OLABEL lend])), n)
  | .break => ((lbreak.map Emit.OJUMP).toList, n)
  | .continue => ((lcont.map Emit.OJUMP).toList, n)
  | .return np => ([.ORET, .OEXPR (np.getD .nil)], n)
  | .switch cond body =>
    let lbreak := newlabel n
    let (code, n) := stmt newlabel (some lbreak) lcont (n + 1) body
    (.OBSWITCH :: .OEXPR (switchCond cond) :: (code ++ [.OESWITCH lbreak, .OLABEL lbreak]), n)
  | .case np body =>
    let label := newlabel n
    let (code, n) := stmt newlabel lbreak lcont (n + 1) body
    (.OCASE label :: .OEXPR np :: .OLABEL label :: code, n)
  | .default body =>
    let label := newlabel n
    let (code, n) := stmt newlabel lbreak lcont (n + 1) body
    (.ODEFAULT label :: .OLABEL label :: code, n)

/-- The body of a function, up to its end. -/
def function (newlabel : Nat → Nat) (body : Stmt) : List Emit :=
  (stmt newlabel none none 0 body).1 ++ [.OEFUN]

/-- No `break` and no `continue` outside the statements they belong to, which is an error. -/
def Stmt.placed (inbreak incont : Bool) : Stmt → Bool
  | .seq first rest => first.placed inbreak incont && rest.placed inbreak incont
  | .label _ body | .if _ body | .case _ body | .default body => body.placed inbreak incont
  | .ifelse _ body other => body.placed inbreak incont && other.placed inbreak incont
  | .while _ body | .dowhile body _ | .for _ _ _ body => body.placed true true
  | .switch _ body => body.placed true incont
  | .break => inbreak
  | .continue => incont
  | _ => true

end Scc.Cc1
