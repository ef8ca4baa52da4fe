import Scc.Transition.Runs
import Scc.Transition.Code

set_option linter.all false

/-! The statement list of a function in cc2 (`node.c`) and what executing it does, over
any expressions. A position in the list is the suffix that starts there. -/
namespace Scc.Cc2
open Transition

/-- A symbol of the current function: `getsym` gives one symbol for every number, and a
new one each time for `TMPSYM`. -/
inductive Sym where
  | named (id : Nat)
  | tmp (numid : Nat)
  deriving DecidableEq, Repr

inductive Stmt (E : Type) where
  | OBFUN
  | OEFUN
  /-- A label: `labeldcl` turns its node into an `ONOP`. -/
  | ONOP (sym : Sym)
  | OJMP (sym : Sym)
  | OBRANCH (sym : Sym) (left : E)
  | ORET (left : Option E)
  | OBLOOP
  | OELOOP
  | OBSWITCH (left : E) (nr : Nat)
  | OCASE (sym : Sym) (left : E)
  | ODEFAULT (sym : Sym)
  | OESWITCH (sym : Sym)
  | expr (np : E)

def Stmt.labelOf : Stmt E → Option Sym
  | .ONOP sym => some sym
  | _ => none

/-- The label a statement transfers control to. -/
def Stmt.target : Stmt E → Option Sym
  | .OJMP sym | .OBRANCH sym _ | .OCASE sym _ | .ODEFAULT sym | .OESWITCH sym => some sym
  | _ => none

/-- The meaning of expressions in a state `W` of the program: the calls and stores that
evaluation performs, the state after it and the value. -/
structure Semantics (E W V Ev : Type) where
  eval : E → W → List Ev × W × V
  nonzero : V → Bool
  equal : V → V → Bool

inductive Config (E W V : Type) where
  | at (code : List (Stmt E)) (w : W)
  /-- In the table of a switch, with the label of the `default` met so far. -/
  | table (value : V) (deflabel : Option Sym) (code : List (Stmt E)) (w : W)
  | returned (value : Option V) (w : W)
  | stuck

inductive Outcome (W V : Type) where
  | returned (value : Option V) (w : W)
  | stuck

variable {E W V Ev : Type}

def goto (body : List (Stmt E)) (sym : Sym) (w : W) : Config E W V :=
  match seek Stmt.labelOf sym body with
  | some code => .at code w
  | none => .stuck

def atStep (sem : Semantics E W V Ev) (body : List (Stmt E)) (w : W) :
    List (Stmt E) → Next (Config E W V) Ev (Outcome W V)
  | [] => .done (.returned none w)
  | .OJMP sym :: _ => .more [] (goto body sym w)
  | .OBRANCH sym left :: code =>
    let (events, w', v) := sem.eval left w
    .more events (if sem.nonzero v then goto body sym w' else .at code w')
  | .ORET none :: _ => .more [] (.returned none w)
  | .ORET (some left) :: _ =>
    let (events, w', v) := sem.eval left w
    .more events (.returned (some v) w')
  | .expr np :: code =>
    let (events, w', _) := sem.eval np w
    .more events (.at code w')
  | .OBSWITCH left _ :: code =>
    let (events, w', v) := sem.eval left w
    .more events (.table v none code w')
  | .ONOP _ :: code | .OBFUN :: code | .OEFUN :: code | .OBLOOP :: code | .OELOOP :: code =>
    .more [] (.at code w)
  | .OCASE _ _ :: _ | .ODEFAULT _ :: _ | .OESWITCH _ :: _ => .more [] .stuck

def tableStep (sem : Semantics E W V Ev) (body : List (Stmt E)) (value : V)
    (deflabel : Option Sym) (w : W) :
    List (Stmt E) → Next (Config E W V) Ev (Outcome W V)
  | .OCASE sym left :: code =>
    let (events, w', v) := sem.eval left w
    .more events (if sem.equal v value then goto body sym w' else .table value deflabel code w')
  | .ODEFAULT sym :: code => .more [] (.table value (some sym) code w)
  | .OESWITCH sym :: _ => .more [] (goto body (deflabel.getD sym) w)
  | _ => .more [] .stuck

def step (sem : Semantics E W V Ev) (body : List (Stmt E)) :
    Config E W V → Next (Config E W V) Ev (Outcome W V)
  | .at code w => atStep sem body w code
  | .table value deflabel code w => tableStep sem body value deflabel w code
  | .returned value w => .done (.returned value w)
  | .stuck => .done .stuck

/-- The entries of a switch, up to its `OESWITCH`, stand together. -/
def Table : List (Stmt E) → Prop
  | .OCASE _ _ :: code | .ODEFAULT _ :: code => Table code
  | .OESWITCH _ :: _ => True
  | _ => False

/-- The statements of a whole function: `OEFUN` comes last, labels are defined once,
every label that is used is defined and every switch is followed by its table. -/
structure Function (E : Type) where
  stmts : List (Stmt E)
  closed : ∀ stmt ∈ stmts, ∀ sym, stmt.target = some sym → sym ∈ labels Stmt.labelOf stmts
  unique : (labels Stmt.labelOf stmts).Nodup
  tables : ∀ left nr code, .OBSWITCH left nr :: code <:+ stmts → Table code
  ends : ∀ code, .OEFUN :: code <:+ stmts → code = []

end Scc.Cc2

/-! The trees of cc2 (`cc2.h`) with the types of the amd64-sysv target. -/
namespace Scc.Cc2

/-- `struct type`; the bits of `flags` are the Boolean fields. -/
structure CType where
  size : Nat
  align : Nat
  id : Nat := 0
  signf : Bool := false
  intf : Bool := false
  floatf : Bool := false
  strf : Bool := false
  aggrf : Bool := false
  funf : Bool := false
  parf : Bool := false
  initf : Bool := false
  ellips : Bool := false
  arrf : Bool := false
  ptrf : Bool := false
  deriving DecidableEq, Repr

def int8type : CType := { size := 1, align := 1, signf := true, intf := true }
def int16type : CType := { size := 2, align := 2, signf := true, intf := true }
def int32type : CType := { size := 4, align := 4, signf := true, intf := true }
def int64type : CType := { size := 8, align := 8, signf := true, intf := true }
def uint8type : CType := { size := 1, align := 1, intf := true }
def uint16type : CType := { size := 2, align := 2, intf := true }
def uint32type : CType := { size := 4, align := 4, intf := true }
def uint64type : CType := { size := 8, align := 8, intf := true }
def ptrtype : CType := { size := 8, align := 8, intf := true }
def booltype : CType := { size := 1, align := 1, intf := true }
def float32type : CType := { size := 4, align := 4, floatf := true }
def float64type : CType := { size := 8, align := 8, floatf := true }
def float80type : CType := { size := 16, align := 16, floatf := true }
def voidtype : CType := { size := 0, align := 0 }
def argtype : CType := { size := 24, align := 8, arrf := true }
def funetype : CType := { size := 0, align := 0, funf := true, ellips := true }
def funtype : CType := { size := 0, align := 0, funf := true }

/-- What `node()` leaves in a node whose type is not set. -/
def zerotype : CType := { size := 0, align := 0 }

/-- The operators of trees; `OTMP` belongs to the operands of generated code. -/
inductive Op where
  | OMEM | OAUTO | OREG | OCONST | OSTRING | OLABEL
  | OADD | OSUB | OMUL | OMOD | ODIV | OSHL | OSHR | OLT | OGT | OLE | OGE | OEQ | ONE
  | OBAND | OBOR | OBXOR | OCPL | OASSIG | OSNEG | OCALL | OCALLE | OPAR | OFIELD | OCOMMA
  | OASK | OCOLON | OADDR | OAND | OOR | ONEG | OPTR | OCAST | OINC | ODEC | OBUILTIN
  deriving DecidableEq, Repr

inductive Builtin where
  | BVA_START | BVA_END | BVA_ARG | BVA_COPY
  deriving DecidableEq, Repr

/-- The union of a node; `zero` is what `node()` leaves there. -/
inductive Payload where
  | zero
  | i (u : BitVec 64)
  | s (text : List Char)
  | sym (sym : Sym)
  | subop (op : Op)
  | builtin (subop : Builtin)
  deriving DecidableEq, Repr

/-- A tree; `nil` is the null pointer. -/
inductive Node where
  | nil
  | mk (op : Op) (type : CType) (u : Payload) (left right : Node)
  deriving DecidableEq, Repr

end Scc.Cc2
