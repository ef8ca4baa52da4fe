import Scc.Cc2.Statement

set_option linter.all false

/-! The instructions that the QBE target generates and what executing them does. The code
of an expression that is not opened is one instruction, `eval`, with an arbitrary
meaning. A position in the code is the suffix that starts there. -/
namespace Scc.Cc2.Qbe
open Transition

/-- An operand, as `addr()` reads it from a node. -/
inductive Addr where
  | const (u : BitVec 64)
  | tmp (numid : Nat)
  | var (sym : Sym)
  deriving DecidableEq, Repr

/-- The letters of QBE's base types. -/
inductive Class where
  | w | l | s | d
  deriving DecidableEq, Repr

inductive Inst where
  | ASLABEL (sym : Sym)
  /-- The code that `rhs` emits for a tree, with the operand that it returns. -/
  | eval (np : Node) (dst : Nat)
  | copyw (dst : Nat) (src : Addr)
  | binary (op : Op) (letter : Class) (unsigned : Bool) (dst : Nat) (l r : Addr)
  | ASBRANCH (cond : Addr) (ifyes ifno : Sym)
  | ASJMP (sym : Sym)
  deriving DecidableEq, Repr

def Inst.labelOf : Inst → Option Sym
  | .ASLABEL sym => some sym
  | _ => none

/-- The integer instructions; a comparison gives 1 or 0. -/
def alu {n : Nat} (op : Op) (unsigned : Bool) (l r : BitVec n) : BitVec n :=
  match op with
  | .OADD => l + r
  | .OSUB => l - r
  | .OMUL => l * r
  | .ODIV => if unsigned then l.udiv r else l.sdiv r
  | .OMOD => if unsigned then l.umod r else l.srem r
  | .OSHL => l <<< (r.toNat % n)
  | .OSHR => if unsigned then l >>> (r.toNat % n) else l.sshiftRight (r.toNat % n)
  | .OBAND => l &&& r
  | .OBOR => l ||| r
  | .OBXOR => l ^^^ r
  | .OEQ => if l = r then 1 else 0
  | .ONE => if l = r then 0 else 1
  | .OLT => if (if unsigned then l.ult r else l.slt r) then 1 else 0
  | .OLE => if (if unsigned then l.ule r else l.sle r) then 1 else 0
  | .OGT => if (if unsigned then r.ult l else r.slt l) then 1 else 0
  | .OGE => if (if unsigned then r.ule l else r.sle l) then 1 else 0
  | _ => 0

/-- The evaluation of trees: the side effects in order, the state after it and the
operand; and the addresses of variables and the arithmetic of floating operands. -/
structure Meaning (W Ev : Type) where
  value : Node → W → List Ev × W × BitVec 64
  address : Sym → BitVec 64
  float : Op → Class → BitVec 64 → BitVec 64 → BitVec 64

abbrev Env := Nat → BitVec 64

variable {W Ev : Type}

def Addr.read (m : Meaning W Ev) (env : Env) : Addr → BitVec 64
  | .const u => u
  | .tmp numid => env numid
  | .var sym => m.address sym

def Env.set (env : Env) (dst : Nat) (v : BitVec 64) : Env :=
  fun numid => if numid = dst then v else env numid

@[simp] theorem Env.set_same (env : Env) (dst : Nat) (v : BitVec 64) : env.set dst v dst = v :=
  if_pos rfl

/-- A word is the low half of an operand. -/
def word (v : BitVec 64) : BitVec 32 := v.setWidth 32

@[simp] theorem word_setWidth (v : BitVec 32) : word (v.setWidth 64) = v := by
  simp [word]

def binary (m : Meaning W Ev) (op : Op) (letter : Class) (unsigned : Bool) (l r : BitVec 64) :
    BitVec 64 :=
  match letter with
  | .w => (alu op unsigned (word l) (word r)).setWidth 64
  | .l => alu op unsigned l r
  | letter => m.float op letter l r

inductive Point (W : Type) where
  | at (code : List Inst) (env : Env) (w : W)
  | stuck

def jump (prog : List Inst) (sym : Sym) (env : Env) (w : W) : Point W :=
  match seek Inst.labelOf sym prog with
  | some code => .at code env w
  | none => .stuck

/-- `jnz` tests a word. -/
def instStep (m : Meaning W Ev) (prog : List Inst) (env : Env) (w : W) :
    List Inst → Next (Point W) Ev (Option W)
  | [] => .done (some w)
  | .ASLABEL _ :: code => .more [] (.at code env w)
  | .eval np dst :: code =>
    let (events, w, v) := m.value np w
    .more events (.at code (env.set dst v) w)
  | .copyw dst src :: code =>
    .more [] (.at code (env.set dst ((word (src.read m env)).setWidth 64)) w)
  | .binary op letter unsigned dst l r :: code =>
    let v := binary m op letter unsigned (l.read m env) (r.read m env)
    .more [] (.at code (env.set dst v) w)
  | .ASBRANCH cond ifyes ifno :: _ =>
    .more [] (jump prog (if word (cond.read m env) = 0 then ifno else ifyes) env w)
  | .ASJMP sym :: _ => .more [] (jump prog sym env w)

def machine (m : Meaning W Ev) (prog : List Inst) : Point W → Next (Point W) Ev (Option W)
  | .at code env w => instStep m prog env w code
  | .stuck => .done none

end Scc.Cc2.Qbe

/-! How the QBE target picks the instruction for an integer operation and for a conversion
between integers by the types of the nodes (`rhs` and `cast` of `cgen.c`). -/
namespace Scc.Cc2.Qbe

/-- The class and the signedness that `rhs` gives to a binary operator; it asserts that the
size is 4 or 8. -/
def opclass (tp : CType) : Option (Class × Bool) :=
  match tp.floatf, tp.size with
  | false, 4 => some (.w, !tp.signf)
  | false, 8 => some (.l, !tp.signf)
  | true, 4 => some (.s, !tp.signf)
  | true, 8 => some (.d, !tp.signf)
  | _, _ => none

/-- A word extended from its `bytes` low bytes. -/
def extended (bytes : Nat) (unsigned : Bool) (v : BitVec 64) : BitVec 64 :=
  if unsigned then (v.setWidth (8 * bytes)).setWidth 64 else (v.setWidth (8 * bytes)).signExtend 64

/-- `cast` between integers: an operand that is wide enough stays as it is. -/
def castint (td ts : CType) (v : BitVec 64) : BitVec 64 :=
  let didx := if td.size < 4 then 4 else td.size
  if didx ≤ ts.size then v else extended ts.size (!ts.signf) v

end Scc.Cc2.Qbe

/-! The code generator of the QBE target (`cgen.c`) for conditions: the branching code of
`bool` and the value code of `rhs`. A generator takes the last number given out by
`getsym(TMPSYM)` and returns its code and the last number after it. -/
namespace Scc.Cc2.Qbe

/-- An operand with the type of its node. -/
structure Operand where
  addr : Addr
  type : CType
  deriving DecidableEq, Repr

/-- `newlabel()` -/
def newlabel (num : Nat) : Sym := .tmp (num + 1)

/-- `rhs` of a tree that is neither `!`, `&&` nor `||`. -/
def operand (num : Nat) (np : Node) : List Inst × Operand × Nat :=
  match np with
  | .mk .OCONST type (.i u) _ _ => ([], ⟨.const u, type⟩, num)
  | .mk _ type _ _ _ => ([.eval np (num + 1)], ⟨.tmp (num + 1), type⟩, num + 1)
  | .nil => ([.eval .nil (num + 1)], ⟨.tmp (num + 1), voidtype⟩, num + 1)

/-- The branch at a leaf. -/
def branch (num : Nat) (np : Node) (ifyes ifno : Sym) : List Inst × Nat :=
  let (code, cond, num) := operand num np
  (code ++ [.ASBRANCH cond.addr ifyes ifno], num)

def bool (num : Nat) (np : Node) (ifyes ifno : Sym) : List Inst × Nat :=
  match np with
  | .mk op type u l r =>
    if op = .ONEG then bool num l ifno ifyes
    else if op = .OAND then
      let label := newlabel num
      let (first, num) := bool (num + 1) l label ifno
      let (second, num) := bool num r ifyes ifno
      (first ++ .ASLABEL label :: second, num)
    else if op = .OOR then
      let label := newlabel num
      let (first, num) := bool (num + 1) l ifyes label
      let (second, num) := bool num r ifyes ifno
      (first ++ .ASLABEL label :: second, num)
    else branch num (.mk op type u l r) ifyes ifno
  | .nil => branch num .nil ifyes ifno

def logical : Node → Bool
  | .mk op _ _ _ _ => op = .ONEG || op = .OAND || op = .OOR
  | .nil => false

/-- `rhs` of a condition. -/
def rhs (num : Nat) (np : Node) : List Inst × Operand × Nat :=
  if logical np then
    let ifyes := newlabel num
    let ifno := newlabel (num + 1)
    let phi := newlabel (num + 2)
    let tmp := num + 4
    let (code, num) := bool (num + 4) np ifyes ifno
    (code ++ [.ASLABEL ifyes, .copyw tmp (.const 1), .ASJMP phi, .ASLABEL ifno,
        .copyw tmp (.const 0), .ASLABEL phi], ⟨.tmp tmp, int32type⟩, num)
  else operand num np

end Scc.Cc2.Qbe
