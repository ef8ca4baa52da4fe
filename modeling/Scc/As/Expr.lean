import Scc.As.Symbol

set_option linter.all false

/-! The expressions of the assembler (as/expr.c) and its operands (as/parser.c, x80/ins.c). -/
namespace Scc.As

/-- The node of an expression; a unary operator on a name leaves a node without a symbol. -/
inductive Val where
  | number (val : Nat)
  | iden (sym : Nat)
  | unary
  deriving DecidableEq

/-- The node of an operand, by its `addr`. -/
inductive Arg where
  | reg (sym : Nat)
  | string (text : Name)
  | iden (sym : Nat)
  | imm (e : Val)
  | direct (e : Val)
  | indir (sym : Nat)
  | index (sym : Nat) (off : Val)
  deriving DecidableEq

namespace State

/-- Whether a node is constant, and its value. -/
def constant (s : State) : Val → M (Option Nat)
  | .number val => return some val
  | .iden i => do
    let sym ← s.sym i
    return if sym.flags.FDEF then some sym.value else none
  | .unary => return none

end State

/-- The operators as `fold` has them. -/
def fold (op : Binop) (lv rv : Nat) : M Nat :=
  let sub := (lv + (2 ^ 64 - rv)) % 2 ^ 64
  match op with
  | .times => return sub
  | .divide => if rv = 0 then error "division by 0" else return lv / rv
  | .mod => if rv = 0 then error "division by 0" else return lv % rv
  | .SHL => return (lv <<< (rv % 64)) % 2 ^ 64
  | .SHR => return lv >>> (rv % 64)
  | .plus => return (lv + rv) % 2 ^ 64
  | .minus => return sub
  | .lt => return if lv < rv then 1 else 0
  | .gt => return if lv > rv then 1 else 0
  | .eq => return if lv = rv then 1 else 0
  | .GE => return if lv ≥ rv then 1 else 0
  | .LE => return if lv ≤ rv then 1 else 0
  | .or => return lv ||| rv
  | .xor => return lv ^^^ rv
  | .and => .error .abort

/-- An operator that `mul` reads, which goes on with the node of its left operand after `fold` has given
that node back. -/
def Binop.multiplicative : Binop → Bool
  | .times | .divide | .mod | .SHL | .SHR => true
  | _ => false

def unaryop (op : Unop) : Val → Val
  | .number val =>
    match op with
    | .not => .number (if val = 0 then 1 else 0)
    | .plus => .number val
    | .minus => .number ((2 ^ 64 - val) % 2 ^ 64)
  | _ => .unary

namespace State

def binary (s : State) (op : Binop) (l r : Val) : M Val := do
  match ← s.constant l, ← s.constant r with
  | some lv, some rv => do
    let val ← fold op lv rv
    if op.multiplicative then .error .fault else return .number val
  | _, _ => .error .abort

/-- The register of a name, or an identifier that is none. -/
def getreg (s : State) (name : Name) : M (State × Nat) := do
  let (s, i) ← s.lookup name
  if (← s.sym i).flags.FREG then return (s, i) else error "unexpected '%s'"

def getiden (s : State) (name : Name) : M (State × Nat) := do
  let (s, i) ← s.lookup name
  if (← s.sym i).flags.FREG then error "unexpected '%s'" else return (s, i)

def expr (s : State) : Expr → M (State × Val)
  | .number val => return (s, .number val.toNat)
  | .iden name => do
    let (s, i) ← s.getiden name
    return (s, .iden i)
  | .unary op e => do
    let (s, e) ← s.expr e
    return (s, unaryop op e)
  | .binary op l r => do
    let (s, l) ← s.expr l
    let (s, r) ← s.expr r
    return (s, ← s.binary op l r)

def operand (s : State) : Operand → M (State × Arg)
  | .reg name => do
    let (s, i) ← s.getreg name
    return (s, .reg i)
  | .string text => return (s, .string text)
  | .iden name => do
    let (s, i) ← s.getiden name
    return (s, .iden i)
  | .imm e => do
    let (s, e) ← s.expr e
    return (s, .imm e)
  | .direct e => do
    let (s, e) ← s.expr e
    return (s, .direct e)
  | .indir name => do
    let (s, i) ← s.getreg name
    return (s, .indir i)
  | .index name off => do
    let (s, i) ← s.getreg name
    let (s, off) ← s.expr off
    return (s, .index i off)
  | .bad msg => error msg

def operands (s : State) : List Operand → M (State × List Arg)
  | [] => return (s, [])
  | op :: ops => do
    let (s, arg) ← s.operand op
    let (s, args) ← s.operands ops
    return (s, arg :: args)

end State

def NARGS : Nat := 20

namespace State

def getargs (s : State) : Option (List Operand) → M (State × Option (List Arg))
  | none => return (s, none)
  | some ops => do
    let (s, args) ← s.operands ops
    if args.length ≥ NARGS - 1 then error "too many arguments in one instruction"
    return (s, some args)

/-- The value of the symbol of an expression. -/
def value (s : State) : Val → M Nat
  | .number val => return val
  | .iden i => return (← s.sym i).value
  | .unary => .error .fault

/-- `np->sym->value`, where a string has a symbol with value 0. -/
def argvalue (s : State) : Arg → M Nat
  | .reg i => return (← s.sym i).value
  | .string _ => return 0
  | .iden i => return (← s.sym i).value
  | .imm e => s.value e
  | _ => .error .fault

/-- `np->sym->flags & FABS` -/
def argabs (s : State) : Arg → M Bool
  | .reg i => return (← s.sym i).flags.FABS
  | .string _ => return true
  | .iden i => return (← s.sym i).flags.FABS
  | .imm (.number _) => return true
  | .imm (.iden i) => return (← s.sym i).flags.FABS
  | _ => .error .fault

/-- `np->sym->name`, which has no defined content for a number. -/
def argname (s : State) : Arg → M Name
  | .reg i => return (← s.sym i).name
  | .string text => return text
  | .iden i => return (← s.sym i).name
  | .imm (.iden i) => return (← s.sym i).name
  | _ => .error .fault

end State

/-- The symbol in the table that `np->sym` is, if it is one. -/
def Arg.symbol : Arg → M (Option Nat)
  | .reg i => return some i
  | .string _ => return none
  | .iden i => return some i
  | .imm (.number _) => return none
  | .imm (.iden i) => return some i
  | _ => .error .fault

section
attribute [local simp] fold
end

end Scc.As

/-! The directives of the assembler (as/ins.c). -/
namespace Scc.As

/-- The patterns of the operands of an instruction; a register is its code. -/
inductive Pat where
  | AOPT
  | AREP
  | reg (code : Nat)
  | indir (code : Nat)
  | regclass (cls : Nat)
  | index (code : Nat)
  | ARST
  | AZERO
  | imm (type : Imm)
  | ASYM
  | ADIRECT
  | ASTR
  deriving DecidableEq

inductive Format where
  | noargs
  | string
  | ascii
  | defb
  | defw
  | defd
  | defq
  | equ
  | common
  | size
  | type
  | section_
  | text
  | data
  | bss
  | extrn
  | global
  | align
  | end_
  | include
  | dir
  | ld8
  | alu16
  | ld16
  | alu8
  | idx
  | inout
  | rot_bit
  | im
  | jp
  | jr
  | rst
  deriving DecidableEq

structure Op where
  size : Nat
  format : Format
  bytes : List UInt8
  args : Option (List Pat)

inductive Endian where
  | BIG_ENDIAN
  | LITTLE_ENDIAN

structure Arch where
  maxaddr : Nat
  endian : Endian

/-- What `symexp` sets. -/
inductive Which where
  | EQU
  | COMMON
  | SIZE
  | TYPE
  deriving DecidableEq

def tobytes (v nbytes : Nat) (endian : Endian) : M (List UInt8) :=
  let bytes := (List.range nbytes).map fun i => UInt8.ofNat (v / 256 ^ i)
  if v / 256 ^ nbytes ≠ 0 then error "overflow in immediate value"
  else
    match endian with
    | .LITTLE_ENDIAN => return bytes
    | .BIG_ENDIAN => return bytes.reverse

section
variable (arch : Arch)

namespace State

def noargs (s : State) (op : Op) : M State := s.emit arch.maxaddr (op.bytes.take op.size)

/-- `string` and `ascii`. -/
def xstring (s : State) : List Arg → M State
  | [] => return s
  | arg :: args => do
    let text ← s.argname arg
    let s ← s.emit arch.maxaddr (text.map fun c => UInt8.ofNat c.toNat)
    s.xstring args

def def_ (s : State) (siz : Nat) : List Arg → M State
  | [] => return s
  | arg :: args => do
    let _ ← s.argabs arg
    let bytes ← tobytes (← s.argvalue arg) siz arch.endian
    let s ← s.emit arch.maxaddr bytes
    s.def_ siz args

/-- The symbol and the expression of a line, whose label is the symbol where there is only one operand. -/
def symexpargs (s : State) (args : List Arg) : M (Option Nat × Arg) :=
  match args, s.linesym with
  | arg :: exp :: _, _ => do return (← arg.symbol, exp)
  | [exp], some i => return (some i, exp)
  | _, _ => error "%s pseudo instruction lacks a label"

def symexp (which : Which) (s : State) (args : List Arg) : M State := do
  let (sym, exp) ← s.symexpargs args
  if !(← s.argabs exp) then error "%s expression is not an absolute expression"
  let value ← s.argvalue exp
  match sym with
  | none => return s
  | some i =>
    match which with
    | .EQU =>
      if s.pass = 1 && (← s.sym i).flags.FDEF then error "redefinition of symbol '%s'"
      return (s.setSym i fun sym => { sym with value, flags := { sym.flags with FDEF := true } }).note (.equ i)
    | .COMMON =>
      return s.setSym i fun sym => { sym with size := value, flags := { sym.flags with FCOMMON := true } }
    | .SIZE => return s.setSym i fun sym => { sym with size := value }
    | .TYPE => return s.setSym i fun sym => { sym with dtype := value }

def section_ (s : State) : List Arg → M State
  | arg :: rest => do
    let name ← s.argname arg
    let attr ←
      match rest with
      | [] => pure []
      | attr :: _ => s.argname attr
    s.defsec name attr
  | [] => .error .fault

def setflags (s : State) (f : Symflags → Symflags) : List Arg → M State
  | arg :: _ => do
    match ← arg.symbol with
    | none => return s
    | some i => return s.setSym i fun sym => { sym with flags := f sym.flags }
  | [] => .error .fault

def extrn (s : State) (args : List Arg) : M State :=
  s.setflags (fun flags => { flags with FEXTERN := true }) args

def global (s : State) (args : List Arg) : M State :=
  s.setflags (fun flags => { flags with FGLOBAL := true }) args

/-- So many bytes, one at a time. -/
def pad (s : State) : Nat → M State
  | 0 => return s
  | n + 1 => do
    let s ← s.emit arch.maxaddr [0]
    s.pad n

def align (s : State) : List Arg → M State
  | arg :: _ => do
    if !(← s.argabs arg) then error "align expression is not an absolute expression"
    let value ← s.argvalue arg
    if value = 0 then return s
    else
      let al := value - 1
      let pc ← s.getpc
      let pcal := ((pc + al) % 2 ^ 64) &&& (2 ^ 64 - 1 - al)
      s.pad arch ((pcal + (2 ^ 64 - pc)) % 2 ^ 64)
  | [] => .error .fault

end State

end

end Scc.As
