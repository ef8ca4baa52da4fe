import Scc.As.Expr

set_option linter.all false

/-! The Z80 (x80/proc.h, x80/z80.c, x80/ins.c). -/
namespace Scc.As

/-- The registers and flags in the order of their codes. -/
inductive Areg where
  | AF
  | A
  | F
  | BC
  | B
  | C
  | HL
  | H
  | L
  | DE
  | D
  | E
  | IX
  | IXL
  | IXH
  | IY
  | IYL
  | IYH
  | R
  | I
  | AF_
  | SP
  | NZ
  | Z
  | NC
  | PO
  | PE
  | P
  | M
  deriving DecidableEq, Repr

namespace Areg

def regs : List (String × Areg) :=
  [("AF", AF), ("A", A), ("F", F), ("BC", BC), ("B", B), ("C", C), ("HL", HL), ("H", H), ("L", L),
    ("DE", DE), ("D", D), ("E", E), ("IX", IX), ("IXL", IXL), ("IXH", IXH), ("IY", IY), ("IYL", IYL),
    ("IYH", IYH), ("R", R), ("I", I), ("AF'", AF_), ("SP", SP), ("NZ", NZ), ("Z", Z), ("NC", NC),
    ("PO", PO), ("PE", PE), ("P", P), ("M", M)]

def AMAX : Nat := 19

def code (r : Areg) : Nat := AMAX + (regs.map Prod.snd).idxOf r

def ofCode (value : Nat) : Option Areg := (regs.map Prod.snd).find? fun r => r.code = value

end Areg

def RCLASS : Nat := 1 <<< 0

def PCLASS : Nat := 1 <<< 1

def QCLASS : Nat := 1 <<< 2

def DDCLASS : Nat := 1 <<< 3

def QQCLASS : Nat := 1 <<< 4

def PPCLASS : Nat := 1 <<< 5

def RRCLASS : Nat := 1 <<< 6

def CCCLASS : Nat := 1 <<< 7

def SSCLASS : Nat := 1 <<< 8

def z80 : Arch := ⟨0xFFFFFFFF, .LITTLE_ENDIAN⟩

namespace State

def getclass (s : State) : Arg → M Nat
  | .reg i => do
    match Areg.ofCode (← s.sym i).value with
    | some .C => return RCLASS ||| PCLASS ||| QCLASS ||| CCCLASS ||| SSCLASS
    | some .A | some .B | some .D | some .E => return RCLASS ||| PCLASS ||| QCLASS
    | some .H | some .L => return RCLASS
    | some .IXL | some .IXH => return PCLASS
    | some .IYL | some .IYH => return QCLASS
    | some .HL => return DDCLASS ||| QQCLASS
    | some .BC | some .DE => return DDCLASS ||| QQCLASS ||| PPCLASS ||| RRCLASS
    | some .SP => return DDCLASS ||| PPCLASS ||| RRCLASS
    | some .AF => return QQCLASS
    | some .IX => return PPCLASS
    | some .IY => return RRCLASS
    | some .PO | some .PE | some .P | some .M => return CCCLASS
    | some .NZ | some .Z | some .NC => return CCCLASS ||| SSCLASS
    | _ => return 0
  | _ => return 0

/-- Whether an operand satisfies a pattern. -/
def check (s : State) : Pat → Arg → M Bool
  | .AOPT, _ | .AREP, _ => return true
  | .reg code, .reg i | .indir code, .indir i => return (← s.sym i).value = code
  | .regclass cls, arg => return (← s.getclass arg) &&& cls ≠ 0
  | .index code, .index i _ => do
    let sym ← s.sym i
    if sym.value ≠ code then return false
    else if toobig sym.value .AIMM8 then error "overflow in index"
    else return true
  | .ARST, .imm e => return (← s.value e) &&& (2 ^ 64 - 1 - 0x38) = 0
  | .AZERO, .imm _ => return true
  | .imm type, .imm e => do
    if toobig (← s.value e) type then error "overflow in immediate operand" else return true
  | .ASYM, .iden _ | .ASYM, .imm (.iden _) => return true
  | .ADIRECT, .direct _ => return true
  | .ASTR, .string _ => return true
  | _, _ => return false

/-- After `AREP` the pattern that follows stays for all the operands that are left. -/
def matches_ (s : State) (rep opt : Bool) : List Pat → List Arg → M Bool
  | [], args => return args.isEmpty
  | _ :: _, [] => return rep || opt
  | p :: ps, arg :: args => do
    if !(← s.check p arg) then return false
    else s.matches_ (rep || p = .AREP) (opt || p = .AOPT) (if rep then p :: ps else ps) args

/-- Without operands a pattern reads behind a null pointer. -/
def match_ (s : State) (op : Op) (args : Option (List Arg)) : M Bool :=
  match op.args, args with
  | none, args => return args.isNone
  | some _, none => .error .fault
  | some ps, some args => s.matches_ false false ps args

def reg2int (s : State) (arg : Arg) : M Nat := do
  match Areg.ofCode (← s.argvalue arg) with
  | some .F | some .B => return 0
  | some .C => return 1
  | some .D => return 2
  | some .E => return 3
  | some .IXH | some .IYH | some .H => return 4
  | some .IXL | some .IYL | some .L => return 5
  | some .A => return 7
  | some .BC => return 0
  | some .DE => return 1
  | some .HL | some .IX | some .IY => return 2
  | some .AF | some .SP => return 3
  | _ => .error .abort

def cc2int (s : State) (arg : Arg) : M Nat := do
  match Areg.ofCode (← s.argvalue arg) with
  | some .NZ => return 0
  | some .Z => return 1
  | some .NC => return 2
  | some .C => return 3
  | some .PO => return 4
  | some .PE => return 5
  | some .P => return 6
  | some .M => return 7
  | _ => .error .abort

def ss2int (s : State) (arg : Arg) : M Nat := do
  match Areg.ofCode (← s.argvalue arg) with
  | some .NZ => return 4
  | some .Z => return 5
  | some .NC => return 6
  | some .C => return 7
  | _ => .error .abort

end State

def byte (val : Int) : UInt8 := UInt8.ofNat (val % 256).toNat

/-- `buf[i] |= val` -/
def orbyte (buf : List UInt8) (i val : Nat) : List UInt8 := buf.modify i (· ||| UInt8.ofNat val)

/-- An operand that is there. -/
def argat (args : List Arg) (i : Nat) : M Arg :=
  match args[i]? with
  | some arg => .ok arg
  | none => .error .fault

/-- The address between parentheses. -/
def Arg.left : Arg → M Val
  | .direct e => return e
  | _ => .error .fault

/-- The offset of an index. -/
def Arg.off : Arg → M Val
  | .index _ off => return off
  | _ => .error .fault

namespace State

def dir (s : State) (op : Op) (args : List Arg) : M (List UInt8) := do
  let n := op.size
  let imm ←
    match ← argat args 1 with
    | .direct e => pure e
    | _ => do (← argat args 0).left
  let val ← s.value imm
  return ((op.bytes.set (n - 1) (byte (val / 256))).set (n - 2) (byte val))

def ld8 (s : State) (op : Op) (args : List Arg) : M (List UInt8) := do
  let par1 ← argat args 0
  let par2 ← argat args 1
  let regval1 ←
    match par1 with
    | .reg _ => do pure ((← s.reg2int par1) <<< 3)
    | _ => pure 0
  match par2 with
  | .reg _ => return orbyte op.bytes (op.size - 1) (regval1 ||| (← s.reg2int par2))
  | .imm e => return orbyte (op.bytes.set (op.size - 1) (byte (← s.value e))) (op.size - 2) regval1
  | _ => return orbyte op.bytes (op.size - 1) regval1

def alu16 (s : State) (op : Op) (args : List Arg) : M (List UInt8) := do
  let par ←
    match args with
    | _ :: par :: _ | [par] => pure par
    | [] => .error .fault
  return orbyte op.bytes (op.size - 1) ((← s.reg2int par) <<< 4)

def ld16 (s : State) (op : Op) (args : List Arg) : M (List UInt8) := do
  match args with
  | first :: second :: _ => do
    let n := op.size
    let (dst, src) :=
      match first with
      | .reg _ => (first, second)
      | _ => (second, first)
    let val ←
      match src with
      | .direct e => s.value e
      | _ => s.argvalue src
    let buf := (op.bytes.set (n - 1) (byte (val / 256))).set (n - 2) (byte val)
    return orbyte buf (n - 3) ((← s.reg2int dst) <<< 4)
  | _ => s.alu16 op args

def alu8 (s : State) (op : Op) (args : List Arg) : M (List UInt8) := do
  let (par, shift) ←
    match args with
    | _ :: par :: _ => pure (par, 0)
    | [par] => pure (par, 3)
    | [] => .error .fault
  let val ←
    match par with
    | .imm e => s.value e
    | .reg _ => do pure ((← s.reg2int par) <<< shift)
    | .index _ off => s.value off
    | .indir _ => pure 0
    | _ => .error .abort
  return orbyte op.bytes (op.size - 1) val

def idx (s : State) (op : Op) (args : List Arg) : M (List UInt8) := do
  let first ← argat args 0
  let second ← argat args 1
  let n := op.size
  let (index, other, shift) :=
    match first with
    | .index .. => (first, second, 0)
    | _ => (second, first, 3)
  let idx ← s.value (← index.off)
  match other with
  | .reg _ => return orbyte (op.bytes.set (n - 1) (byte idx)) (n - 2) ((← s.reg2int other) <<< shift)
  | _ => return (op.bytes.set (n - 1) (byte (← s.argvalue other))).set (n - 2) (byte idx)

def inout (s : State) (op : Op) (args : List Arg) : M (List UInt8) := do
  let first ← argat args 0
  let second ← argat args 1
  let (port, value) :=
    match first with
    | .direct _ | .indir _ => (first, second)
    | _ => (second, first)
  let val ←
    match port, value with
    | .direct e, _ => s.value e
    | _, .reg _ => do pure ((← s.reg2int value) <<< 3)
    | _, _ => pure 0
  return orbyte op.bytes (op.size - 1) val

def rot_bit (s : State) (op : Op) (args : List Arg) : M (List UInt8) := do
  let n := op.size
  let (buf, args) ←
    match args with
    | .imm e :: rest => do pure (orbyte op.bytes (n - 1) ((← s.value e) <<< 3), rest)
    | _ => pure (op.bytes, args)
  match args with
  | [.index _ off] => return buf.set (n - 2) (byte (← s.value off))
  | .index _ off :: par :: _ => do
    let buf := buf.set (n - 2) (byte (← s.value off))
    return orbyte buf (n - 1) (← s.reg2int par)
  | .reg i :: _ => return orbyte buf (n - 1) (← s.reg2int (.reg i))
  | .indir _ :: _ => return buf
  | [] => .error .fault
  | _ => .error .abort

def im (s : State) (op : Op) (args : List Arg) : M (List UInt8) := do
  let val := (← s.argvalue (← argat args 0)) % 2 ^ 32
  return orbyte op.bytes (op.size - 1) ((if val > 0 then val + 1 else val) <<< 3)

def branch (relative : Bool) (s : State) (op : Op) (args : List Arg) : M (List UInt8) := do
  let n := op.size
  let first ← argat args 0
  let (flag, imm) :=
    match first with
    | .reg _ => (true, args[1]?)
    | .imm _ => (false, some first)
    | _ => (false, none)
  let (buf, i) ←
    match imm with
    | none => pure (op.bytes, n)
    | some imm => do
      let val ← s.argvalue imm
      if relative then
        let pc ← s.getpc
        pure (op.bytes.set (n - 1) (byte ((val : Int) - (pc - 2))), n - 1)
      else pure ((op.bytes.set (n - 1) (byte (val / 256))).set (n - 2) (byte val), n - 2)
  if flag then
    let code ← if relative then s.ss2int first else s.cc2int first
    return orbyte buf (i - 1) (code <<< 3)
  else return buf

def jp (s : State) (op : Op) (args : List Arg) : M (List UInt8) := branch false s op args

def jr (s : State) (op : Op) (args : List Arg) : M (List UInt8) := branch true s op args

def rst (s : State) (op : Op) (args : List Arg) : M (List UInt8) := do
  return orbyte (op.bytes.take 1) 0 (← s.argvalue (← argat args 0))

end State

end Scc.As
