import Mathlib.Data.List.Basic
import Mathlib.Algebra.Group.Nat.Defs

set_option linter.all false

/-! The typed trees of cc1 (`cc1.h`): operators, types, symbols and nodes, with the types
of the amd64-sysv target. A type is the record of the fields its users read; derived
types are told apart by `id`. -/
namespace Scc.Cc1

inductive TypeOp where
  | FTN | PTR | ARY | INT | ENUM | FLOAT | VOID | STRUCT | UNION | ELLIPSIS
  deriving DecidableEq, Repr

/-- `struct type`; the `prop` bits are the Boolean fields. -/
structure CType where
  op : TypeOp
  letter : Char
  id : Nat
  size : Nat
  rank : Nat
  tsigned : Bool
  tinteger : Bool
  tarith : Bool
  taggreg : Bool
  tellipsis : Bool
  deriving DecidableEq, Repr

def integerType (letter : Char) (size rank : Nat) (tsigned : Bool) : CType :=
  ⟨.INT, letter, 0, size, rank, tsigned, true, true, false, false⟩

def floatType (letter : Char) (size rank : Nat) : CType :=
  ⟨.FLOAT, letter, 0, size, rank, false, false, true, false, false⟩

def voidtype : CType := ⟨.VOID, '0', 0, 0, 0, false, false, false, false, false⟩
def pvoidtype : CType := ⟨.PTR, 'P', 0, 8, 0, false, false, false, false, false⟩
def booltype : CType := integerType 'B' 1 0 false
def chartype : CType := integerType 'C' 1 1 true
def uchartype : CType := integerType 'K' 1 1 false
def shorttype : CType := integerType 'I' 2 2 true
def ushorttype : CType := integerType 'N' 2 2 false
def inttype : CType := integerType 'W' 4 3 true
def uinttype : CType := integerType 'Z' 4 3 false
def longtype : CType := integerType 'Q' 8 4 true
def ulongtype : CType := integerType 'O' 8 4 false
def llongtype : CType := integerType 'Q' 8 5 true
def ullongtype : CType := integerType 'O' 8 5 false
def floattype : CType := floatType 'J' 4 6
def doubletype : CType := floatType 'D' 8 7
def ldoubletype : CType := floatType 'H' 16 8

/-- `mktype` for an enumeration: the letter and the rank of `int`, without `TSIGNED`. -/
def enumType (id : Nat) : CType :=
  ⟨.ENUM, 'W', id, 4, 3, false, true, true, false, false⟩

inductive Op where
  | OADD | OMUL | OSUB | OINC | ODEC | ODIV | OMOD | OSHL | OSHR | OBAND | OBXOR | OBOR
  | OSNEG | ONEG | OCPL | OAND | OOR | OEQ | ONE | OLT | OGE | OLE | OGT
  | OASSIGN | OA_MUL | OA_DIV | OA_MOD | OA_ADD | OA_SUB | OA_SHL | OA_SHR | OA_AND | OA_XOR
  | OA_OR | OADDR | OCOMMA | OCAST | OPTR | OSYM | OASK | OCOLON | OFIELD | OPAR | OCALL
  | OCALLE | OBUILTIN
  deriving DecidableEq, Repr

/-- `struct symbol`, with the storage flags that `emitvar` looks at. -/
structure Symbol where
  id : Nat
  name : String
  slocal : Bool
  sprivate : Bool
  sglobal : Bool
  sregister : Bool
  sfield : Bool
  sextern : Bool
  sinitlst : Bool
  /-- `u.i` and `u.u` share their 64 bits. -/
  u : BitVec 64
  deriving DecidableEq, Repr

/-- A tree; `nil` is the null pointer. Of the flags only `NCONST` is kept. -/
inductive Node where
  | nil
  | mk (op : Op) (nconst : Bool) (type : CType) (sym : Option Symbol) (left right : Node)
  deriving DecidableEq, Repr

def Node.type : Node → CType
  | .nil => voidtype
  | .mk _ _ type _ _ _ => type

/-- `node()`: a new node has no symbol and is no constant. -/
def node (op : Op) (type : CType) (left right : Node) : Node :=
  .mk op false type none left right

/-- `constnode()` of an integer constant. -/
def constnode (type : CType) (u : BitVec 64) : Node :=
  .mk .OSYM true type (some ⟨0, "", false, false, false, false, false, false, false, u⟩) .nil .nil

/-! The construction of typed trees in cc1 (`expr.c`): conversions, arithmetic and
comparison operators, and the conditions of statements. `errorp` is an error of
the function that reports it, since nothing is emitted after it. -/

/-- `eqtype` for `EQUAL`; one record stands for each derived type. -/
def eqtype (tp1 tp2 : CType) : Bool :=
  tp1 = tp2 || (tp1.op = tp2.op &&
    match tp1.op with
    | .INT | .FLOAT => tp1.letter = tp2.letter
    | _ => false)

/-- `cmpnode` of an integer constant with 0 or 1. -/
def cmpnode (np : Node) (val : Nat) : Bool :=
  match np with
  | .mk _ true type (some sym) _ _ =>
    match type.op with
    | .PTR | .INT => sym.u.toNat = val
    | _ => false
  | _ => false

/-- `nil` when there is no conversion. -/
def convert (np : Node) (newtp : CType) (iscast : Bool) : Node :=
  let oldtp := np.type
  let op := newtp.op
  let arith := op = .INT || op = .FLOAT || op = .ENUM
  let good :=
    (iscast && op = .VOID) ||
    match oldtp.op with
    | .ENUM | .INT => (op = .PTR && (iscast || cmpnode np 0)) || arith
    | .FLOAT => arith
    | .PTR =>
      if op = .ENUM || op = .INT then iscast
      else op = .PTR && (iscast || newtp = pvoidtype || oldtp = pvoidtype)
    | _ => false
  if eqtype newtp oldtp then np
  else if good then node .OCAST newtp np .nil
  else .nil

/-- `getlimits(tp)->max.i` -/
def maxLimit (tp : CType) : Nat := 2 ^ (8 * tp.size - if tp.tsigned then 1 else 0) - 1

def promotedType (tp : CType) : CType :=
  match tp.op with
  | .ENUM | .INT =>
    if tp.rank ≥ inttype.rank then tp
    else if maxLimit tp ≤ maxLimit inttype then inttype
    else uinttype
  | _ => doubletype

/-- Integer promotion and, for every floating type, conversion to `double`. -/
def promote (np : Node) : Node :=
  match np.type.op with
  | .ENUM | .INT =>
    if np.type.rank ≥ inttype.rank then np
    else
      match convert np (promotedType np.type) true with
      | .nil => np
      | new => new
  | _ =>
    match convert np doubletype true with
    | .nil => np
    | new => new

/-- Which operand `arithconv` converts: the second one when positive. -/
def convDirection (tp1 tp2 : CType) : Int :=
  if tp1 = tp2 then 0
  else if tp1.tsigned = tp2.tsigned || tp1.op = .FLOAT || tp2.op = .FLOAT then
    tp1.rank - tp2.rank
  else if !tp1.tsigned then
    if tp1.rank ≥ tp2.rank || maxLimit tp1 ≥ maxLimit tp2 then 1 else -1
  else if tp2.rank ≥ tp1.rank || maxLimit tp2 ≥ maxLimit tp1 then -1
  else 1

def arithconv (p1 p2 : Node) : Node × Node :=
  let np1 := promote p1
  let np2 := promote p2
  let dir := convDirection np1.type np2.type
  if dir > 0 then (np1, convert np2 np1.type true)
  else if dir < 0 then (convert np1 np2.type true, np2)
  else (np1, np2)

def pcompare (op : Op) (lp rp : Node) : Except String Node := do
  let lp ←
    if lp.type.tinteger then
      match convert lp rp.type false with
      | .nil => throw "incompatible types in comparison"
      | np => pure np
    else pure lp
  let rp ←
    if rp.type.tinteger then
      match convert rp lp.type false with
      | .nil => throw "incompatible types in comparison"
      | np => pure np
    else pure rp
  return convert (node op pvoidtype lp rp) inttype true

def compare (op : Op) (lp rp : Node) : Except String Node :=
  if lp.type.op = .PTR || rp.type.op = .PTR then pcompare op lp rp
  else if lp.type.tarith && rp.type.tarith then
    let (lp, rp) := arithconv lp rp
    .ok (convert (node op lp.type lp rp) inttype true)
  else .error "incompatible types in comparison"

/-- `negop`; the operators it aborts on are not comparisons. -/
def negop : Op → Op
  | .OEQ => .ONE
  | .ONE => .OEQ
  | .OLT => .OGE
  | .OGE => .OLT
  | .OLE => .OGT
  | .OGT => .OLE
  | op => op

def isComparison : Op → Bool
  | .OEQ | .ONE | .OLT | .OGE | .OLE | .OGT => true
  | _ => false

def exp2cond (np : Node) (neg : Bool) : Except String Node :=
  if np.type.taggreg then .error "used struct/union type value where scalar is required"
  else
    match np with
    | .mk op nconst type sym left right =>
      if op = .ONEG || op = .OOR || op = .OAND then
        .ok (if neg then node .ONEG inttype np .nil else np)
      else if isComparison op then
        .ok (if neg then .mk (negop op) nconst type sym left right else np)
      else compare (if neg then .OEQ else .ONE) np (constnode inttype 0)
    | .nil => .error "unexpected"

def integerop (op : Op) (lp rp : Node) : Except String Node :=
  if !lp.type.tinteger || !rp.type.tinteger then .error "operator requires integer operands"
  else
    match op with
    | .OA_MOD | .OA_SHL | .OA_SHR | .OA_AND | .OA_XOR | .OA_OR =>
      .ok (node op lp.type lp (convert rp lp.type false))
    | _ =>
      let (lp, rp) := arithconv lp rp
      .ok (node op lp.type lp rp)

/-- `arithmetic`, over the treatment of pointer operands. -/
def arithmetic (parithmetic : Op → Node → Node → Except String Node) (op : Op) (lp rp : Node) :
    Except String Node :=
  if lp.type.tarith && rp.type.tarith then
    match op with
    | .OA_ADD | .OA_SUB | .OA_MUL | .OA_DIV =>
      .ok (node op lp.type lp (convert rp lp.type false))
    | _ =>
      let (lp, rp) := arithconv lp rp
      .ok (node op lp.type lp rp)
  else if lp.type.op = .PTR || rp.type.op = .PTR then
    match op with
    | .OADD | .OSUB | .OA_ADD | .OA_SUB | .OINC | .ODEC => parithmetic op lp rp
    | _ => .error "incorrect arithmetic operands"
  else .error "incorrect arithmetic operands"

def incdec (parithmetic : Op → Node → Node → Except String Node) (np : Node) (op : Op) :
    Except String Node :=
  if np.type.op = .PTR || np.type.tarith then
    arithmetic parithmetic op np (constnode inttype 1)
  else .error "wrong type argument to increment or decrement"

end Scc.Cc1
