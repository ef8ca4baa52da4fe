import Scc.Cc2.Qbe.Inst
import Scc.Cc2.Qbe.Casts
import Scc.Transition.Code

set_option linter.all false

/-! The code generator of the QBE target for whole trees (`cgen.c`, with `code.c` of cc2). A generator
gives up where the program aborts or uses a null pointer. -/
namespace Scc.Cc2.Qbe.Code
open Transition

/-- `enum asmop`, without `ASLABEL`, the jumps and `ASRET`. -/
inductive AsmOp where
  | ASSTB | ASSTH | ASSTW | ASSTL | ASSTM | ASSTS | ASSTD
  | ASLDSB | ASLDUB | ASLDSH | ASLDUH | ASLDSW | ASLDUW | ASLDL | ASLDS | ASLDD
  | ASADDW | ASSUBW | ASMULW | ASMODW | ASUMODW | ASDIVW | ASUDIVW | ASSHLW | ASSHRW | ASUSHRW
  | ASLTW | ASULTW | ASGTW | ASUGTW | ASLEW | ASULEW | ASGEW | ASUGEW | ASEQW | ASNEW | ASBANDW | ASBORW | ASBXORW
  | ASADDL | ASSUBL | ASMULL | ASMODL | ASUMODL | ASDIVL | ASUDIVL | ASSHLL | ASSHRL | ASUSHRL
  | ASLTL | ASULTL | ASGTL | ASUGTL | ASLEL | ASULEL | ASGEL | ASUGEL | ASEQL | ASNEL | ASBANDL | ASBORL | ASBXORL
  | ASADDS | ASSUBS | ASMULS | ASDIVS | ASLTS | ASGTS | ASLES | ASGES | ASEQS | ASNES
  | ASADDD | ASSUBD | ASMULD | ASDIVD | ASLTD | ASGTD | ASLED | ASGED | ASEQD | ASNED
  | ASEXTBW | ASUEXTBW | ASEXTBL | ASUEXTBL | ASEXTHW | ASUEXTHW | ASEXTHL | ASUEXTHL | ASEXTWL | ASUEXTWL
  | ASSTOL | ASSTOUL | ASSTOW | ASSTOUW | ASDTOL | ASDTOUL | ASDTOW | ASDTOUW
  | ASSWTOD | ASUWTOD | ASSWTOS | ASUWTOS | ASSLTOD | ASULTOD | ASSLTOS | ASULTOS
  | ASEXTS | ASTRUNCD
  | ASCALL | ASCALLE | ASCALLEX | ASPAR | ASPARE | ASALLOC | ASFORM
  | ASCOPYB | ASCOPYH | ASCOPYW | ASCOPYL | ASCOPYS | ASCOPYD
  | ASVSTAR | ASVARG
  deriving DecidableEq, Repr

/-- An instruction with its operands `to`, `from1` and `from2`; `setlabel` makes an `ASLABEL`. -/
inductive Inst where
  | ASLABEL (sym : Sym)
  | ASJMP (sym : Sym)
  | ASBRANCH (cond : Addr) (ifyes ifno : Sym)
  | ASRET (p : Option Addr)
  | op (op : AsmOp) (dst from1 from2 : Option Addr)
  deriving DecidableEq, Repr

def Inst.labelOf : Inst → Option Sym
  | .ASLABEL sym => some sym
  | _ => none

/-- The labels that the instruction may transfer control to. -/
def Inst.targets : Inst → List Sym
  | .ASJMP sym => [sym]
  | .ASBRANCH _ ifyes ifno => [ifyes, ifno]
  | _ => []

/-- The binary operators with an instruction for words and one for long words, signed and unsigned. -/
def opint (long : Bool) (op : Op) (unsigned : Bool) : Option AsmOp :=
  match op with
  | .OADD => some (if long then .ASADDL else .ASADDW)
  | .OSUB => some (if long then .ASSUBL else .ASSUBW)
  | .OMUL => some (if long then .ASMULL else .ASMULW)
  | .OMOD => some (if long then (if unsigned then .ASUMODL else .ASMODL) else if unsigned then .ASUMODW else .ASMODW)
  | .ODIV => some (if long then (if unsigned then .ASUDIVL else .ASDIVL) else if unsigned then .ASUDIVW else .ASDIVW)
  | .OSHL => some (if long then .ASSHLL else .ASSHLW)
  | .OSHR => some (if long then (if unsigned then .ASUSHRL else .ASSHRL) else if unsigned then .ASUSHRW else .ASSHRW)
  | .OLT => some (if long then (if unsigned then .ASULTL else .ASLTL) else if unsigned then .ASULTW else .ASLTW)
  | .OGT => some (if long then (if unsigned then .ASUGTL else .ASGTL) else if unsigned then .ASUGTW else .ASGTW)
  | .OLE => some (if long then (if unsigned then .ASULEL else .ASLEL) else if unsigned then .ASULEW else .ASLEW)
  | .OGE => some (if long then (if unsigned then .ASUGEL else .ASGEL) else if unsigned then .ASUGEW else .ASGEW)
  | .OEQ => some (if long then .ASEQL else .ASEQW)
  | .ONE => some (if long then .ASNEL else .ASNEW)
  | .OBAND => some (if long then .ASBANDL else .ASBANDW)
  | .OBOR => some (if long then .ASBORL else .ASBORW)
  | .OBXOR => some (if long then .ASBXORL else .ASBXORW)
  | _ => none

/-- The binary operators on floating operands. -/
def opfloat (double : Bool) (op : Op) : Option AsmOp :=
  match op with
  | .OADD => some (if double then .ASADDD else .ASADDS)
  | .OSUB => some (if double then .ASSUBD else .ASSUBS)
  | .OMUL => some (if double then .ASMULD else .ASMULS)
  | .ODIV => some (if double then .ASDIVD else .ASDIVS)
  | .OLT => some (if double then .ASLTD else .ASLTS)
  | .OGT => some (if double then .ASGTD else .ASGTS)
  | .OLE => some (if double then .ASLED else .ASLES)
  | .OGE => some (if double then .ASGED else .ASGES)
  | .OEQ => some (if double then .ASEQD else .ASEQS)
  | .ONE => some (if double then .ASNED else .ASNES)
  | _ => none

/-- `opbin[isfloat][size][op][sign]` -/
def opbin (isfloat size : Bool) (op : Op) (sign : Bool) : Option AsmOp :=
  if isfloat then opfloat size op else opint size op sign

/-- The entry of `i2i_conv` as an instruction. -/
def ofExt : Ext → AsmOp
  | .ASEXTBW => .ASEXTBW
  | .ASUEXTBW => .ASUEXTBW
  | .ASEXTBL => .ASEXTBL
  | .ASUEXTBL => .ASUEXTBL
  | .ASEXTHW => .ASEXTHW
  | .ASUEXTHW => .ASUEXTHW
  | .ASEXTHL => .ASEXTHL
  | .ASUEXTHL => .ASUEXTHL
  | .ASEXTWL => .ASEXTWL
  | .ASUEXTWL => .ASUEXTWL

def f2i_conv (sidx didx : Nat) (sign : Bool) : Option AsmOp :=
  if sidx = I4BYTES ∧ didx = I4BYTES then some (if sign then .ASSTOUW else .ASSTOW)
  else if sidx = I4BYTES ∧ didx = I8BYTES then some (if sign then .ASDTOUL else .ASSTOL)
  else if sidx = I8BYTES ∧ didx = I4BYTES then some (if sign then .ASDTOUW else .ASDTOW)
  else if sidx = I8BYTES ∧ didx = I8BYTES then some (if sign then .ASDTOUL else .ASDTOL)
  else none

def i2f_conv (sidx didx : Nat) (sign : Bool) : Option AsmOp :=
  if sidx = I4BYTES ∧ didx = I4BYTES then some (if sign then .ASUWTOS else .ASSWTOS)
  else if sidx = I4BYTES ∧ didx = I8BYTES then some (if sign then .ASUWTOD else .ASSWTOD)
  else if sidx = I8BYTES ∧ didx = I4BYTES then some (if sign then .ASULTOS else .ASSLTOS)
  else if sidx = I8BYTES ∧ didx = I8BYTES then some (if sign then .ASULTOD else .ASSLTOD)
  else none

/-- A tree with the field `complex` of its nodes. A node that `rhs` or `lhs` has returned is an
operand. -/
inductive Tree where
  | nil
  | operand (v : Operand) (complex : Nat)
  | mk (op : Op) (type : CType) (u : Payload) (complex : Nat) (left right : Tree)
  deriving DecidableEq, Repr

namespace Tree

def ofNode : Node → Tree
  | .nil => .nil
  | .mk op type u left right => .mk op type u 0 (ofNode left) (ofNode right)

def complex : Tree → Nat
  | .nil => 0
  | .operand _ complex | .mk _ _ _ complex _ _ => complex

def op : Tree → Option Op
  | .mk op .. => some op
  | _ => none

def type : Tree → CType
  | .nil => zerotype
  | .operand v _ => v.type
  | .mk _ type .. => type

end Tree

/-- `complex` of a node whose address is not greater than 10. -/
def weight (lp rp : Tree) : Nat :=
  let c := if rp = .nil then lp.complex
    else if lp.complex = rp.complex then lp.complex + 1
    else max lp.complex rp.complex
  if c = 0 then 1 else c

def constnode (n : BitVec 64) (tp : CType) : Tree := .mk .OCONST tp (.i n) 0 .nil .nil

def sethi : Tree → Option Tree
  | .nil => some .nil
  | .operand v _ =>
    match v.addr with
    | .tmp _ => some (.operand v 1)
    | _ => some (.operand v 0)
  | .mk op type u _ left right =>
    match op with
    | .OAUTO | .OREG | .OMEM | .OCONST => some (.mk op type u 0 left right)
    | .OASSIG =>
      if left = .nil ∨ left.op = some .OCAST then none else do
        let lp ← sethi left
        let rp ← sethi right
        return .mk op type u (weight lp rp) lp rp
    | .OCPL =>
      if type.intf then do
        let lp ← sethi left
        let rp := constnode (BitVec.allOnes 64) type
        return .mk .OBXOR type u (weight lp rp) lp rp
      else none
    | .OSNEG => do
      let lp := constnode 0 type
      let rp ← sethi left
      return .mk .OSUB type u (weight lp rp) lp rp
    | _ => do
      let lp ← sethi left
      let rp ← sethi right
      return .mk op type u (weight lp rp) lp rp

/-! Emitting code. -/

def newlabel : Gen Inst Sym := do
  let numid ← Gen.number
  return .tmp numid

def setlabel : Option Sym → Gen Inst Unit
  | none => pure ()
  | some sym => Gen.emit (.ASLABEL sym)

/-- `flags` is a `char` in `tmpnode`, which has no room for the last three. -/
def tmptype (tp : CType) : CType :=
  { tp with parf := false, initf := false, ellips := false, arrf := false, ptrf := false }

def tmpnode (tp : CType) : Gen Inst Operand := do
  let numid ← Gen.number
  return ⟨.tmp numid, tmptype tp⟩

def code (op : AsmOp) (dst from1 from2 : Option Operand) : Gen Inst Unit :=
  Gen.emit (.op op (dst.map Operand.addr) (from1.map Operand.addr) (from2.map Operand.addr))

def loadop (tp : CType) : Option AsmOp :=
  let unsigned := tp.intf && !tp.signf
  match tp.size with
  | 1 => some (if unsigned then .ASLDUB else .ASLDSB)
  | 2 => some (if unsigned then .ASLDUH else .ASLDSH)
  | 4 => some (if tp.floatf then .ASLDS else if unsigned then .ASLDUW else .ASLDSW)
  | 8 => some (if tp.floatf then .ASLDD else .ASLDL)
  | _ => none

def load (tp : CType) (np : Option Operand) : Gen Inst (Option Operand) :=
  if tp.aggrf || tp.funf || tp.arrf || tp.ptrf then pure np
  else do
    let op ← Gen.ofOption (loadop tp)
    let new ← tmpnode tp
    code op (some new) np none
    return some new

/-- The instruction of a cast, if there is one. `i2f_conv` has nothing for the index of a narrow
integer, which stays the same when the integer has been extended. -/
def castop (td ts : CType) : Option (Option AsmOp) := do
  let sidx ← bytes2idx ts.size
  let didx ← bytes2idx td.size
  let wide := if didx < I4BYTES then I4BYTES else didx
  if td.intf && ts.intf then
    if wide ≤ sidx then return none
    return some (ofExt (← i2i_conv sidx wide !ts.signf))
  else if td.intf then return some (← f2i_conv sidx wide !ts.signf)
  else if ts.intf then return some (← i2f_conv sidx didx !ts.signf)
  else return some (if didx = I4BYTES then .ASEXTS else .ASTRUNCD)

def cast (td : CType) (np : Operand) : Gen Inst Operand := do
  match ← Gen.ofOption (castop td np.type) with
  | none => return { np with type := td }
  | some op =>
    let tmp ← tmpnode td
    code op (some tmp) (some np) none
    return tmp

def copyop (tp : CType) : Option AsmOp :=
  match tp.size with
  | 1 => some .ASCOPYB
  | 2 => some .ASCOPYH
  | 4 => some (if tp.floatf then .ASCOPYS else .ASCOPYW)
  | 8 => some (if tp.floatf then .ASCOPYD else .ASCOPYL)
  | _ => none

def copy (tp : CType) (dst : Operand) (src : Option Operand) : Gen Inst Unit :=
  if tp.size = 0 then pure ()
  else do
    let op ← Gen.ofOption (copyop tp)
    code op (some dst) src none

def assignop (tp : CType) : Option AsmOp :=
  if tp.aggrf || tp.funf || tp.arrf then some .ASSTM
  else
    match tp.size with
    | 1 => some .ASSTB
    | 2 => some .ASSTH
    | 4 => some (if tp.floatf then .ASSTS else .ASSTW)
    | 8 => some (if tp.floatf then .ASSTD else .ASSTL)
    | _ => none

def NR_FUNPARAM : Nat := 127

/-- The trees of the parameters of a call. -/
def params : Tree → List Tree
  | .mk _ _ _ _ left right => left :: params right
  | _ => []

/-- The code for the parameters, the last of which is an `ASPARE`. -/
def pass : List (Option Operand) → Gen Inst Unit
  | [] => pure ()
  | q :: rest => do
    let q ← Gen.ofOption q
    let tmp ← tmpnode q.type
    code (if rest.isEmpty then .ASPARE else .ASPAR) none (some q) (some tmp)
    pass rest

/-- `addr` of a node that was not generated. -/
def operandOf : Tree → Option Operand
  | .operand v _ => some v
  | .mk .OCONST type (.i u) _ _ _ => some ⟨.const u, type⟩
  | .mk .OREG type (.sym sym) _ _ _ | .mk .OLABEL type (.sym sym) _ _ _ | .mk .OAUTO type (.sym sym) _ _ _
  | .mk .OMEM type (.sym sym) _ _ _ => some ⟨.var sym, type⟩
  | _ => none

end Scc.Cc2.Qbe.Code
