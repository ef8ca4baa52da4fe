import Scc.Cc1.Code
import Scc.Cc2.Parser

set_option linter.all false

/-! The trees that cc1 prints and what cc2 is to make of them: the operators, types and
operands of the two programs side by side. -/
namespace Scc.Ir
open Text

/-- The type that a letter of the representation stands for. -/
def lettertype : Char → Option Cc2.CType
  | 'C' => some Cc2.int8type
  | 'I' => some Cc2.int16type
  | 'W' => some Cc2.int32type
  | 'Q' => some Cc2.int64type
  | 'K' => some Cc2.uint8type
  | 'N' => some Cc2.uint16type
  | 'Z' => some Cc2.uint32type
  | 'O' => some Cc2.uint64type
  | 'B' => some Cc2.booltype
  | 'J' => some Cc2.float32type
  | 'D' => some Cc2.float64type
  | 'H' => some Cc2.float80type
  | '0' => some Cc2.voidtype
  | 'P' => some Cc2.ptrtype
  | 'F' => some Cc2.funtype
  | '1' => some Cc2.argtype
  | _ => none

/-- A type of cc1 in cc2: derived types are found by their number. -/
def received (table : Nat → Cc2.CType) (tp : Cc1.CType) : Cc2.CType :=
  if tp.tellipsis then Cc2.funetype
  else
    match lettertype tp.letter with
    | some type => type
    | none => { table tp.id with id := tp.id }

/-- The arithmetic types keep their size, their signedness and their kind. -/
theorem received_arithmetic (table : Nat → Cc2.CType) :
    ∀ tp ∈ [Cc1.booltype, Cc1.chartype, Cc1.uchartype, Cc1.shorttype, Cc1.ushorttype,
        Cc1.inttype, Cc1.uinttype, Cc1.longtype, Cc1.ulongtype, Cc1.llongtype, Cc1.ullongtype,
        Cc1.floattype, Cc1.doubletype, Cc1.ldoubletype],
      (received table tp).size = tp.size ∧ (received table tp).signf = tp.tsigned ∧
        (received table tp).intf = tp.tinteger := by
  simp only [List.forall_mem_cons, List.not_mem_nil, false_imp_iff, implies_true, and_true]
  repeat' constructor

def unaryOp : Cc1.Op → Option Cc2.Op
  | .OPTR => some .OPTR
  | .OADDR => some .OADDR
  | .OSNEG => some .OSNEG
  | .ONEG => some .ONEG
  | .OCPL => some .OCPL
  | _ => none

def binaryOp : Cc1.Op → Option Cc2.Op
  | .OADD => some .OADD
  | .OSUB => some .OSUB
  | .OMUL => some .OMUL
  | .OMOD => some .OMOD
  | .ODIV => some .ODIV
  | .OSHL => some .OSHL
  | .OSHR => some .OSHR
  | .OLT => some .OLT
  | .OGT => some .OGT
  | .OLE => some .OLE
  | .OGE => some .OGE
  | .OEQ => some .OEQ
  | .ONE => some .ONE
  | .OBAND => some .OBAND
  | .OBOR => some .OBOR
  | .OBXOR => some .OBXOR
  | .OAND => some .OAND
  | .OOR => some .OOR
  | .OCOMMA => some .OCOMMA
  | .OFIELD => some .OFIELD
  | _ => none

/-- An assignment, with the operator of a compound one. -/
def assignOp : Cc1.Op → Option Cc2.Payload
  | .OASSIGN => some .zero
  | .OA_ADD => some (.subop .OADD)
  | .OA_SUB => some (.subop .OSUB)
  | .OA_MUL => some (.subop .OMUL)
  | .OA_MOD => some (.subop .OMOD)
  | .OA_DIV => some (.subop .ODIV)
  | .OA_SHL => some (.subop .OSHL)
  | .OA_SHR => some (.subop .OSHR)
  | .OA_AND => some (.subop .OBAND)
  | .OA_OR => some (.subop .OBOR)
  | .OA_XOR => some (.subop .OBXOR)
  | .OINC => some (.subop .OINC)
  | .ODEC => some (.subop .ODEC)
  | _ => none

def callOp : Cc1.Op → Option Cc2.Op
  | .OCALL => some .OCALL
  | .OCALLE => some .OCALLE
  | _ => none

/-- Where a variable is kept decides the operator of its node. -/
def variableOp (sym : Cc1.Symbol) : Cc2.Op :=
  if sym.slocal || sym.sprivate || sym.sglobal then .OMEM
  else if sym.sregister then .OREG
  else if sym.sfield || sym.sextern then .OMEM
  else .OAUTO

/-- The type of a variable's node: cc2 also marks parameters and initialised data. -/
def variableType (table : Nat → Cc2.CType) (sym : Cc1.Symbol) (tp : Cc1.CType) : Cc2.CType :=
  { received table tp with parf := (table sym.id).parf, initf := (table sym.id).initf }

mutual
/-- The tree of cc2 with the same operators, types and operands. -/
def image (table : Nat → Cc2.CType) : Cc1.Node → Cc2.Node
  | .nil => .nil
  | .mk op nconst type sym left right =>
    let tp := received table type
    match op, sym with
    | .OSYM, some sym =>
      if nconst then .mk .OCONST tp (.i (sym.u &&& Cc1.ones type.size)) .nil .nil
      else .mk (variableOp sym) (variableType table sym type) (.sym (.named sym.id)) .nil .nil
    | .OCAST, _ => .mk .OCAST tp .zero (image table left) .nil
    | .OASK, _ => .mk .OASK tp .zero (image table left) (image table right)
    | .OCOLON, _ => .mk .OCOLON Cc2.zerotype .zero (image table left) (image table right)
    | .OCALL, _ => .mk .OCALL tp .zero (image table left) (arguments table right .nil)
    | .OCALLE, _ => .mk .OCALLE tp .zero (image table left) (arguments table right .nil)
    | .OBUILTIN, some sym =>
      match Cc2.builtins sym.name.toList with
      | some (subop, _) =>
        .mk .OBUILTIN tp (.builtin subop) (image table left) (image table right)
      | none => .nil
    | op, _ =>
      match unaryOp op, binaryOp op, assignOp op with
      | some op, _, _ => .mk op tp .zero (image table left) .nil
      | _, some op, _ => .mk op tp .zero (image table left) (image table right)
      | _, _, some u => .mk .OASSIG tp u (image table left) (image table right)
      | _, _, _ => .nil

/-- The arguments of a call in order, in front of `par`; cc1 chains them to the left and
cc2 to the right. -/
def arguments (table : Nat → Cc2.CType) : Cc1.Node → Cc2.Node → Cc2.Node
  | .mk .OPAR _ type _ left right, par =>
    arguments table left (.mk .OPAR (received table type) .zero (image table right) par)
  | _, par => par
end

/-- A tree without its casts to `void`. -/
def unvoid : Cc1.Node → Cc1.Node
  | .nil => .nil
  | .mk op nconst type sym left right =>
    if op = .OCAST ∧ type = Cc1.voidtype then unvoid left
    else .mk op nconst type sym (unvoid left) (unvoid right)

/-- The types that `emitletter` can print for cc2: the letter is that of the type, and the
number of a derived type is positive as a `short`. -/
structure Printable (tp : Cc1.CType) : Prop where
  letter : (tp.op = .ARY ∨ tp.op = .STRUCT ∨ tp.op = .UNION) ∧ tp.letter ∈ ['V', 'S', 'U'] ∧
      tp.tellipsis = false ∨ (lettertype tp.letter).isSome
  id : tp.id < 2 ^ 15

/-- The types that `emitcast` can print. -/
structure Castable (tp : Cc1.CType) : Prop where
  letter : (lettertype tp.letter).isSome
  scalar : tp.tellipsis = false
  value : tp ≠ Cc1.voidtype

inductive Role where
  | expression | arguments

/-- The trees that cc1 emits for expressions, and the chains of arguments in them. -/
inductive Emitted : Role → Cc1.Node → Prop where
  | constant {type sym} : type.op = .PTR ∨ type.op = .INT ∨ type.op = .ENUM →
      (lettertype type.letter).isSome → type.tellipsis = false → sym.sinitlst = false →
      Emitted .expression (.mk .OSYM true type (some sym) .nil .nil)
  | variable {type sym} : sym.id < Cc2.USHRT_MAX → sym.sinitlst = false →
      Emitted .expression (.mk .OSYM false type (some sym) .nil .nil)
  | void {nconst sym left} : Emitted .expression left →
      Emitted .expression (.mk .OCAST nconst Cc1.voidtype sym left .nil)
  | cast {nconst type sym left} : Castable type → Emitted .expression left →
      Emitted .expression (.mk .OCAST nconst type sym left .nil)
  | unary {op op' nconst type sym left} : unaryOp op = some op' → Printable type →
      Emitted .expression left → Emitted .expression (.mk op nconst type sym left .nil)
  | binary {op op' nconst type sym left right} : binaryOp op = some op' → Printable type →
      Emitted .expression left → Emitted .expression right →
      Emitted .expression (.mk op nconst type sym left right)
  | assign {op u nconst type sym left right} : assignOp op = some u → Printable type →
      Emitted .expression left → Emitted .expression right →
      Emitted .expression (.mk op nconst type sym left right)
  | ternary {nconst nconst' type type' sym sym' left yes other} : Printable type →
      Emitted .expression left → Emitted .expression yes → Emitted .expression other →
      Emitted .expression
        (.mk .OASK nconst type sym left (.mk .OCOLON nconst' type' sym' yes other))
  | call {op op' nconst type sym left args} : callOp op = some op' → Printable type →
      Emitted .expression left → Emitted .arguments args →
      Emitted .expression (.mk op nconst type sym left args)
  | builtin1 {nconst type sym subop left} :
      Cc2.builtins sym.name.toList = some (subop, false) → Printable type →
      Emitted .expression left →
      Emitted .expression (.mk .OBUILTIN nconst type (some sym) left .nil)
  | builtin2 {nconst type sym subop left right} :
      Cc2.builtins sym.name.toList = some (subop, true) → Printable type →
      Emitted .expression left → Emitted .expression right →
      Emitted .expression (.mk .OBUILTIN nconst type (some sym) left right)
  | none : Emitted .arguments .nil
  | argument {nconst type sym left right} : Printable type → Emitted .arguments left →
      Emitted .expression right → Emitted .arguments (.mk .OPAR nconst type sym left right)

/-- The number of arguments in a chain. -/
def count : Cc1.Node → Nat
  | .nil => 0
  | .mk _ _ _ _ left _ => count left + 1

/-- The slots of cc2's stack that the tokens of a tree need, the one for the type of a node
included. -/
def slots : Cc1.Node → Nat
  | .nil => 0
  | .mk op _ type _ left right =>
    match op with
    | .OSYM => 1
    | .OCAST => if type = Cc1.voidtype then slots left else max (slots left) 2
    | .OASK => max (slots left) (max (1 + slots right) 4)
    | .OCOLON => max (slots left) (1 + slots right)
    | .OCALL | .OCALLE => max (slots left) (1 + slots right)
    | .OPAR => max (slots left) (count left + max (slots right) 2)
    | .OBUILTIN => max (slots left) (if right = .nil then 3 else max (1 + slots right) 4)
    | _ => max (slots left) (if right = .nil then 2 else max (1 + slots right) 3)

/-- The symbol table has the types that cc1 has declared for the variables of the tree. -/
def Declared (table : Nat → Cc2.CType) : Cc1.Node → Prop
  | .nil => True
  | .mk op nconst type sym left right =>
    (op = .OSYM → nconst = false → ∀ s ∈ sym, table s.id = variableType table s type) ∧
      Declared table left ∧ Declared table right

section
attribute [local simp] image arguments slots unaryOp binaryOp assignOp received lettertype
end

end Scc.Ir
