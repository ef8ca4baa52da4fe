import Scc.Cc1.FoldCast

set_option linter.all false

/-! What a tree of cc1 does when it is evaluated: its value and the state after it. Memory,
calls and floating arithmetic are those of a machine; a value is a number, an address as well.
Operands are evaluated from left to right, and of what C leaves undefined the result is
`none`. -/
namespace Scc.Cc1.Fold
open Arithmetic

/-- Floating arithmetic on the values of each type; `>`, `<=` and `>=` come from `<` and `==`. -/
structure FloatArith where
  add : CType → Int → Int → Int
  sub : CType → Int → Int → Int
  mul : CType → Int → Int → Int
  div : CType → Int → Int → Int
  neg : CType → Int → Int
  lt : CType → Int → Int → Bool
  eq : CType → Int → Int → Bool
  constant : CType → BitVec 64 → Int
  cast : CType → CType → Int → Int
  add_comm : ∀ tp a b, add tp a b = add tp b a
  mul_comm : ∀ tp a b, mul tp a b = mul tp b a
  eq_comm : ∀ tp a b, eq tp a b = eq tp b a
  lt_ne : ∀ tp a b, lt tp a b = true → eq tp a b = false

/-- The machine on which the trees of one function are evaluated: where its variables and the
fields of its structures are, memory, the functions that it calls, and floating arithmetic. Sums
and products of signed numbers that are out of range are undefined, unless they wrap around. -/
structure Machine (σ : Type) where
  address : Nat → Int
  offset : Nat → Int
  load : CType → Int → σ → Int
  store : CType → Int → Int → σ → σ
  call : CType → Int → List Int → σ → Option (Int × σ)
  builtin : CType → Option Nat → Node → Node → σ → Option (Int × σ)
  float : FloatArith
  wraps : Bool

/-- Integers, enumerations and pointers. -/
def integral (tp : CType) : Bool := tp.op = .INT || tp.op = .ENUM || tp.op = .PTR

/-- The value as one of the type. -/
def inType (tp : CType) (v : Int) : Int := if integral tp then (ints tp).convert v else v

/-- An address. -/
def pointer (a : Int) : Int := inType pvoidtype a

/-- The type in which sums, differences and products are computed. -/
def sums (wraps : Bool) (t : IntType) : IntType := if wraps then { t with signed := false } else t

/-- The operators of C on two values of an integer type. -/
def intBinary (wraps : Bool) (t : IntType) (op : Op) (l r : Int) : Option Int :=
  match op with
  | .OADD => (sums wraps t).add l r
  | .OSUB => (sums wraps t).sub l r
  | .OMUL => (sums wraps t).mul l r
  | .ODIV => t.div l r
  | .OMOD => t.mod l r
  | .OSHL => t.shl l r
  | .OSHR => t.shr l r
  | .OBAND => some (t.bitwise (fun _ a b => a &&& b) l r)
  | .OBXOR => some (t.bitwise (fun _ a b => a ^^^ b) l r)
  | .OBOR => some (t.bitwise (fun _ a b => a ||| b) l r)
  | .OLT => some (truth (l < r))
  | .OGT => some (truth (r < l))
  | .OGE => some (truth (r ≤ l))
  | .OLE => some (truth (l ≤ r))
  | .OEQ => some (truth (l = r))
  | .ONE => some (truth (l ≠ r))
  | _ => none

def floatBinary (f : FloatArith) (tp : CType) (op : Op) (l r : Int) : Option Int :=
  match op with
  | .OADD => some (f.add tp l r)
  | .OSUB => some (f.sub tp l r)
  | .OMUL => some (f.mul tp l r)
  | .ODIV => some (f.div tp l r)
  | .OLT => some (truth (f.lt tp l r))
  | .OGT => some (truth (f.lt tp r l))
  | .OGE => some (truth (f.lt tp r l || f.eq tp l r))
  | .OLE => some (truth (f.lt tp l r || f.eq tp l r))
  | .OEQ => some (truth (f.eq tp l r))
  | .ONE => some (truth !f.eq tp l r)
  | _ => none

section
variable {σ : Type} (M : Machine σ)

def binary (tp : CType) (op : Op) (l r : Int) : Option Int :=
  if integral tp then intBinary M.wraps (ints tp) op l r else floatBinary M.float tp op l r

def unary (tp : CType) (op : Op) (l : Int) : Option Int :=
  match op with
  | .OADD => some l
  | .OSNEG => if integral tp then (sums M.wraps (ints tp)).neg l else some (M.float.neg tp l)
  | .OCPL => some ((ints tp).cpl l)
  | .ONEG => some (truth (l = 0))
  | _ => none

/-- A conversion of a value of type `oldtp`. -/
def castValue (newtp oldtp : CType) (v : Int) : Int :=
  if newtp.op = .VOID then 0
  else if integral newtp && integral oldtp then converted newtp v
  else M.float.cast newtp oldtp v

/-- The operator that an assignment applies before it stores. -/
def assignop : Op → Option Op
  | .OA_MUL => some .OMUL
  | .OA_DIV => some .ODIV
  | .OA_MOD => some .OMOD
  | .OA_ADD => some .OADD
  | .OA_SUB => some .OSUB
  | .OA_SHL => some .OSHL
  | .OA_SHR => some .OSHR
  | .OA_AND => some .OBAND
  | .OA_XOR => some .OBXOR
  | .OA_OR => some .OBOR
  | .OINC => some .OADD
  | .ODEC => some .OSUB
  | _ => none

/-- The value of a constant of the type. -/
def constantValue (tp : CType) (u : BitVec 64) : Int :=
  if integral tp then value tp u else M.float.constant tp u

/-- The offset of the field that the right child of an `OFIELD` names. -/
def fieldOffset : Node → Option Int
  | .mk .OSYM _ _ (some f) _ _ => some (M.offset f)
  | _ => none

variable (syms : Symbols)

mutual

/-- The value of a tree and the state after it. -/
def eval : Node → σ → Option (Int × σ)
  | .nil, _ => none
  | .mk op nconst tp sym left right, s =>
    match op with
    | .OSYM => do
      let a ← sym
      if nconst then return (inType tp (constantValue M tp (syms.get a).u), s)
      else return (inType tp (M.load tp (pointer (M.address a)) s), s)
    | .OADDR => do
      let (a, s) ← lval left s
      return (inType tp a, s)
    | .OPTR => do
      let (a, s) ← eval left s
      return (inType tp (M.load tp (pointer a) s), s)
    | .OFIELD => do
      let (a, s) ← lval left s
      let offset ← fieldOffset M right
      return (inType tp (M.load tp (pointer (a + offset)) s), s)
    | .OCAST => do
      let (v, s) ← eval left s
      return (inType tp (castValue M tp left.type v), s)
    | .OCOMMA => do
      let (_, s) ← eval left s
      let (v, s) ← eval right s
      return (inType tp v, s)
    | .OAND => do
      let (v, s) ← eval left s
      if v = 0 then return (inType tp 0, s)
      else
        let (w, s) ← eval right s
        return (inType tp (truth (w ≠ 0)), s)
    | .OOR => do
      let (v, s) ← eval left s
      if v ≠ 0 then return (inType tp 1, s)
      else
        let (w, s) ← eval right s
        return (inType tp (truth (w ≠ 0)), s)
    | .OASK => do
      let (v, s) ← eval left s
      let (w, s) ← branch (v ≠ 0) right s
      return (inType tp w, s)
    | .OASSIGN => do
      let (a, s) ← lval left s
      let (v, s) ← eval right s
      return (inType tp v, M.store tp a (inType tp v) s)
    | .OCALL | .OCALLE => do
      let (f, s) ← lval left s
      let (vs, s) ← args right s
      let (v, s) ← M.call tp f vs s
      return (inType tp v, s)
    | .OBUILTIN => do
      let (v, s) ← M.builtin tp sym left right s
      return (inType tp v, s)
    | .OPAR | .OCOLON => none
    | .OINC | .ODEC | .OA_MUL | .OA_DIV | .OA_MOD | .OA_ADD | .OA_SUB | .OA_SHL | .OA_SHR | .OA_AND | .OA_XOR
    | .OA_OR => do
      let (a, s) ← lval left s
      let (w, s) ← eval right s
      let old := inType tp (M.load tp a s)
      let new ← binary M tp (← assignop op) old w
      return (if op = .OINC ∨ op = .ODEC then old else inType tp new, M.store tp a (inType tp new) s)
    | _ => do
      let (v, s) ← eval left s
      if right = .nil then return (inType tp (← unary M tp op v), s)
      else
        let (w, s) ← eval right s
        return (inType tp (← binary M tp op v w), s)

/-- The address of an lvalue. -/
def lval : Node → σ → Option (Int × σ)
  | .nil, _ => none
  | .mk op nconst _ sym left right, s =>
    match op with
    | .OSYM => do
      let a ← sym
      if nconst then none else return (pointer (M.address a), s)
    | .OPTR => do
      let (a, s) ← eval left s
      return (pointer a, s)
    | .OFIELD => do
      let (a, s) ← lval left s
      return (pointer (a + (← fieldOffset M right)), s)
    | _ => none

/-- The arguments of a call; each `OPAR` has the ones before it on its left. -/
def args : Node → σ → Option (List Int × σ)
  | .nil, s => some ([], s)
  | .mk op _ _ _ left right, s => do
    if op = .OPAR then
      let (vs, s) ← args left s
      let (v, s) ← eval right s
      return (vs ++ [v], s)
    else none

/-- The chosen one of the two expressions of a `?:`. -/
def branch (cond : Bool) : Node → σ → Option (Int × σ)
  | .nil, _ => none
  | .mk op _ _ _ left right, s => if op = .OCOLON then if cond then eval left s else eval right s else none

end

-- The equations of the evaluation, once for the modules on top.
section
attribute [local simp] intBinary eval lval args branch
end

end

section
attribute [local simp] eval lval intBinary floatBinary binary
end

end Scc.Cc1.Fold
