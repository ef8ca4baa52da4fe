import Scc.Cc1.Fold

set_option linter.all false

/-! The simplification of trees in cc1 (`fold.c`). Nodes refer to symbols by their address,
so that trees can share one. A node without children, or a symbol, is read only where the
source reads it: where it follows a null pointer, or aborts, the result is `none`. -/
namespace Scc.Cc1.Fold
open Arithmetic

/-- `struct symbol`: `u.i`, `u.u` and `u.f` share their 64 bits. -/
structure Symbol where
  type : CType
  sconstant : Bool
  u : BitVec 64
  deriving DecidableEq, Repr

/-- The symbols in memory. -/
structure Symbols where
  next : Nat
  get : Nat → Symbol

/-- `newsym()` with what its callers set. -/
def Symbols.newsym (syms : Symbols) (sym : Symbol) : Symbols :=
  ⟨syms.next + 1, fun s => if s = syms.next then sym else syms.get s⟩

def Symbols.setu (syms : Symbols) (s : Nat) (u : BitVec 64) : Symbols :=
  ⟨syms.next, fun s' => if s' = s then { syms.get s with u := u } else syms.get s'⟩

/-- `struct node`; `nil` is the null pointer. Of the flags only `NCONST` is read. -/
inductive Node where
  | nil
  | mk (op : Op) (nconst : Bool) (type : CType) (sym : Option Nat) (left right : Node)
  deriving DecidableEq, Repr

def node (op : Op) (tp : CType) (lp rp : Node) : Node := .mk op false tp none lp rp

/-- `constnode()` of the symbol at `s`. -/
def constnode (s : Nat) (tp : CType) : Node := .mk .OSYM true tp (some s) .nil .nil

/-- Floating arithmetic: `foldfloat`, the comparison with an integer, and the conversions. -/
structure Floats where
  fold : Op → CType → BitVec 64 → BitVec 64 → Option (BitVec 64)
  equals : BitVec 64 → BitVec 64 → Bool
  ofSigned : BitVec 64 → BitVec 64
  ofUnsigned : BitVec 64 → BitVec 64
  toUnsigned : BitVec 64 → BitVec 64

/-- The symbol of a node that is a constant. -/
def Node.constant : Node → Option Nat
  | .mk _ true _ sym _ _ => sym
  | _ => none

/-- The loop of `power2node`, which has shifted everything out after 64 steps. -/
def setBits : Nat → BitVec 64 → Nat
  | 0, _ => 0
  | steps + 1, u => if u = 0 then 0 else (if u &&& 1 = 1 then 1 else 0) + setBits steps (u >>> 1)

def power2node (syms : Symbols) (np : Node) : Bool :=
  match np.constant with
  | none => false
  | some s => (syms.get s).type.op = .INT && setBits 64 (syms.get s).u = 1

def cmpnode (fp : Floats) (syms : Symbols) (np : Node) (val : BitVec 64) : Bool :=
  match np with
  | .mk _ true tp (some s) _ _ =>
    let sym := syms.get s
    match sym.type.op with
    | .PTR | .INT =>
      let mask := if val > 1 then ones tp.size else BitVec.allOnes 64
      sym.u &&& mask = val &&& mask
    | .FLOAT => fp.equals sym.u val
    | _ => false
  | _ => false

/-- The arithmetic that `fold` chooses by the type of the left operand. -/
inductive Arith where
  | INT | PTR | UNSIGNED | FLOAT
  deriving DecidableEq, Repr

/-- The value of the new constant. -/
def foldconst (fp : Floats) (type : Arith) (op : Op) (tp : CType) (ls rs : BitVec 64) :
    Option (Folding (BitVec 64)) :=
  match type with
  | .INT => do
    match ← foldint op tp ls.toInt rs.toInt with
    | .refused => return .refused
    | .stored i => return .stored (BitVec.ofInt 64 i)
  | .PTR | .UNSIGNED => folduint op tp ls rs
  | .FLOAT =>
    match fp.fold op tp ls rs with
    | none => some .refused
    | some f => some (.stored f)

def arith (optype : CType) : Option Arith :=
  match optype.op with
  | .ENUM | .INT => some (if optype.tsigned then .INT else .UNSIGNED)
  | .PTR => some .PTR
  | .FLOAT => some .FLOAT
  | _ => none

/-- The value of the right operand; an operator without one gets a zero. -/
def rightValue (syms : Symbols) (rp : Node) : BitVec 64 :=
  match rp.constant with
  | none => 0
  | some rs => (syms.get rs).u

/-- Whether `fold` goes on to the operands: it leaves a division by zero as it is. -/
def zerodiv (fp : Floats) (syms : Symbols) (op : Op) (rp : Node) : Bool :=
  (op = .ODIV || op = .OMOD) && cmpnode fp syms rp 0

def fold (fp : Floats) (syms : Symbols) (np : Node) : Option (Node × Symbols) :=
  match np with
  | .nil => none
  | .mk _ _ _ _ .nil .nil => some (np, syms)
  | .mk op _ tp sym lp rp =>
    if zerodiv fp syms op rp then some (np, syms)
    else if rp ≠ .nil && rp.constant = none then some (np, syms)
    else
      match lp with
      | .nil => none
      | .mk _ _ optype _ _ _ =>
        match lp.constant, arith optype with
        | some ls, some type => do
          match ← foldconst fp type op tp (syms.get ls).u (rightValue syms rp) with
          | .refused => return (.mk op false tp sym lp rp, syms)
          | .stored u => return (constnode syms.next tp, syms.newsym ⟨tp, true, u⟩)
        | _, _ => some (np, syms)

/-- The value of a constant of type `oldtp` converted to `newtp`, if the cast is folded. -/
def castconst (fp : Floats) (newtp oldtp : CType) (osym : BitVec 64) : Option (BitVec 64) :=
  let mask := ones newtp.size
  let bring (u : BitVec 64) : BitVec 64 :=
    if newtp.tsigned then
      let negmask := ~~~mask
      if u &&& (negmask >>> 1) &&& mask ≠ 0 then u ||| negmask else u
    else u &&& mask
  match newtp.op with
  | .PTR | .INT | .ENUM =>
    match oldtp.op with
    | .PTR | .INT | .ENUM => some (bring osym)
    | .FLOAT => some (bring (fp.toUnsigned osym))
    | _ => none
  | .FLOAT => some (if oldtp.tsigned then fp.ofSigned osym else fp.ofUnsigned osym)
  | _ => none

def foldcast (fp : Floats) (syms : Symbols) (np l : Node) : Node × Symbols :=
  match np, l with
  | .mk _ _ newtp _ _ _, .mk _ true oldtp (some osym) _ _ =>
    match castconst fp newtp oldtp (syms.get osym).u with
    | none => (np, syms)
    | some u => (constnode syms.next newtp, syms.newsym ⟨newtp, true, u⟩)
  | _, _ => (np, syms)

/-- The flag `NCONST`. -/
def Node.nconst : Node → Bool
  | .nil => false
  | .mk _ nconst _ _ _ _ => nconst

def commutative (np : Node) : Option Node :=
  match np with
  | .nil => none
  | .mk op nconst tp sym l r =>
    if r = .nil || r.nconst then some np
    else if l = .nil then none
    else if !l.nconst then some np
    else
      match op with
      | .OLT | .OGT | .OGE | .OLE => some (.mk (negop op) nconst tp sym r l)
      | .OEQ | .ONE | .OADD | .OMUL | .OBAND | .OBXOR | .OBOR => some (.mk op nconst tp sym r l)
      | _ => some np

/-- The three exits of `identity`, and the tree left as it is. -/
inductive Exit where
  | free_right | free_left | change_to_comma | unchanged
  deriving DecidableEq, Repr

/-- The switch of `identity`. -/
def identityExit (fp : Floats) (syms : Symbols) (op : Op) (lp rp : Node) : Exit :=
  let iszeror := cmpnode fp syms rp 0
  let isoner := cmpnode fp syms rp 1
  let iszerol := cmpnode fp syms lp 0
  let isonel := cmpnode fp syms lp 1
  match op with
  | .OOR =>
    if isonel || iszeror then .free_right
    else if iszerol then .free_left
    else if isoner then .change_to_comma
    else .unchanged
  | .OAND =>
    if iszerol || isoner then .free_right
    else if isonel then .free_left
    else if iszeror then .change_to_comma
    else .unchanged
  | .OSHL | .OSHR => if iszeror || iszerol then .free_right else .unchanged
  | .OBXOR | .OADD | .OBOR | .OSUB => if iszeror then .free_right else .unchanged
  | .OMUL =>
    if iszeror then .change_to_comma
    else if isoner then .free_right
    else .unchanged
  | .ODIV => if isoner then .free_right else .unchanged
  | .OBAND => if cmpnode fp syms rp (-1) then .free_right else .unchanged
  | .OMOD => if isoner then .change_to_comma else .unchanged
  | _ => .unchanged

def identity (fp : Floats) (syms : Symbols) (np : Node) : Option Node :=
  match np with
  | .nil => none
  | .mk op nconst tp sym lp rp =>
    if rp = .nil then some np
    else
      match identityExit fp syms op lp rp with
      | .free_right => some lp
      | .free_left => some rp
      | .change_to_comma => some (.mk .OCOMMA nconst tp sym lp rp)
      | .unchanged => some np

/-- The constant that it counts down keeps its symbol. -/
def reduce (syms : Symbols) (np : Node) : Option (Node × Symbols) :=
  match np with
  | .nil => none
  | .mk .OMOD nconst tp sym lp rp =>
    match power2node syms rp, rp.constant with
    | true, some s => some (.mk .OBAND nconst tp sym lp rp, syms.setu s ((syms.get s).u - 1))
    | _, _ => some (np, syms)
  | _ => some (np, syms)

def associative (fp : Floats) (syms : Symbols) (np : Node) : Option (Node × Symbols) :=
  match np with
  | .nil => none
  | .mk op nconst tp sym l r =>
    match op with
    | .OADD | .OMUL | .OBAND | .OBXOR | .OBOR =>
      match l with
      | .nil => none
      | .mk lop lnconst ltp lsym ll lr =>
        if op ≠ lop then some (np, syms)
        else
          match lr with
          | .nil => none
          | .mk .OSYM _ _ (some c) _ _ =>
            if !(syms.get c).sconstant then some (np, syms)
            else do
              let (right, syms) ← fold fp syms (.mk lop lnconst ltp lsym r lr)
              return (.mk op nconst tp sym ll right, syms)
          | .mk .OSYM _ _ none _ _ => none
          | _ => some (np, syms)
    | _ => some (np, syms)

/-- `offsetnode()` of the field with the symbol at `f`. -/
def offsetnode (syms : Symbols) (f : Nat) (tp : CType) : Node × Symbols :=
  (constnode syms.next tp, syms.newsym ⟨tp, true, (syms.get f).u⟩)

/-- The symbol of a node. -/
def Node.sym : Node → Option Nat
  | .nil => none
  | .mk _ _ _ sym _ _ => sym

def Node.type : Node → CType
  | .nil => voidtype
  | .mk _ _ type _ _ _ => type

def foldunary (fp : Floats) (syms : Symbols) (np : Node) : Option (Node × Symbols) :=
  match np with
  | .mk op nconst tp _ (.mk lop lnconst ltp lsym ll lr) _ =>
    let l : Node := .mk lop lnconst ltp lsym ll lr
    match op with
    | .ONEG => if lop = .ONEG then some (ll, syms) else some (np, syms)
    | .OADD => some (l, syms)
    | .OCAST => some (foldcast fp syms np l)
    | .OSNEG | .OCPL => if lop ≠ op then some (np, syms) else some (ll, syms)
    | .OPTR => if lop ≠ .OADDR || tp ≠ ll.type then some (np, syms) else some (ll, syms)
    | .OADDR =>
      if lop = .OFIELD then
        match ll, lr.sym with
        | .mk .OPTR _ _ _ p _, some f =>
          let (offset, syms) := offsetnode syms f tp
          some (.mk .OADD p.nconst tp none p offset, syms)
        | .mk .., some f =>
          let (offset, syms) := offsetnode syms f tp
          some (.mk .OADD nconst tp none (node .OADDR tp ll .nil) offset, syms)
        | _, _ => none
      else if lop ≠ .OPTR then some (np, syms)
      else some (ll, syms)
    | _ => some (np, syms)
  | _ => none

def foldternary (fp : Floats) (syms : Symbols) (np : Node) : Option Node :=
  match np with
  | .mk _ _ _ _ cond body =>
    if cond = .nil then none
    else if !cond.nconst then some np
    else
      match body with
      | .nil => none
      | .mk _ _ _ _ left right => some (if cmpnode fp syms cond 0 then right else left)
  | .nil => none

section
attribute [local simp] identityExit fold
end

end Scc.Cc1.Fold
