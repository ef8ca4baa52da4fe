import Scc.Cc1.Equality
import Mathlib.Algebra.Group.Nat.Defs

set_option linter.all false

/-! The arguments of a call (`arguments` in expr.c) and the conversions it makes. A result is none
where the source reads what is not there. -/
namespace Scc.Cc1.Call
open Equality

/-- The trees that `arguments` builds, over those that `assign` and `decay` return. Of a tree
`convert` reads the type and whether `cmpnode` finds it to be the constant 0. -/
inductive Exp where
  | tree (id : Nat) (type : Ty) (zero : Bool)
  | OCAST (type : Ty) (np : Exp)
  | OPTR (type : Ty) (np : Exp)

def Exp.type : Exp → Ty
  | .tree _ type _ | .OCAST type _ | .OPTR type _ => type

/-- `cmpnode(np, 0)`; a new node is no constant. -/
def Exp.zero : Exp → Bool
  | .tree _ _ zero => zero
  | .OCAST .. | .OPTR .. => false

inductive TypeOp where
  | FTN | PTR | ARY | INT | ENUM | FLOAT | VOID | STRUCT | UNION | ELLIPSIS
  deriving DecidableEq

def Ty.op : Ty → TypeOp
  | .mk _ (.basic tp) =>
    match tp.op with
    | .VOID => .VOID
    | .INT => .INT
    | .FLOAT => .FLOAT
    | .ENUM => .ENUM
    | .ELLIPSIS => .ELLIPSIS
  | .mk _ (.aggregate union _ _ _) => if union then .UNION else .STRUCT
  | .mk _ (.ptr _) => .PTR
  | .mk _ (.ary ..) => .ARY
  | .mk _ (.ftn ..) => .FTN

/-- `getlimits(tp)->max.i` -/
def maxLimit (tp : Basic) : Nat := 2 ^ (8 * tp.size - if tp.tsigned then 1 else 0) - 1

section
variable (m : Memory)

/-- The way of `convert` to `good_conv`, for types that are not the same. -/
def goodConv (np : Exp) (newtp : Ty) (iscast : Bool) : Option Bool :=
  let oldtp := np.type
  let op := Ty.op newtp
  let arith := op = .INT || op = .FLOAT || op = .ENUM
  if iscast && op = .VOID then some true
  else
    match Ty.op oldtp with
    | .ENUM | .INT => some (op = .PTR && (iscast || np.zero) || arith)
    | .FLOAT => some arith
    | .PTR =>
      if op = .ENUM || op = .INT then some iscast
      else if op = .PTR then
        (eqtype m true newtp oldtp).map fun same =>
          same || iscast || newtp.addr == m.pvoidtype.addr || oldtp.addr == m.pvoidtype.addr
      else some false
    | _ => some false

/-- The inner option is the null pointer of a conversion that there is not. -/
def convert (np : Exp) (newtp : Ty) (iscast : Bool) : Option (Option Exp) :=
  match eqtype m false newtp np.type with
  | none => none
  | some true => some (some np)
  | some false => (goodConv m np newtp iscast).map fun good => if good then some (.OCAST newtp np) else none

/-- `promote`, which aborts on what is not arithmetic. -/
def promote (np : Exp) : Option Exp := do
  match np.type with
  | .mk _ (.basic tp) =>
    match tp.op with
    | .ENUM | .INT =>
      if tp.rank ≥ m.inttype.basic.rank then return np
      let newtp := if maxLimit tp ≤ maxLimit m.inttype.basic then m.inttype else m.uinttype
      return (← convert m np newtp.type true).getD np
    | .FLOAT => return (← convert m np m.doubletype.type true).getD np
    | _ => none
  | _ => none

/-- The arguments that are passed, a chain of `OPAR` to the left. -/
inductive Par where
  | nil
  | OPAR (type : Ty) (left : Par) (right : Exp)

/-- The variables of `arguments`, with the errors reported; `targs` are the parameters that are
left from where it points. -/
structure Progress where
  targs : List Ty
  n : Int
  toomany : Bool
  par : Par
  errors : List String

/-- What is passed for the ellipsis. -/
def variadic (arg : Exp) : Option Exp := do
  match arg.type with
  | .mk addr (.basic tp) =>
    match tp.op with
    | .INT => promote m arg
    | .FLOAT =>
      if addr = m.floattype.addr then convert m arg m.doubletype.type true >>= id else return arg
    | _ => return arg
  | _ => return arg

def incompatible (number : Int) : String := s!"incompatible type for argument {number} in function call"

/-- One turn of the loop, with the argument that `assign` has returned. -/
def argument (nelem : Int) (arg : Exp) (s : Progress) : Option Progress := do
  match s.targs with
  | [] => none
  | argtype :: rest =>
    if argtype.addr = m.ellipsistype.addr then
      let arg ← variadic m arg
      return { s with n := 0, par := .OPAR arg.type s.par arg }
    let n := s.n - 1
    if n < 0 then
      let errors := if s.toomany then s.errors else s.errors ++ ["too many arguments in function call"]
      return { s with n, toomany := true, errors }
    match ← convert m arg argtype false with
    | some arg => return { s with targs := rest, n, par := .OPAR arg.type s.par arg }
    | none => return { s with targs := rest, n, errors := s.errors ++ [incompatible (nelem - n)] }

def argumentLoop (nelem : Int) : List Exp → Progress → Option Progress
  | [], s => some s
  | arg :: rest, s => argument m nelem arg s >>= argumentLoop nelem rest

def Pars.toList : Pars → List Ty
  | .nil => []
  | .cons par rest => par :: Pars.toList rest

/-- The node of the call and the errors. -/
structure Result where
  ellipsis : Bool
  type : Ty
  fun_ : Exp
  par : Par
  errors : List String

/-- `tp->prop & TELLIPSIS`, as `mktype` sets it. -/
def tellipsis (kr : Bool) (pars : List Ty) : Bool :=
  !kr && match pars.getLast? with
    | some last => last.addr == m.ellipsistype.addr
    | none => false

/-- The test behind the loop. -/
def toofew (s : Progress) : Option Bool :=
  if s.n > 0 then
    match s.targs with
    | [] => none
    | argtype :: _ => some (argtype.addr != m.ellipsistype.addr)
  else some false

/-- The loop over what `assign` returns between the parentheses, and the node of the call. -/
def finish (np : Exp) (rettype : Ty) (ellipsis : Bool) (args : List Exp) (s : Progress) : Option Result := do
  let s ← argumentLoop m s.n args s
  let few ← toofew m s
  return ⟨ellipsis, rettype, np, s.par,
    if few then s.errors ++ ["too few arguments in function call"] else s.errors⟩

def callee (np : Exp) : Exp :=
  match np.type with
  | .mk _ (.ptr (.mk addr (.ftn rettype kr pars))) => .OPTR (.mk addr (.ftn rettype kr pars)) np
  | _ => np

def arguments (np : Exp) (args : List Exp) : Option Result :=
  let np := callee np
  match np.type with
  | .mk _ (.ftn rettype kr pars) =>
    let targs := Pars.toList pars
    finish m np rettype (tellipsis m kr targs) args ⟨targs, targs.length, false, .nil, []⟩
  | _ =>
    finish m np m.inttype.type false args
      ⟨[m.ellipsistype.type], 1, false, .nil, ["function or function pointer expected"]⟩

end

/-! What is asked of a call. -/

/-- The values of a type. -/
def Holds (tp : Basic) (v : Int) : Prop := (if tp.tsigned then -(maxLimit tp + 1) else 0 : Int) ≤ v ∧ v ≤ maxLimit tp

/-- The default argument promotions. -/
inductive Promoted (m : Memory) : Ty → Ty → Prop where
  | int (addr : Nat) (tp : Basic) : tp.op = .INT → tp.rank < m.inttype.basic.rank →
      (∀ v, Holds tp v → Holds m.inttype.basic v) → Promoted m (.mk addr (.basic tp)) m.inttype.type
  | uint (addr : Nat) (tp : Basic) : tp.op = .INT → tp.rank < m.inttype.basic.rank →
      ¬(∀ v, Holds tp v → Holds m.inttype.basic v) → Promoted m (.mk addr (.basic tp)) m.uinttype.type
  | double (tp : Basic) : tp.op = .FLOAT → Promoted m (.mk m.floattype.addr (.basic tp)) m.doubletype.type
  | same (type : Ty) :
      (∀ addr tp, type = .mk addr (.basic tp) → tp.op = .INT → m.inttype.basic.rank ≤ tp.rank) →
      (∀ addr tp, type = .mk addr (.basic tp) → tp.op = .FLOAT → addr ≠ m.floattype.addr) → Promoted m type type

/-- The argument, cast where it does not have the type. -/
def Converted (m : Memory) (type : Ty) (arg e : Exp) : Prop :=
  (e = arg ∨ e = .OCAST type arg) ∧ eqtype m false type e.type = some true

/-- What is passed: the arguments in their order, those for parameters with their types. -/
def Passed (m : Memory) : List Ty → List Exp → List Exp → Prop
  | _, [], [] => True
  | par :: named, arg :: args, e :: es => Converted m par arg e ∧ Passed m named args es
  | [], arg :: args, e :: es => (∃ type, Promoted m arg.type type ∧ Converted m type arg e) ∧ Passed m [] args es
  | _, _, _ => False

def chain (par : Par) (es : List Exp) : Par := es.foldl (fun par e => .OPAR e.type par e) par

/-- A function type as declarations build it: an ellipsis comes last, and alone for old-style
functions. -/
structure Signature (m : Memory) where
  rettype : Ty
  kr : Bool
  named : List Ty
  ellipsis : Bool
  plain : ∀ type ∈ named, type.addr ≠ m.ellipsistype.addr
  old : kr = true → named = [] ∧ ellipsis = true

section
variable {m : Memory}

def Pars.ofList : List Ty → Pars
  | [] => .nil
  | par :: rest => .cons par (Pars.ofList rest)

def Signature.dots (fn : Signature m) : List Ty := if fn.ellipsis then [m.ellipsistype.type] else []

def Signature.shape (fn : Signature m) : Shape := .ftn fn.rettype fn.kr (Pars.ofList (fn.named ++ fn.dots))

/-- A function or a pointer to one. -/
def Signature.Callee (fn : Signature m) (type : Ty) : Prop :=
  type.shape = fn.shape ∨ ∃ ftn : Ty, type.shape = .ptr ftn ∧ ftn.shape = fn.shape

/-- The number of arguments is right. -/
def Signature.Counted (fn : Signature m) (args : List Exp) : Prop :=
  if fn.ellipsis then fn.named.length ≤ args.length else args.length = fn.named.length

structure Checked (fn : Signature m) (args : List Exp) (call : Result) : Prop where
  accepted : call.errors = [] ↔
    fn.Counted args ∧ ∀ p ∈ fn.named.zip args, ∃ e, convert m p.2 p.1 false = some (some e)
  passed : call.errors = [] → ∃ es, Passed m fn.named args es ∧ call.par = chain .nil es
  type : call.type = fn.rettype
  ellipsis : call.ellipsis = (!fn.kr && fn.ellipsis)

end

section
attribute [local simp] Ty.op
end

end Scc.Cc1.Call
