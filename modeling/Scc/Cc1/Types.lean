import Mathlib.Data.List.Basic
import Mathlib.Data.Nat.Bitwise

set_option linter.all false

/-! How cc1 keeps one `Type` for the types that `mktype` is asked for (types.c). A type is
the tree its pointers span, each node with the address of its object. -/
namespace Scc.Cc1.Types

/-- Operators of the types that are not derived from a type. -/
inductive Op where
  | VOID | INT | FLOAT | ENUM | ELLIPSIS | STRUCT | UNION
  deriving DecidableEq

mutual

inductive Ty where
  | mk (addr : Nat) (shape : Shape)

/-- What an object of type `Type` holds, as far as types are compared. The tag is the
symbol of an aggregate when it has a name, and only without one are the fields read. -/
inductive Shape where
  | basic (op : Op) (letter : Char)
  | aggregate (op : Op) (letter : Char) (tag : Option Nat) (fields : Fields)
  | ptr (type : Ty)
  | ary (type : Ty) (nelem : Int)
  | ftn (type : Ty) (kr : Bool) (pars : Pars)

inductive Pars where
  | nil
  | cons (par : Ty) (rest : Pars)

inductive Fields where
  | nil
  | cons (name : String) (type : Ty) (rest : Fields)

end

def Ty.addr : Ty → Nat
  | .mk addr _ => addr

def Ty.shape : Ty → Shape
  | .mk _ shape => shape

/-! `eqtype` with EQUAL. -/

mutual

def eqtype : Ty → Ty → Bool
  | .mk addr₁ tp₁, .mk addr₂ tp₂ => addr₁ == addr₂ || eqshape tp₁ tp₂
termination_by structural type => type

/-- `eqtype` of two objects, the branches of its switch. -/
def eqshape : Shape → Shape → Bool
  | .basic op₁ letter₁, .basic op₂ letter₂ =>
    op₁ == op₂ && match op₁ with
      | .INT | .FLOAT => letter₁ == letter₂
      | _ => false
  | .aggregate op₁ letter₁ tag₁ fields₁, .aggregate op₂ letter₂ tag₂ fields₂ =>
    op₁ == op₂ && letter₁ == letter₂ &&
      if tag₁.isSome || tag₂.isSome then tag₁ == tag₂ else eqfields fields₁ fields₂
  | .ptr type₁, .ptr type₂ => eqtype type₁ type₂
  | .ary type₁ nelem₁, .ary type₂ nelem₂ => nelem₁ == nelem₂ && eqtype type₁ type₂
  | .ftn type₁ kr₁ pars₁, .ftn type₂ kr₂ pars₂ =>
    (if !kr₁ && !kr₂ then eqpars pars₁ pars₂ else kr₁ && kr₂) && eqtype type₁ type₂
  | _, _ => false

/-- The parameters that `eqfuns` compares. -/
def eqpars : Pars → Pars → Bool
  | .nil, .nil => true
  | .cons p₁ rest₁, .cons p₂ rest₂ => eqtype p₁ p₂ && eqpars rest₁ rest₂
  | _, _ => false

def eqfields : Fields → Fields → Bool
  | .nil, .nil => true
  | .cons name₁ type₁ rest₁, .cons name₂ type₂ rest₂ =>
    name₁ == name₂ && eqtype type₁ type₂ && eqfields rest₁ rest₂
  | _, _ => false

end

/-! The operations of the table. -/

inductive TypeOp where
  | FTN | PTR | ARY | KRFTN
  deriving DecidableEq

def TypeOp.code : TypeOp → Nat
  | .FTN => 1
  | .PTR => 2
  | .ARY => 3
  | .KRFTN => 4

def NR_TYPE_HASH : Nat := 16

def HASH (op : TypeOp) (type : Ty) : Nat :=
  (op.code ^^^ type.addr >>> 3) &&& (NR_TYPE_HASH - 1)

/-- The chain of `typetab` for a type, for those that are kept in it. -/
def Shape.chain : Shape → Option Nat
  | .ptr type => some (HASH .PTR type)
  | .ary type _ => some (HASH .ARY type)
  | .ftn type _ _ => some (HASH .FTN type)
  | .basic .. | .aggregate .. => none

mutual

/-- The objects that a type reaches. -/
def Ty.nodes : Ty → List (Nat × Shape)
  | .mk addr shape => (addr, shape) :: shape.nodes

def Shape.nodes : Shape → List (Nat × Shape)
  | .basic .. => []
  | .aggregate _ _ _ fields => fields.nodes
  | .ptr type => type.nodes
  | .ary type _ => type.nodes
  | .ftn type _ pars => type.nodes ++ pars.nodes

def Pars.nodes : Pars → List (Nat × Shape)
  | .nil => []
  | .cons par rest => par.nodes ++ rest.nodes

def Fields.nodes : Fields → List (Nat × Shape)
  | .nil => []
  | .cons _ type rest => type.nodes ++ rest.nodes

end

/-- The objects of type `Type` that are allocated, the table, and the calls of `mktype`
that can still be compared: none of the types they are about has been freed. -/
structure State where
  heap : Nat → Option Shape
  typetab : Nat → List Ty
  localtypes : List Ty
  curfun : Bool
  log : List (Shape × Ty)

structure Arch where
  voidtype : Ty
  pvoidtype : Ty

def newtype (addr : Nat) (type : Shape) (s : State) : State :=
  { s with
    heap := Function.update s.heap addr (some type)
    localtypes := if s.curfun then .mk addr type :: s.localtypes else s.localtypes }

/-- The type that `mktype` looks for. -/
def wanted (op : TypeOp) (tp : Ty) (nelem : Int) (pars : Pars) : Shape :=
  match op with
  | .PTR => .ptr tp
  | .ARY => .ary tp nelem
  | .FTN => .ftn tp false pars
  | .KRFTN => .ftn tp true pars

/-- The `op` of the type, which for K&R functions is that of any function. -/
def TypeOp.op : TypeOp → TypeOp
  | .KRFTN => .FTN
  | op => op

/-- `mktype` for the derived types. A new type goes to the address `addr`. -/
def mktype (arch : Arch) (addr : Nat) (op : TypeOp) (tp : Ty) (nelem : Int) (pars : Pars)
    (s : State) : Ty × State :=
  if op = .PTR ∧ tp.addr = arch.voidtype.addr then (arch.pvoidtype, s)
  else
    let type := wanted op tp nelem pars
    let tbl := HASH op.op tp
    -- the local `type` is at no address of the table
    match (s.typetab tbl).find? (fun bp => eqshape bp.shape type) with
    | some bp => (bp, s)
    | none =>
      let s := newtype addr type s
      (.mk addr type,
        { s with typetab := Function.update s.typetab tbl (.mk addr type :: s.typetab tbl) })

def State.free (s : State) (addr : Nat) : State :=
  { s with
    heap := Function.update s.heap addr none
    log := s.log.filter fun (type, bp) => !(type.nodes ++ bp.nodes).any (·.1 == addr) }

/-- The loop of `flushtypes`; none when its assertion fails. -/
def flush : List Ty → State → Option State
  | [], s => some { s with localtypes := [] }
  | tp :: next, s =>
    match tp.shape.chain with
    | none => flush next (s.free tp.addr)
    | some h =>
      match s.typetab h with
      | [] => none
      | bp :: h_next =>
        if bp.addr = tp.addr then
          flush next ({ s with typetab := Function.update s.typetab h h_next }.free tp.addr)
        else none

def flushtypes (s : State) : Option State := flush s.localtypes s

/-- What the front-end does to the types: it derives one, it creates a tagged type, and
it enters and leaves the body of a function. -/
inductive Step where
  | mktype (addr : Nat) (op : TypeOp) (tp : Ty) (nelem : Int) (pars : Pars)
  | newtag (addr : Nat) (type : Shape)
  | funbody
  | endbody

def step (arch : Arch) : Step → State → Option State
  | .mktype addr op tp nelem pars, s =>
    let (bp, s) := mktype arch addr op tp nelem pars s
    some { s with log := (wanted op tp nelem pars, bp) :: s.log }
  | .newtag addr type, s => some (newtype addr type s)
  | .funbody, s => some { s with curfun := true }
  | .endbody, s => (flushtypes s).map fun s => { s with curfun := false }

/-- Every one of the objects is allocated and holds what is said of it. -/
def Stored (heap : Nat → Option Shape) (nodes : List (Nat × Shape)) : Prop :=
  ∀ n ∈ nodes, heap n.1 = some n.2

/-- The types of a call are allocated, what `malloc` returns is not, and bodies of
functions do not nest. -/
def Step.Valid (s : State) : Step → Prop
  | .mktype addr _ tp _ pars =>
    s.heap addr = none ∧ Stored s.heap tp.nodes ∧ Stored s.heap pars.nodes
  | .newtag addr type => s.heap addr = none ∧ type.chain = none ∧ Stored s.heap type.nodes
  | .funbody => s.curfun = false
  | .endbody => s.curfun = true

/-- cc1 starts with the types of its architecture and an empty table. -/
def initial (heap : Nat → Option Shape) : State :=
  { heap, typetab := fun _ => [], localtypes := [], curfun := false, log := [] }

structure Arch.WellFormed (arch : Arch) (heap : Nat → Option Shape) : Prop where
  void : ∃ letter, arch.voidtype.shape = .basic .VOID letter
  pvoid : arch.pvoidtype.shape = .ptr arch.voidtype
  stored : Stored heap arch.pvoidtype.nodes

inductive Run (arch : Arch) : State → State → Prop where
  | refl (s : State) : Run arch s s
  | next {s t u : State} {c : Step} :
      c.Valid s → step arch c s = some t → Run arch t u → Run arch s u

section
attribute [local simp] eqshape
end

end Scc.Cc1.Types
