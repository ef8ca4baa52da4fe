import Mathlib.Tactic.Common

set_option linter.all false

/-! What `eqtype` reads of the types it compares, in both modes (types.c). -/
namespace Scc.Cc1.Equality

/-- Operators of the types that are not derived from a type. -/
inductive Op where
  | VOID | INT | FLOAT | ENUM | ELLIPSIS
  deriving DecidableEq

structure Basic where
  op : Op
  letter : Char
  rank : Nat
  size : Nat
  tsigned : Bool
  deriving DecidableEq

mutual

/-- A type is the tree its pointers span, each node with the address of its object. -/
inductive Ty where
  | mk (addr : Nat) (shape : Shape)

/-- The symbol of the tag is known by its address, also when it has no name. -/
inductive Shape where
  | basic (type : Basic)
  | aggregate (union : Bool) (letter : Char) (tag : Nat) (fields : Fields)
  | ptr (type : Ty)
  | ary (type : Ty) (nelem : Int)
  | ftn (type : Ty) (kr : Bool) (pars : Pars)

/-- As many types as `n.elem` says. -/
inductive Pars where
  | nil
  | cons (par : Ty) (rest : Pars)

/-- As many symbols as `n.elem` says; an unnamed bit-field has a null pointer for its name. -/
inductive Fields where
  | nil
  | cons (name : Option String) (type : Ty) (rest : Fields)

end

def Ty.addr : Ty → Nat
  | .mk addr _ => addr

def Ty.shape : Ty → Shape
  | .mk _ shape => shape

def Shape.ellipsis : Shape → Bool
  | .basic type => type.op == .ELLIPSIS
  | _ => false

def Pars.length : Pars → Nat
  | .nil => 0
  | .cons _ rest => rest.length + 1

def Fields.length : Fields → Nat
  | .nil => 0
  | .cons _ _ rest => rest.length + 1

mutual

/-- The objects that a type reaches. -/
def Ty.nodes : Ty → List (Nat × Shape)
  | .mk addr shape => (addr, shape) :: shape.nodes

def Shape.nodes : Shape → List (Nat × Shape)
  | .basic .. => []
  | .aggregate _ _ _ fields => fields.nodes
  | .ptr type => type.nodes
  | .ary type _ => type.nodes
  | .ftn type _ pars => type.nodes ++ pars.nodes

def Pars.nodes : Pars → List (Nat × Shape)
  | .nil => []
  | .cons par rest => par.nodes ++ rest.nodes

def Fields.nodes : Fields → List (Nat × Shape)
  | .nil => []
  | .cons _ type rest => type.nodes ++ rest.nodes

end

/-- A type of the target, at its address. -/
structure Object where
  addr : Nat
  basic : Basic

def Object.type (o : Object) : Ty := .mk o.addr (.basic o.basic)

/-- The front-end's memory. Of the symbols of the tags only matters whether they have a name;
none is there for a symbol that has been freed. -/
structure Memory where
  type : Nat → Option Shape
  named : Nat → Option Bool
  inttype : Object
  uinttype : Object
  floattype : Object
  doubletype : Object
  pvoidtype : Ty
  ellipsistype : Object
  int : inttype.basic.op = .INT ∧ inttype.basic.tsigned = true
  uint : uinttype.basic.op = .INT
  double : doubletype.basic.op = .FLOAT
  ellipsis : ∀ addr shape, type addr = some shape → shape.ellipsis = true → addr = ellipsistype.addr

/-- The objects are in memory. -/
def Memory.Holds (m : Memory) (nodes : List (Nat × Shape)) : Prop := ∀ n ∈ nodes, m.type n.1 = some n.2

section
variable (m : Memory)

/-- A parameter of a prototype for which `eqfuns` returns 0. -/
def Ty.promoted : Ty → Bool
  | .mk addr (.basic type) =>
    match type.op with
    | .ELLIPSIS => true
    | .INT | .ENUM => type.rank < m.inttype.basic.rank
    | .FLOAT => addr == m.floattype.addr
    | .VOID => false
  | _ => false

/-- The loop of `eqfuns` over the parameters of a prototype that meets an old-style function. It
goes on to a null pointer, and `newtype` stores none behind the parameters. -/
def eqpromoted : Pars → Option Bool
  | .nil => none
  | .cons par rest => if par.promoted m then some false else eqpromoted rest

/-- The second comparison is made where the first says yes. -/
def andThen (first second : Option Bool) : Option Bool :=
  match first with
  | some true => second
  | other => other

variable (equiv : Bool)

mutual

/-- `eqtype`; none where it reads what is not there or aborts. -/
def eqtype : Ty → Ty → Option Bool
  | .mk addr₁ tp₁, .mk addr₂ tp₂ => if addr₁ == addr₂ then some true else eqshape tp₁ tp₂
termination_by structural type => type

def eqshape : Shape → Shape → Option Bool
  | .basic tp₁, .basic tp₂ =>
    if tp₁.op != tp₂.op then some false
    else match tp₁.op with
      | .VOID | .ENUM => some false
      | .INT | .FLOAT => some (tp₁.letter == tp₂.letter)
      | .ELLIPSIS => none
  | .aggregate union₁ letter₁ tag₁ fields₁, .aggregate union₂ letter₂ tag₂ fields₂ =>
    if union₁ != union₂ || letter₁ != letter₂ then some false
    else match m.named tag₁ with
      | none => none
      | some true => some (tag₁ == tag₂)
      | some false =>
        match m.named tag₂ with
        | none => none
        | some true => some (tag₁ == tag₂)
        | some false => if fields₁.length != fields₂.length then some false else eqfields fields₁ fields₂
  | .ptr type₁, .ptr type₂ => eqtype type₁ type₂
  | .ary type₁ nelem₁, .ary type₂ nelem₂ =>
    if equiv && (nelem₁ == 0 || nelem₂ == 0) then eqtype type₁ type₂
    else if nelem₁ != nelem₂ then some false else eqtype type₁ type₂
  | .ftn type₁ kr₁ pars₁, .ftn type₂ kr₂ pars₂ =>
    match kr₁, kr₂ with
    | false, false =>
      if pars₁.length != pars₂.length then some false
      else andThen (eqpars pars₁ pars₂) (eqtype type₁ type₂)
    | true, true => eqtype type₁ type₂
    | true, false => if !equiv then some false else andThen (eqpromoted m pars₂) (eqtype type₁ type₂)
    | false, true => if !equiv then some false else andThen (eqpromoted m pars₁) (eqtype type₁ type₂)
  | _, _ => some false

def eqpars : Pars → Pars → Option Bool
  | .cons p₁ rest₁, .cons p₂ rest₂ => andThen (eqtype p₁ p₂) (eqpars rest₁ rest₂)
  | _, _ => some true

/-- `strcmp` reads both names. -/
def eqfields : Fields → Fields → Option Bool
  | .cons (some name₁) type₁ rest₁, .cons (some name₂) type₂ rest₂ =>
    if name₁ != name₂ then some false else andThen (eqtype type₁ type₂) (eqfields rest₁ rest₂)
  | .cons .., .cons .. => none
  | _, _ => some true

end

/-! The comparison that is meant: the one above, kept to the parameters and members there are. -/

def Pars.promoted : Pars → Bool
  | .nil => false
  | .cons par rest => par.promoted m || rest.promoted

def tagged (tag : Nat) : Bool := m.named tag == some true

mutual

def agree : Ty → Ty → Bool
  | .mk addr₁ tp₁, .mk addr₂ tp₂ => addr₁ == addr₂ || agreeshape tp₁ tp₂
termination_by structural type => type

def agreeshape : Shape → Shape → Bool
  | .basic tp₁, .basic tp₂ =>
    tp₁.op == tp₂.op && (tp₁.op == .INT || tp₁.op == .FLOAT) && tp₁.letter == tp₂.letter
  | .aggregate union₁ letter₁ tag₁ fields₁, .aggregate union₂ letter₂ tag₂ fields₂ =>
    union₁ == union₂ && letter₁ == letter₂ &&
      if tagged m tag₁ || tagged m tag₂ then tag₁ == tag₂ else agreefields fields₁ fields₂
  | .ptr type₁, .ptr type₂ => agree type₁ type₂
  | .ary type₁ nelem₁, .ary type₂ nelem₂ =>
    (equiv && (nelem₁ == 0 || nelem₂ == 0) || nelem₁ == nelem₂) && agree type₁ type₂
  | .ftn type₁ kr₁ pars₁, .ftn type₂ kr₂ pars₂ =>
    (match kr₁, kr₂ with
      | false, false => agreepars pars₁ pars₂
      | true, true => true
      | true, false => equiv && !pars₂.promoted m
      | false, true => equiv && !pars₁.promoted m) &&
      agree type₁ type₂
  | _, _ => false

def agreepars : Pars → Pars → Bool
  | .nil, .nil => true
  | .cons p₁ rest₁, .cons p₂ rest₂ => agree p₁ p₂ && agreepars rest₁ rest₂
  | _, _ => false

def agreefields : Fields → Fields → Bool
  | .nil, .nil => true
  | .cons name₁ type₁ rest₁, .cons name₂ type₂ rest₂ =>
    name₁ == name₂ && agree type₁ type₂ && agreefields rest₁ rest₂
  | _, _ => false

end

mutual

/-- Where the types have been found to agree so far, there is always something to compare: a
prototype that meets an old-style function has a parameter that says no, members of unnamed
aggregates have names, and the symbols of the tags are alive. -/
def Inside : Ty → Ty → Prop
  | .mk addr₁ tp₁, .mk addr₂ tp₂ => addr₁ ≠ addr₂ → Insideshape tp₁ tp₂
termination_by structural type => type

def Insideshape : Shape → Shape → Prop
  | .aggregate union₁ letter₁ tag₁ fields₁, .aggregate union₂ letter₂ tag₂ fields₂ =>
    union₁ = union₂ → letter₁ = letter₂ → m.named tag₁ ≠ none ∧ m.named tag₂ ≠ none ∧
      (tagged m tag₁ = false → tagged m tag₂ = false → fields₁.length = fields₂.length →
        Insidefields fields₁ fields₂)
  | .ptr type₁, .ptr type₂ => Inside type₁ type₂
  | .ary type₁ nelem₁, .ary type₂ nelem₂ =>
    (equiv && (nelem₁ == 0 || nelem₂ == 0) || nelem₁ == nelem₂) = true → Inside type₁ type₂
  | .ftn type₁ kr₁ pars₁, .ftn type₂ kr₂ pars₂ =>
    match kr₁, kr₂ with
    | false, false => pars₁.length = pars₂.length →
      Insidepars pars₁ pars₂ ∧ (agreepars m equiv pars₁ pars₂ = true → Inside type₁ type₂)
    | true, true => Inside type₁ type₂
    | true, false => equiv = true → pars₂.promoted m = true
    | false, true => equiv = true → pars₁.promoted m = true
  | _, _ => True

def Insidepars : Pars → Pars → Prop
  | .cons p₁ rest₁, .cons p₂ rest₂ =>
    Inside p₁ p₂ ∧ (agree m equiv p₁ p₂ = true → Insidepars rest₁ rest₂)
  | _, _ => True

def Insidefields : Fields → Fields → Prop
  | .cons name₁ type₁ rest₁, .cons name₂ type₂ rest₂ =>
    name₁ ≠ none ∧ name₂ ≠ none ∧ (name₁ = name₂ →
      Inside type₁ type₂ ∧ (agree m equiv type₁ type₂ = true → Insidefields rest₁ rest₂))
  | _, _ => True

end

end

/-- What is asked of `eqtype` on three types: the first mode is an equivalence, the second is
reflexive and symmetric, and both come to an answer with what is declared. -/
structure Laws (m : Memory) (t₁ t₂ t₃ : Ty) : Prop where
  refl : ∀ equiv, eqtype m equiv t₁ t₁ = some true
  symm : ∀ equiv, ∃ answer, eqtype m equiv t₁ t₂ = some answer ∧ eqtype m equiv t₂ t₁ = some answer
  trans : eqtype m false t₁ t₂ = some true → eqtype m false t₂ t₃ = some true → eqtype m false t₁ t₃ = some true

end Scc.Cc1.Equality
