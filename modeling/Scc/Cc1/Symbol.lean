import Mathlib.Data.List.Basic
import Mathlib.Logic.Function.Basic

set_option linter.all false

/-! The symbol table of cc1 (`symbol.c`). A symbol is the number of its creation, and what the code links by pointers
is a list of numbers: `head` and `labels` by `next`, a chain by `hash`. -/
namespace Scc.Cc1.Symtab

abbrev Name := List UInt8

def GLOBALCTX : Nat := 0
def NR_BLOCK : Nat := 127
def NR_SYM_HASH : Nat := 64
def NR_CPP_HASH : Nat := 32
def NR_LBL_HASH : Nat := 16

def NS_LABEL : Nat := 3
def NS_CPP : Nat := 4
def NS_KEYWORD : Nat := 5
/-- The first name space of the members of a struct or union. -/
def NS_STRUCTS : Nat := 7

/-- What the table looks at; `declared` and `typedef` are the flags `SDECLARED` and `STYPEDEF`. -/
structure Symbol where
  name : Option Name
  ns : Nat
  ctx : Nat
  declared : Bool
  typedef : Bool

inductive Table where
  | htab
  | htabcpp
  | htablbl
  deriving DecidableEq

def table (ns : Nat) : Table := if ns = NS_CPP then .htabcpp else if ns = NS_LABEL then .htablbl else .htab

def Table.size : Table → Nat
  | .htab => NR_SYM_HASH
  | .htabcpp => NR_CPP_HASH
  | .htablbl => NR_LBL_HASH

structure State where
  /-- The number of symbols that were created. -/
  count : Nat
  sym : Nat → Symbol
  chain : Table × Nat → List Nat
  head : List Nat
  labels : List Nat
  curctx : Nat

/-- What ends the program: too many contexts, the assertion, a pointer that is NULL, and a chain that would be a ring. -/
inductive Fault where
  | nested
  | assertion
  | null
  | ring
  deriving DecidableEq

section
/- `genhash` -/
variable (genhash : Name → Nat)

def hash (name : Name) (ns : Nat) : Table × Nat := (table ns, genhash name &&& ((table ns).size - 1))

def newsym (ns : Nat) (name : Option Name) (s : State) : Nat × State :=
  let p := s.count
  let s := { s with count := p + 1, sym := Function.update s.sym p ⟨name, ns, s.curctx, false, false⟩ }
  (p, if ns = NS_LABEL then { s with labels := p :: s.labels }
    else if ns ≠ NS_CPP then { s with head := p :: s.head }
    else s)

def linkhash (p : Nat) (s : State) : Except Fault State :=
  match (s.sym p).name with
  | none => .error .null
  | some name =>
    let b := hash genhash name (s.sym p).ns
    if p ∈ s.chain b then .error .ring
    else .ok { s with
      chain := Function.update s.chain b (p :: s.chain b)
      sym := Function.update s.sym p { s.sym p with declared := true } }

/-- A symbol that a lookup may return: also keywords, and types where the name of a member is looked up. -/
def Found (s : State) (ns : Nat) (name : Name) (p : Nat) : Prop :=
  (s.sym p).name = some name ∧
    ((s.sym p).ns = ns ∨ (s.sym p).ns = NS_KEYWORD ∨ (s.sym p).typedef = true ∧ ns ≥ NS_STRUCTS)

instance (s : State) (ns : Nat) (name : Name) (p : Nat) : Decidable (Found s ns name p) :=
  inferInstanceAs (Decidable (_ ∧ _))

def lookup (ns : Nat) (name : Name) (alloc : Bool) (s : State) : Option Nat × State :=
  match (s.chain (hash genhash name ns)).find? fun p => Found s ns name p with
  | some p => (some p, s)
  | none =>
    if alloc then
      let (p, s) := newsym ns (some name) s
      (some p, s)
    else (none, s)

/-- None where the symbol is declared in this context already. -/
def install (ns p : Nat) (s : State) : Except Fault (Option Nat × State) :=
  if (s.sym p).declared ∨ (s.sym p).ctx ≠ s.curctx then
    if (s.sym p).ctx = s.curctx ∧ ns = (s.sym p).ns then .ok (none, s)
    else
      let (q, s) := newsym ns (s.sym p).name s
      match linkhash genhash q s with
      | .ok s => .ok (some q, s)
      | .error fault => .error fault
  else
    match linkhash genhash p s with
    | .ok s => .ok (some p, s)
    | .error fault => .error fault

/-- The assertion is not made of macros, which the loop finds anywhere in their chain. -/
def unlinkhash (p : Nat) (s : State) : Except Fault State :=
  if (s.sym p).declared = false then .ok s
  else
    match (s.sym p).name with
    | none => .error .null
    | some name =>
      let b := hash genhash name (s.sym p).ns
      if (s.sym p).ns ≠ NS_CPP ∧ (s.chain b).head? ≠ some p then .error .assertion
      else if p ∈ s.chain b then .ok { s with chain := Function.update s.chain b ((s.chain b).erase p) }
      else .error .null

/-- The loop of `popctx` over `head`, and what is left of it. -/
def popLoop : List Nat → State → Except Fault State
  | [], s => .ok { s with head := [] }
  | p :: rest, s =>
    if (s.sym p).ctx = s.curctx then
      match unlinkhash genhash p s with
      | .ok s => popLoop rest s
      | .error fault => .error fault
    else .ok { s with head := p :: rest }

def labelLoop : List Nat → State → Except Fault State
  | [], s => .ok { s with labels := [] }
  | p :: rest, s =>
    match unlinkhash genhash p s with
    | .ok s => labelLoop rest s
    | .error fault => .error fault

def pushctx (s : State) : Except Fault State :=
  if s.curctx + 1 = NR_BLOCK + 1 then .error .nested else .ok { s with curctx := s.curctx + 1 }

/-- Without the token ahead, whose symbol is looked up again after it. -/
def popctx (s : State) : Except Fault State :=
  match popLoop genhash s.head s with
  | .error fault => .error fault
  | .ok s =>
    let s := { s with curctx := s.curctx - 1 }
    if s.curctx = GLOBALCTX then labelLoop genhash s.labels s else .ok s

/-- `keywords` and `builtins`: symbols that are created and linked one after the other. -/
def keywords : List (Nat × Name) → State → Except Fault State
  | [], s => .ok s
  | (ns, str) :: rest, s =>
    let (p, s) := newsym ns (some str) s
    match linkhash genhash p s with
    | .ok s => keywords rest s
    | .error fault => .error fault

/-- The table before `isyms`. -/
def blank : State := ⟨0, fun _ => ⟨none, 0, 0, false, false⟩, fun _ => [], [], [], GLOBALCTX⟩

/-- The predefined symbols are removed from `head`. -/
def isyms (words : List (Nat × Name)) : Except Fault State :=
  match keywords genhash words blank with
  | .ok s => .ok { s with head := [] }
  | .error fault => .error fault

/-- What the rest of cc1 does with the table: the flags of a symbol are written outside of it, and `killsym` is called
for macros. -/
inductive Op where
  | newsym (ns : Nat) (name : Option Name)
  | lookup (ns : Nat) (name : Name) (alloc : Bool)
  | install (ns p : Nat)
  | flags (p : Nat) (declared typedef : Bool)
  | killsym (p : Nat)
  | pushctx
  | popctx

def step : Op → State → Except Fault State
  | .newsym ns name, s => .ok (newsym ns name s).2
  | .lookup ns name alloc, s => .ok (lookup genhash ns name alloc s).2
  | .install ns p, s => (install genhash ns p s).map Prod.snd
  | .flags p declared typedef, s =>
    .ok { s with sym := Function.update s.sym p { s.sym p with declared := declared, typedef := typedef } }
  | .killsym p, s => unlinkhash genhash p s
  | .pushctx, s => pushctx s
  | .popctx, s => popctx genhash s

def run : List Op → State → Except Fault State
  | [], s => .ok s
  | op :: ops, s =>
    match step genhash op s with
    | .ok s => run ops s
    | .error fault => .error fault

end

end Scc.Cc1.Symtab
