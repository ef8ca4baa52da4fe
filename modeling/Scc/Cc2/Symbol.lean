import Mathlib.Data.List.Basic
import Mathlib.Logic.Relation

set_option linter.all false

/-! The symbols of cc2 (`symbol.c`): a hash table of chained symbols, and the list of those of
the current function. A symbol lies at an address; at an address that is not in use, or no
longer, there is none. -/
namespace Scc.Cc2.Symtab

def TMPSYM : Nat := 0
def NR_SYMHASH : Nat := 64
def USHRT_MAX : Nat := 65535

/-- `struct symbol`, without what the table does not look at. -/
structure Symbol where
  id : Nat
  numid : Nat := 0
  next : Option Nat := none
  prev : Option Nat := none
  h_next : Option Nat := none
  deriving DecidableEq, Repr

/-- The heap and the variables of `symbol.c`. -/
structure State where
  heap : Nat → Option Symbol
  locals : Option Nat
  tail : Option Nat
  symtab : Nat → Option Nat
  infunction : Bool
  /-- A variable of type `unsigned short`. -/
  num : Nat

/-- The program starts without symbols. -/
def init : State := ⟨fun _ => none, none, none, fun _ => none, false, 0⟩

/-- What ends the program; `dangling` is a pointer to a symbol that is not there. -/
inductive Fault where
  | EBADID | EIDOVER | dangling
  deriving DecidableEq, Repr

/-- The bucket of a number. -/
def hash (id : Nat) : Nat := id % NR_SYMHASH

def State.deref (s : State) (p : Nat) : Except Fault Symbol :=
  match s.heap p with
  | none => .error .dangling
  | some sym => .ok sym

def State.write (s : State) (p : Nat) (sym : Symbol) : State :=
  { s with heap := fun q => if q = p then some sym else s.heap q }

def State.insert (s : State) (b : Nat) (p : Option Nat) : State :=
  { s with symtab := fun c => if c = b then p else s.symtab c }

def freesym (s : State) (p : Nat) : State :=
  { s with heap := fun q => if q = p then none else s.heap q }

def pushctx (s : State) : State := { s with infunction := true }

/-- The loop of `popctx`, which visits at most as many symbols as were ever created. -/
def popctxLoop : Nat → Option Nat → State → Except Fault State
  | _, none, s => .ok s
  | 0, some _, _ => .error .dangling
  | steps + 1, some p, s => do
    let sym ← s.deref p
    let s := if sym.id ≠ TMPSYM then s.insert (hash sym.id) sym.h_next else s
    popctxLoop steps sym.prev (freesym s p)

def popctx (s : State) : Except Fault State := do
  let s ← popctxLoop s.num s.tail { s with infunction := false }
  return { s with locals := none, tail := none }

/-- The search of `getsym` along a chain. -/
def search (s : State) (id : Nat) : Nat → Option Nat → Except Fault (Option Nat)
  | _, none => .ok none
  | 0, some _ => .error .dangling
  | steps + 1, some p => do
    let sym ← s.deref p
    if sym.id = id then return some p
    else search s id steps sym.h_next

/-- Only a symbol with a number can be found again. -/
def lookup (s : State) (id : Nat) : Except Fault (Option Nat) :=
  if id ≠ TMPSYM then search s id s.num (s.symtab (hash id)) else .ok none

/-- `tail->next = sym`, where there is a last symbol. -/
def setNext (s : State) (p : Nat) : Except Fault State :=
  match s.tail with
  | none => .ok s
  | some q => do
    let last ← s.deref q
    return s.write q { last with next := some p }

/-- A symbol of the current function goes to the end of the list. -/
def addLocal (s : State) (p : Nat) (sym : Symbol) : Except Fault (State × Symbol) :=
  if s.infunction then do
    let t ← setNext s p
    return ({ t with tail := some p, locals := if t.locals = none then some p else t.locals },
      { sym with next := none, prev := s.tail })
  else .ok (s, sym)

/-- A symbol with a number other than `TMPSYM` goes in front of its chain. -/
def addHashed (s : State) (p : Nat) (sym : Symbol) : State × Symbol :=
  if sym.id ≠ TMPSYM then (s.insert (hash sym.id) (some p), { sym with h_next := s.symtab (hash sym.id) })
  else (s, sym)

/-- The end of `getsym`: the symbol gets its `numid`, and there is a symbol at its address. -/
def addNumbered (s : State) (p : Nat) (sym : Symbol) : Except Fault (Nat × State) :=
  let num := (s.num + 1) % (USHRT_MAX + 1)
  if num = 0 then .error .EIDOVER
  else .ok (p, { s.write p { sym with numid := num } with num := num })

/-- `getsym` where `xcalloc` gives the address `fresh`. -/
def getsym (fresh id : Nat) (s : State) : Except Fault (Nat × State) :=
  if id ≥ USHRT_MAX then .error .EBADID
  else do
    match ← lookup s id with
    | some p => return (p, s)
    | none =>
      let (s, sym) ← addLocal s fresh { id := id }
      let (s, sym) := addHashed s fresh sym
      addNumbered s fresh sym

/-- The symbols of a bucket, each with its address. -/
def chainFrom (s : State) : Nat → Option Nat → Except Fault (List (Nat × Symbol))
  | _, none => .ok []
  | 0, some _ => .error .dangling
  | steps + 1, some p => do
    let sym ← s.deref p
    return (p, sym) :: (← chainFrom s steps sym.h_next)

def chain (s : State) (b : Nat) : Except Fault (List (Nat × Symbol)) := chainFrom s s.num (s.symtab b)

inductive Call where
  | pushctx
  | popctx
  | getsym (id fresh : Nat)
  deriving DecidableEq, Repr

def step : Call → State → Except Fault State
  | .pushctx, s => .ok (pushctx s)
  | .popctx, s => popctx s
  | .getsym id fresh, s => do return (← getsym fresh id s).2

/-- The address of a new symbol is not in use. -/
def Call.Allocates (s : State) : Call → Prop
  | .getsym _ fresh => s.heap fresh = none
  | _ => True

def Step (s t : State) : Prop := ∃ c : Call, c.Allocates s ∧ step c s = .ok t

/-- Any sequence of calls, whatever their numbers and their order. -/
abbrev Reachable : State → Prop := Relation.ReflTransGen Step init

/-- A call that is not the end of a function. -/
def Within (s t : State) : Prop := ∃ c : Call, c ≠ .popctx ∧ c.Allocates s ∧ step c s = .ok t

/-- A call after which there is still a symbol at the address. -/
def Keeping (p : Nat) (s t : State) : Prop := Step s t ∧ t.heap p ≠ none

end Scc.Cc2.Symtab
