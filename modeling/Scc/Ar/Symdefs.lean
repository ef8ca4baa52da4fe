import Mathlib.Data.List.Basic
import Mathlib.Data.List.Nodup

set_option linter.all false

/-! The symbols that `ranlib` collects from the members of an archive for its index, where memory
suffices. -/
namespace Scc.Ar

abbrev Name := List UInt8

/-- A symbol that `getsym` returns. -/
structure Sym where
  name : Name
  type : Char
  deriving DecidableEq

/-- A member that is an object file: where it starts, what `objprobe` says of it, and its
symbols. -/
structure Object where
  offset : Int
  type : Nat
  syms : List Sym

structure Symdef where
  name : Name
  type : Char
  offset : Int
  deriving DecidableEq

/-- The symbols in the order they were made: `next` leads from each to the one before it, and `htab`
has how many there were when the last one of a chain was made. -/
structure Symdefs where
  syms : List Symdef
  htab : Nat → Nat

/-- The variables of `ranlib`; `artype` is `none` for -1. -/
structure Ranlib where
  table : Symdefs
  artype : Option Nat
  nolib : Bool
  status : Bool

def NR_SYMDEF : Nat := 32

def genhash (name : Name) : Nat :=
  (name.foldl (fun (h : UInt32) c => h * 33 ^^^ c.toInt8.toInt32.toUInt32) 5381).toNat

namespace Symdefs

/-- The loop of `lookup`, from the `n`th symbol on. -/
def walk (table : Symdefs) (name : Name) : Nat → Option Nat
  | 0 => none
  | n + 1 => if (table.syms[n]?.map Symdef.name) = some name then some n else walk table name n

/-- The table with the symbol in it, and which one it is. -/
def lookup (table : Symdefs) (name : Name) : Symdefs × Nat :=
  let h := genhash name % NR_SYMDEF
  match table.walk name (table.htab h) with
  | some i => (table, i)
  | none =>
    let n := table.syms.length
    ({ syms := table.syms ++ [⟨name, 'U', -1⟩]
       htab := fun other => if other = h then n + 1 else table.htab other }, n)

end Symdefs

/-- Whether the symbol was taken, and the table; without it there is an error. -/
def newsymbol (offset : Int) (table : Symdefs) (sym : Sym) : Symdefs × Bool :=
  if !sym.type.isUpper || sym.type = 'N' then (table, true)
  else
    let (table, i) := table.lookup sym.name
    let set := { table with syms := table.syms.modify i fun np => { np with type := sym.type, offset } }
    match table.syms[i]?.map Symdef.type with
    | some 'C' => if sym.type = 'C' then (table, true) else (set, true)
    | some 'U' => (set, true)
    | _ => if sym.type ≠ 'C' then (table, false) else (table, true)

/-- The loop of `newmember`, which ends at an error. -/
def newsymbols (offset : Int) : Symdefs → List Sym → Symdefs × Bool
  | table, [] => (table, true)
  | table, sym :: syms =>
    match newsymbol offset table sym with
    | (table, false) => (table, false)
    | (table, true) => newsymbols offset table syms

def newmember (ranlib : Ranlib) (object : Object) : Ranlib :=
  if ∃ t ∈ ranlib.artype, t ≠ object.type then { ranlib with nolib := true }
  else
    let (table, ok) := newsymbols object.offset ranlib.table object.syms
    { ranlib with table, artype := some object.type, status := ranlib.status || !ok }

/-- Before the first member. -/
def Ranlib.start : Ranlib :=
  { table := ⟨[], fun _ => 0⟩, artype := none, nolib := false, status := false }

def readObjects (objects : List Object) : Ranlib := objects.foldl newmember .start

/-- The symbols and offsets of the index, none where no index is written. -/
def Ranlib.index (ranlib : Ranlib) : List (Name × Int) :=
  if ranlib.nolib then [] else (ranlib.table.syms.map fun dp => (dp.name, dp.offset)).reverse

end Scc.Ar
