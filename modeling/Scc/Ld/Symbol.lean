import Mathlib.Data.List.Basic
import Mathlib.Algebra.GroupWithZero.Nat

set_option linter.all false

/-! The symbol table of `ld` (ld/symbol.c), and how pass 1 enters the symbols of an object in it. -/
namespace Scc.Ld

abbrev Name := List UInt8

structure Symbol where
  name : Name
  type : Char
  value : UInt64
  size : UInt64
  deriving DecidableEq

/-- The table without its hash chains, the three lists of symbols by their names, and the symbols
that are reported as redefined. -/
structure State where
  symtab : List Symbol
  undef : List Name
  def_ : List Name
  common : List Name
  redefined : List Name

inductive Lst where
  | undef
  | def_
  | common
  deriving DecidableEq

namespace State

/-- Nothing is in the table. -/
def start : State := ⟨[], [], [], [], []⟩

def find (s : State) (name : Name) : Option Symbol := s.symtab.find? fun sym => sym.name = name

def unlinksym (s : State) (name : Name) : State :=
  { s with
    undef := s.undef.filter (· ≠ name)
    def_ := s.def_.filter (· ≠ name)
    common := s.common.filter (· ≠ name) }

def linksym (s : State) : Lst → Name → State
  | .undef, name => { s with undef := s.undef ++ [name] }
  | .def_, name => { s with def_ := s.def_ ++ [name] }
  | .common, name => { s with common := s.common ++ [name] }

/-- An assignment through the pointer to a symbol. -/
def assign (s : State) (name : Name) (value size : UInt64) : State :=
  { s with symtab := s.symtab.map fun sym => if sym.name = name then { sym with value, size } else sym }

def hasref (s : State) (name : Name) : Bool :=
  match s.find name with
  | some sym => sym.type = 'U'
  | none => false

/-- The symbol with the table, to which it is added where it is missing. -/
def lookupsym (s : State) (name : Name) : Symbol × State :=
  match s.find name with
  | some sym => (sym, s)
  | none =>
    (⟨name, 'U', 0, 0⟩, { s with symtab := ⟨name, 'U', 0, 0⟩ :: s.symtab }.linksym .undef name)

def moreundef (s : State) : Bool := !s.undef.isEmpty

/-- What is said of the symbols that are not defined. -/
def listundef (s : State) : List Name := s.undef

/-- `defaul` is a label that nothing goes to, so that no symbol is reported there. -/
def define (s : State) (osym : Symbol) : State :=
  let (sym, s) := s.lookupsym osym.name
  match sym.type with
  | 'U' =>
    let lst := if osym.type = 'C' then .common else .def_
    ((s.assign sym.name osym.value osym.size).unlinksym sym.name).linksym lst sym.name
  | 'C' =>
    if osym.type ≠ 'C' then
      ((s.assign sym.name osym.size osym.size).unlinksym sym.name).linksym .def_ sym.name
    else if sym.size < osym.size then s.assign sym.name osym.value osym.size
    else s
  | _ => s

end State

def islower (c : Char) : Bool := 'a' ≤ c && c ≤ 'z'

section
-- What `sec.base` is, where the section of the symbol in the table was never set.
variable (base : Symbol → UInt64)

def newsym (s : State) (osym : Symbol) : State :=
  if osym.type = 'U' || islower osym.type then s
  else
    let s := s.define osym
    match s.find osym.name with
    | some sym => s.assign sym.name (sym.value + base sym) sym.size
    | none => s

/-- The loop over the symbols of an object. -/
def newsyms (s : State) (obj : List Symbol) : State := obj.foldl (newsym base) s

/-- The option `-u`, and the loads of objects. -/
inductive Event where
  | u (name : Name)
  | load (obj : List Symbol)

def step (s : State) : Event → State
  | .u name => (s.lookupsym name).2
  | .load obj => newsyms base s obj

def run (evs : List Event) : State := evs.foldl (step base) .start

end

end Scc.Ld

/-! The scan of a library with an index (`load` and `scanindex` of ld/pass1.c). -/
namespace Scc.Ld

/-- What `objprobe` and `readobj` find where a file goes on: the type of the object, and its symbols
where it can be read. -/
structure Reader where
  objprobe : List UInt8 → Option Nat
  readobj : Nat → List UInt8 → Option (List Symbol)

/-- Why a member is not loaded. -/
inductive Failure where
  | format
  | compatible
  | read
  deriving DecidableEq

/-- The names of the index with the offsets of their members. -/
abbrev Index := List (Name × Nat)

/-- The members that are loaded or refused, in order. -/
abbrev Trace := List (Nat × Option Failure)

section
variable (base : Symbol → UInt64) (reader : Reader) (bintype : Nat) (file : List UInt8)

/-- The object at an offset of the file. -/
def object (off : Nat) : Except Failure (List Symbol) :=
  match reader.objprobe (file.drop off) with
  | none => .error .format
  | some t =>
    if t ≠ bintype then .error .compatible
    else
      match reader.readobj t (file.drop off) with
      | none => .error .read
      | some obj => .ok obj

/-- `load(fp, OUTLIB)`, which does not ask whether the object is needed. -/
def load (off : Nat) (s : State) : State × Option Failure :=
  match object reader bintype file off with
  | .error failure => (s, some failure)
  | .ok obj => (newsyms base s obj, none)

/-- The inner loop of `scanindex`, which goes once through the index. -/
def pass : Index → State → State × Trace
  | [], s => (s, [])
  | (name, off) :: index, s =>
    if s.hasref name then
      let (s, failure) := load base reader bintype file off s
      let (s, trace) := pass index s
      (s, (off, failure) :: trace)
    else pass index s

/-- It does not return where the fuel is used up. -/
def scanindex (index : Index) : Nat → State → Option (State × Trace)
  | 0, _ => none
  | fuel + 1, s =>
    if !s.moreundef then some (s, [])
    else
      match pass base reader bintype file index s with
      | (s, []) => some (s, [])
      | (s, first) => (scanindex index fuel s).map fun (s, later) => (s, first ++ later)

end

end Scc.Ld

/-! The sections of `ld` (ld/section.c), and how pass 1 merges those of the objects. -/
namespace Scc.Ld

/-- What `getsec` gives as the type of a section. -/
inductive Sectype where
  | T
  | D
  | B
  | N
  | unknown   -- '?'
  deriving DecidableEq

/-- A section of an object, with its bytes in the file. -/
structure Osec where
  name : Name
  type : Sectype
  base : UInt64
  size : UInt64
  flags : Nat
  align : Nat
  bytes : List UInt8
  deriving DecidableEq

/-- A section of the output, with what has been written to its temporary file. It has no type, where
the source has `U`, until an object has the section. -/
structure Sectab where
  name : Name
  type : Option Sectype
  base : UInt64
  size : UInt64
  flags : Nat
  align : Nat
  tmpfp : Option (List UInt8)
  deriving DecidableEq

/-- The table, without its hash chains, and for each section of an object the place that `rebase` is
given, which `rebase` itself leaves aside, or none where the section is reported as incompatible. -/
structure Link where
  secs : List Sectab
  log : List (Osec × Option Nat)

namespace Sectab

/-- A section that no object has. -/
def new (name : Name) : Sectab := ⟨name, none, 0, 0, 0, 0, none⟩

/-- The linker ends where a section is too long. -/
def mkfile (sec : Sectab) (size : UInt64) : Option Sectab :=
  if sec.size.toNat > 2 ^ 64 - 1 - size.toNat then none
  else some { sec with size := sec.size + size, tmpfp := some (sec.tmpfp.getD []) }

/-- The bytes of the section are not copied: the call of `mapsec` is a comment. -/
def copy (osec : Osec) (sec : Sectab) : Option Sectab := sec.mkfile osec.size

def grow (sec : Sectab) (nbytes : BitVec 32) : Option Sectab := do
  let sec ← sec.mkfile ⟨nbytes.signExtend 64⟩
  return { sec with tmpfp := sec.tmpfp.map (· ++ List.replicate nbytes.toInt.toNat 0) }

/-- `align -= sec->size & align-1`, in an `int` -/
def padding (sec : Sectab) (align : Nat) : BitVec 32 :=
  (BitVec.ofNat 64 align - (sec.size.toBitVec &&& (BitVec.ofNat 64 align - 1))).setWidth 32

end Sectab

namespace Link

def start : Link := ⟨[], []⟩

def lookupsec (l : Link) (name : Name) : Sectab := (l.secs.find? fun sec => sec.name = name).getD (.new name)

/-- An assignment through the pointer to a section. -/
def assign (l : Link) (sec : Sectab) : Link :=
  { l with
    secs :=
      if l.secs.any fun other => other.name = sec.name then
        l.secs.map fun other => if other.name = sec.name then sec else other
      else sec :: l.secs }

def newsec (l : Link) (osec : Osec) : Option Link :=
  let sec := l.lookupsec osec.name
  let place (sec : Sectab) : Option Link := do
    let copied ← sec.copy osec
    return { l.assign copied with log := l.log ++ [(osec, some sec.size.toNat)] }
  match sec.type with
  | none => place { sec with type := some osec.type, base := osec.base, size := osec.size, flags := osec.flags }
  | some type =>
    if type ≠ osec.type ∨ sec.flags ≠ osec.flags ∨ sec.align ≠ osec.align then
      some { l with log := l.log ++ [(osec, none)] }
    else do
      let sec ← sec.grow (sec.padding osec.align)
      place sec

/-- The sections of the objects in the order in which they are loaded. -/
def load (l : Link) : List Osec → Option Link
  | [] => some l
  | osec :: osecs => do
    let l ← l.newsec osec
    l.load osecs

end Link

/-! What the merged sections should be. -/

/-- The section has the type and the flags of the first one with its name. -/
def Osec.agrees (osecs : List Osec) (osec : Osec) : Bool :=
  (osecs.find? fun first => first.name = osec.name).all fun first =>
    first.type = osec.type && first.flags = osec.flags

/-- The alignment, where 0 stands for none. -/
def Osec.al (osec : Osec) : Nat := max osec.align 1

/-- The sections of an output section with their places. -/
def placed (log : List (Osec × Option Nat)) (name : Name) : List (Osec × Nat) :=
  log.filterMap fun (osec, place) => if osec.name = name then place.map fun offset => (osec, offset) else none

/-- The sections lie one behind the other between two offsets, each at its alignment, with less padding
than the alignment. -/
def Laid : Nat → List (Osec × Nat) → Nat → Prop
  | start, [], stop => start = stop
  | start, (osec, offset) :: rest, stop =>
    start ≤ offset ∧ offset - start < osec.al ∧ osec.al ∣ offset ∧ Laid (offset + osec.size.toNat) rest stop

/-- The sections of the objects are merged as they should be. -/
structure Merged (osecs : List Osec) (l : Link) : Prop where
  accepted : ∀ osec, (osec, none) ∈ l.log → osec.agrees osecs = false
  laid : ∀ name, Laid 0 (placed l.log name) (l.lookupsec name).size.toNat
  contents : ∀ name, ∀ p ∈ placed l.log name, ∀ i byte, p.1.bytes[i]? = some byte →
    ((l.lookupsec name).tmpfp.getD [])[p.2 + i]? = some byte

/-- How long the sections are that agree and have this name. -/
def total (osecs pre : List Osec) (name : Name) : Nat :=
  ((pre.filter fun osec => osec.name = name && osec.agrees osecs).map fun osec => osec.size.toNat).sum

/-- The condition on the size of a section, behind those before it: it is the first one of its name and empty,
or it has no alignment and the size before it is a multiple of 2^32. -/
def Sized (osecs pre : List Osec) (osec : Osec) : Prop :=
  if pre.any fun other => other.name = osec.name then
    osec.align = 0 ∧ 2 ^ 32 ∣ total osecs pre osec.name ∧ total osecs pre osec.name + osec.size.toNat < 2 ^ 64
  else osec.size = 0

/-- The condition of the sections: those that agree have such a size, and no bytes. -/
def Fit (osecs : List Osec) : Prop :=
  ∀ pre osec post, osecs = pre ++ osec :: post → osec.agrees osecs = true → Sized osecs pre osec ∧ osec.bytes = []

end Scc.Ld
