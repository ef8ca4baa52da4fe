import Mathlib.Data.List.Basic
import Mathlib.Algebra.Group.Nat.Defs

set_option linter.all false

/-! The symbols and the sections of the assembler (as/symbol.c). -/
namespace Scc.As

abbrev Name := List Char

/-- Why the assembler stops. An error goes on with the next line, but no later line changes that the
assembler ends without output; `fault` stands for a null pointer or memory with no defined content. -/
inductive Stop where
  | error (msg : String)
  | die
  | abort
  | fault
  deriving DecidableEq

abbrev M := Except Stop

def error {α : Type} (msg : String) : M α := .error (.error msg)

/-! ## The lines of a source file -/

inductive Binop where
  | times
  | divide
  | mod
  | SHL
  | SHR
  | plus
  | minus
  | lt
  | gt
  | eq
  | GE
  | LE
  | or
  | xor
  | and
  deriving DecidableEq

inductive Unop where
  | not
  | plus
  | minus
  deriving DecidableEq

/-- The expressions of the grammar; `iden` is a name that is not one of a register. -/
inductive Expr where
  | number (val : UInt64)
  | iden (name : Name)
  | unary (op : Unop) (e : Expr)
  | binary (op : Binop) (l r : Expr)

/-- An operand as `operand` and `moperand` tell the kinds of operands apart. -/
inductive Operand where
  | reg (name : Name)
  | string (text : Name)
  | iden (name : Name)
  | imm (e : Expr)
  | direct (e : Expr)
  | indir (reg : Name)
  | index (reg : Name) (off : Expr)
  | bad (msg : String)

/-- A line with at least one field. -/
inductive Line where
  | fields (label op : Option Name) (args : Option (List Operand))
  | bad (msg : String)

/-! ## The symbols -/

structure Symflags where
  FREG : Bool
  FSECT : Bool
  FCOMMON : Bool
  FEXTERN : Bool
  FDEF : Bool
  FGLOBAL : Bool
  FABS : Bool
  deriving DecidableEq

def Symflags.none : Symflags := ⟨false, false, false, false, false, false, false⟩

/-- A symbol, with the section that is named by it. Its own section is `none` where the source has
-1. -/
structure Symbol where
  name : Name
  flags : Symflags
  size : Nat
  value : Nat
  section_ : Option Nat
  dtype : Nat
  sec : Option Nat

structure Secflags where
  SREAD : Bool
  SWRITE : Bool
  SEXEC : Bool
  SLOAD : Bool
  SALLOC : Bool
  SABS : Bool
  deriving DecidableEq

/-- A section, with what has been written to its temporary file. -/
structure Lsection where
  name : Name
  base : Nat
  size : Nat
  flags : Secflags
  fp : Option (List UInt8)
  curpc : Nat
  pc : Nat

/-- What happens to the sections and to the values of the symbols, for the statements. -/
inductive Event where
  | newsec (sec : Nat)
  | emit (sec : Nat) (bytes : List UInt8)
  | label (sym sec : Nat)
  | equ (sym : Nat)
  deriving DecidableEq

/-- The assembler. A symbol or a section is its place in the list of them, where it stays. Each file on
the input stack is what is left of its lines. `log` has the events of each pass over a file, the last
pass first. -/
structure State where
  syms : List Symbol
  secs : List Lsection
  cursec : Option Nat
  cursym : Option Nat
  linesym : Option Nat
  pass : Nat
  inputs : List (List Line)
  endpass : Bool
  log : List (List Event)

/-- The immediate operands, with their widths. -/
inductive Imm where
  | AIMM2
  | AIMM3
  | AIMM5
  | AIMM8
  | AIMM16
  | AIMM32
  | AIMM64
  deriving DecidableEq

def INTIDENTSIZ : Nat := 63

def MAXSYM : Nat := 63

def HASHSIZ : Nat := 64

def genhash (name : Name) : Nat :=
  name.foldl (fun h c => (h * 33 % 2 ^ 32) ^^^ c.toNat) 5381

def casecmp : Name → Name → Int
  | [], s2 => 0 - (s2.head?.map fun c => (c.toNat : Int)).getD 0
  | c :: _, [] => c.toNat
  | c :: s1, d :: s2 => if c.toUpper = d.toUpper then casecmp s1 s2 else (c.toNat : Int) - d.toNat

namespace State

def note (s : State) (e : Event) : State := { s with log := s.log.modifyHead (· ++ [e]) }

def setSym (s : State) (i : Nat) (f : Symbol → Symbol) : State := { s with syms := s.syms.modify i f }

def setSec (s : State) (k : Nat) (f : Lsection → Lsection) : State := { s with secs := s.secs.modify k f }

/-- A symbol through its pointer. -/
def sym (s : State) (i : Nat) : M Symbol :=
  match s.syms[i]? with
  | some sym => .ok sym
  | none => .error .fault

/-- The current section. -/
def sec (s : State) : M (Nat × Lsection) :=
  match s.cursec with
  | none => .error .fault
  | some k =>
    match s.secs[k]? with
    | some sec => .ok (k, sec)
    | none => .error .fault

/-- The name that is looked up for a name. -/
def qualify (s : State) (name : Name) : M Name :=
  match name.head?, s.cursym with
  | some '.', some cur => do
    let curname := (← s.sym cur).name
    let buf := curname ++ name
    if buf.length > INTIDENTSIZ then error "too long local label '%s%s'" else return buf
  | _, _ => return name

/-- The symbol in the hash chain of the name. -/
def find (s : State) (name : Name) : Option Nat :=
  s.syms.findIdx? fun sym => genhash sym.name % HASHSIZ = genhash name % HASHSIZ && casecmp sym.name name = 0

def lookup (s : State) (name : Name) : M (State × Nat) := do
  let name ← s.qualify name
  match s.find name with
  | some i => return (s, i)
  | none =>
    return ({ s with syms := s.syms ++ [⟨name, .none, 0, 0, s.cursec, 0, none⟩] }, s.syms.length)

/-- The name of a label, cut at the length of a symbol. -/
def labelname (s : State) (name : Name) : M Name :=
  if name.head? = some '.' then
    match s.cursym with
    | none => error "local label '%s' without global label"
    | some cur => do
      let label := (← s.sym cur).name ++ name
      if label.length = MAXSYM + 1 then error "local label '%s' in '%s' produces too long symbol"
      else return label.take MAXSYM
  else return name

def deflabel (s : State) (name : Name) : M (State × Nat) := do
  let (s, i) ← s.lookup (← s.labelname name)
  if s.pass = 1 && (← s.sym i).flags.FDEF then error "redefinition of label '%s'"
  let (k, sec) ← s.sec
  let s := s.setSym i fun sym =>
    { sym with
      flags := { sym.flags with FABS := sym.flags.FABS || sec.flags.SABS }
      value := sec.curpc
      section_ := some k }
  let s := s.note (.label i k)
  return (if name.head? = some '.' then s else { s with cursym := some i }, i)

def getpc (s : State) : M Nat := do return (← s.sec).2.curpc

/-- The counters stay below 2^64: pass 1 ends where they pass `maxaddr`. -/
def incpc (maxaddr : Nat) (s : State) (nbytes : Nat) : M State := do
  let (k, sec) ← s.sec
  let curpc := sec.curpc + nbytes
  let pc := sec.pc + nbytes
  let s := s.setSec k fun sec => { sec with curpc, pc }
  if s.pass = 2 then return s
  else
    let siz := pc - sec.base
    let s := s.setSec k fun sec => if siz > sec.size then { sec with size := siz } else sec
    if curpc > maxaddr || pc > maxaddr then .error .die else return s

/-- Also without a temporary file the program counters go on. -/
def emit (maxaddr : Nat) (s : State) (bytes : List UInt8) : M State := do
  let (k, _) ← s.sec
  let s := s.setSec k fun sec => { sec with fp := sec.fp.map (· ++ bytes) }
  incpc maxaddr (s.note (.emit k bytes)) bytes.length

end State

def toobig (val : Nat) : Imm → Bool
  | .AIMM2 => val > 3
  | .AIMM3 => val > 7
  | .AIMM5 => val > 0x1F
  | .AIMM8 => val > 0xFF
  | .AIMM16 => val > 0xFFFF
  | .AIMM32 => val > 0xFFFFFFFF
  | .AIMM64 => true

def secflags (attr : Name) : Secflags :=
  ⟨attr.contains 'r', attr.contains 'w', attr.contains 'x', attr.contains 'l', attr.contains 'c',
    attr.contains 'a'⟩

namespace State

def newsec (s : State) (i : Nat) (name attr : Name) : State :=
  let k := s.secs.length
  let sec : Lsection := ⟨name, 0, 0, secflags attr, none, 0, 0⟩
  let s := { s with secs := s.secs ++ [sec] }
  let s := s.setSym i fun sym =>
    { sym with section_ := some k, sec := some k, flags := { Symflags.none with FSECT := true } }
  s.note (.newsec k)

/-- The name is looked up where there is no current section. -/
def defsec (s : State) (name attr : Name) : M State := do
  let (s, i) ← State.lookup { s with cursec := none } name
  let sym ← s.sym i
  if { sym.flags with FSECT := false } ≠ Symflags.none then error "invalid section name '%s'"
  match sym.sec with
  | some k => return { s with cursec := some k }
  | none => return { s.newsec i sym.name attr with cursec := some s.secs.length }

/-- Where the sections `.text`, `.data` and `.bss` are. -/
def stext : Nat := 0

def sdata : Nat := 1

def sbss : Nat := 2

/-- The start of a pass over a file: each section that is allocated has a new temporary file in pass
2. -/
def cleansecs (s : State) : State :=
  { s with
    secs := s.secs.map fun sec =>
      { sec with
        curpc := sec.base
        pc := sec.base
        fp := if s.pass = 1 || !sec.flags.SALLOC then sec.fp else some [] }
    cursec := some stext
    log := [] :: s.log }

/-- What is left in the temporary files, the section defined last first. -/
def writeout (s : State) : List UInt8 :=
  s.secs.reverse.flatMap fun sec => sec.fp.getD []

end State

/-- What is written of a section. -/
def Lsection.contents (sec : Lsection) : List UInt8 := sec.fp.getD []

end Scc.As
