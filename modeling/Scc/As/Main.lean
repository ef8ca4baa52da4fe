import Scc.As.X80

set_option linter.all false

/-! The passes of the assembler on its files (as/main.c, with `addinput` and `nextline` of as/parser.c). -/
namespace Scc.As

/-- The table of the instructions, which is made from x80/ops.dat, and the lines of the files. -/
structure Env where
  instab : Name → Option (List Op)
  fopen : Name → Option (List Line)

def NR_INPUTS : Nat := 10

/-- The next line, with the input stack behind it; a file without lines left is closed. -/
def nextline : List (List Line) → Option (Line × List (List Line))
  | [] => none
  | [] :: inputs => nextline inputs
  | (l :: ls) :: inputs => some (l, ls :: inputs)

namespace State

def addinput (env : Env) (s : State) (fname : Name) : M State :=
  if s.inputs.length = NR_INPUTS then .error .die
  else
    match env.fopen fname with
    | some lines => return { s with inputs := lines :: s.inputs }
    | none => .error .die

/-- The operation of an instruction on operands that match. -/
def format (env : Env) (s : State) (op : Op) (args : List Arg) : M State := do
  let emit (bytes : M (List UInt8)) : M State := do s.emit z80.maxaddr (← bytes)
  match op.format with
  | .noargs => s.noargs z80 op
  | .string | .ascii => s.xstring z80 args
  | .defb => s.def_ z80 1 args
  | .defw => s.def_ z80 2 args
  | .defd => s.def_ z80 4 args
  | .defq => s.def_ z80 8 args
  | .equ => symexp .EQU s args
  | .common => symexp .COMMON s args
  | .size => symexp .SIZE s args
  | .type => symexp .TYPE s args
  | .section_ => s.section_ args
  | .text => return { s with cursec := some stext }
  | .data => return { s with cursec := some sdata }
  | .bss => return { s with cursec := some sbss }
  | .extrn => s.extrn args
  | .global => s.global args
  | .align => s.align z80 args
  | .end_ => return { s with endpass := true }
  | .include =>
    match args with
    | arg :: _ => do s.addinput env (← s.argname arg)
    | [] => .error .fault
  | .dir => emit (s.dir op args)
  | .ld8 => emit (s.ld8 op args)
  | .alu16 => emit (s.alu16 op args)
  | .ld16 => emit (s.ld16 op args)
  | .alu8 => emit (s.alu8 op args)
  | .idx => emit (s.idx op args)
  | .inout => emit (s.inout op args)
  | .rot_bit => emit (s.rot_bit op args)
  | .im => emit (s.im op args)
  | .jp => emit (s.jp op args)
  | .jr => emit (s.jr op args)
  | .rst => emit (s.rst op args)

/-- The first operation of an instruction that the operands match. -/
def select (s : State) (args : Option (List Arg)) : List Op → M Op
  | [] => error "invalid operands for '%s'"
  | op :: ops => do
    if ← s.match_ op args then return op else s.select args ops

def translate (env : Env) (s : State) (text : Name) (xargs : Option (List Operand)) : M State := do
  match env.instab (text.map Char.toUpper) with
  | none => error "invalid instruction '%s'"
  | some ops => do
    let (s, args) ← s.getargs xargs
    let op ← s.select args ops
    s.format env op (args.getD [])

def label (s : State) : Option Name → M State
  | none => return { s with linesym := none }
  | some label => do
    let (s, i) ← State.deflabel { s with linesym := none } label
    return { s with linesym := some i }

def operation (env : Env) (s : State) (op : Option Name) (args : Option (List Operand)) : M State :=
  match op, args with
  | some op, args => s.translate env op args
  | none, some _ => error "arguments without an opcode"
  | none, none => return s

/-- The label of a line counts as defined after the line. -/
def define (s : State) : State :=
  match s.linesym with
  | none => s
  | some i => s.setSym i fun sym => { sym with flags := { sym.flags with FDEF := true } }

/-- One line of the loop in `dopass`. -/
def line (env : Env) (s : State) : Line → M State
  | .bad msg => error msg
  | .fields label op args => do
    let s ← s.label label
    let s ← s.operation env op args
    return s.define

/-- Before the first pass: the registers and the three sections. -/
def start : M State := do
  let syms := Areg.regs.map fun r =>
    (⟨r.1.toList, { Symflags.none with FREG := true }, 0, r.2.code, none, 0, none⟩ : Symbol)
  let s ← State.defsec ⟨syms, [], none, none, none, 1, [], false, []⟩ ".text".toList "rxcl".toList
  let s ← s.defsec ".data".toList "rwcl".toList
  s.defsec ".bss".toList "rwc".toList

end State

/-- The passes over the files `argv`: `todo` has the files that the current pass has not come to. -/
structure Run where
  todo : List Name
  s : State

namespace Run

/-- The next thing `asm` does: a line, the start of the pass over a file, the second pass or, as
`none`, its end. -/
def step (env : Env) (argv : List Name) (r : Run) : M (Option Run) :=
  match if r.s.endpass then none else nextline r.s.inputs with
  | some (l, inputs) => do
    let s ← State.line env { r.s with inputs } l
    return some { r with s }
  | none =>
    match r.todo with
    | fname :: todo => do
      let s ← r.s.addinput env fname
      return some ⟨todo, { s.cleansecs with endpass := false }⟩
    | [] => if r.s.pass = 1 then return some ⟨argv, { r.s with pass := 2 }⟩ else return none

end Run

end Scc.As
