import Scc.As.X80

set_option linter.all false

/-! The operands of the instructions of the x86 (x86/proc.h, x86/ins.c). -/
namespace Scc.As

/-- The loop of `match`, which is the same for every processor. -/
def walk (check : Pat → Arg → M Bool) (rep opt : Bool) : List Pat → List Arg → M Bool
  | [], args => return args.isEmpty
  | _ :: _, [] => return rep || opt
  | p :: ps, arg :: args => do
    if !(← check p arg) then return false
    else walk check (rep || p = .AREP) (opt || p = .AOPT) (if rep then p :: ps else ps) args

theorem State.matches_walk (s : State) (rep opt : Bool) (ps : List Pat) (args : List Arg) :
    s.matches_ rep opt ps args = walk s.check rep opt ps args := by
  induction args generalizing rep opt ps with
  | nil => cases ps <;> rfl
  | cons arg args ih =>
    cases ps with
    | nil => rfl
    | cons p ps => simp only [State.matches_, walk, ih]

namespace X86

/-- The registers and flags in the order of their codes. -/
inductive Reg where
  | CS | DS | SS | ES | FS | GS | EFLAGS | CF | PF | AF | ZF | SF | TF | IF | DF | OF | IOPL | NT | RF | VM | AC
  | VIF | VIP | ID | AX | AL | AH | EAX | RAX | BX | BL | BH | EBX | RBX | CX | CL | CH | ECX | RCX | DX | DL
  | DH | EDX | RDX | SI | SIL | ESI | RSI | DI | DIL | EDI | RDI | SP | SPL | ESP | RSP | BP | BPL | EBP | RBP
  | R0 | MM0 | R1 | MM1 | R2 | MM2 | R3 | MM3 | R4 | MM4 | R5 | MM5 | R6 | MM6 | R7 | MM7 | R8 | R8L | R8W | R9
  | R9L | R9W | R10 | R10L | R10W | R11 | R11L | R11W | R12 | R12L | R12W | R13 | R13L | R13W | R14 | R14L
  | R14W | R15 | R15L | R15W | XMM0 | XMM1 | XMM2 | XMM3 | XMM4 | XMM5 | XMM6 | XMM7 | XMM8 | XMM9 | XMM10
  | XMM11 | XMM12 | XMM13 | XMM14 | XMM15 | YMM0 | YMM1 | YMM2 | YMM3 | YMM4 | YMM5 | YMM6 | YMM7 | YMM8 | YMM9
  | YMM10 | YMM11 | YMM12 | YMM13 | YMM14 | YMM15 | MXCSR
  deriving DecidableEq

def Reg.code (r : Reg) : Nat := Areg.AMAX + r.ctorIdx

def R8CLASS : Nat := 1 <<< 0

def R16CLASS : Nat := 1 <<< 1

def R32CLASS : Nat := 1 <<< 2

end X86

namespace State

open X86

def getclass86 (s : State) : Arg → M Nat
  | .reg i => do
    let value := (← s.sym i).value
    if value ∈ [Reg.AL, .AH, .BL, .BH, .CL, .CH, .DL, .DH].map Reg.code then return R8CLASS
    else if value ∈ [Reg.AX, .BX, .CX, .DX, .DI, .SI, .SP, .BP].map Reg.code then return R16CLASS
    else if Areg.AMAX ≤ value && value ≤ Reg.MXCSR.code then return 0
    else .error .abort
  | _ => return 0

/-- Whether an operand satisfies a pattern, of which `match` knows no others. -/
def check86 (s : State) : Pat → Arg → M Bool
  | .AOPT, _ | .AREP, _ => return true
  | .regclass cls, arg =>
    if cls = R8CLASS || cls = R16CLASS then return (← s.getclass86 arg) &&& cls ≠ 0 else .error .abort
  | .imm type, arg =>
    if type ∈ [.AIMM8, .AIMM16, .AIMM32, .AIMM64] then
      match arg with
      | .imm e => do
        if toobig (← s.value e) type then error "overflow in immediate operand" else return true
      | _ => return false
    else .error .abort
  | .ASYM, .iden _ | .ASYM, .imm (.iden _) => return true
  | .ADIRECT, .direct _ => return true
  | .ASTR, .string _ => return true
  | .ASYM, _ | .ADIRECT, _ | .ASTR, _ => return false
  | _, _ => .error .abort

def match86 (s : State) (op : Op) (args : Option (List Arg)) : M Bool :=
  match op.args, args with
  | none, args => return args.isNone
  | some _, none => .error .fault
  | some ps, some args => walk s.check86 false false ps args

end State

end Scc.As
