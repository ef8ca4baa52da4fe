import Scc.As.X86
import Scc.Listing.Marks

set_option linter.all false

/-! Which operands an instruction takes, against the patterns of its table. -/
namespace Scc.As
open Listing

inductive Cpu where
  | x80
  | x86

namespace Cpu

/-- The patterns of x80/opers.dat and x86/opers.dat. -/
def opers : Cpu → List Pat
  | .x80 =>
    [.imm .AIMM8, .imm .AIMM16, .imm .AIMM32, .imm .AIMM64, .imm .AIMM3, .ARST, .index Areg.IY.code,
      .index Areg.IX.code, .regclass SSCLASS, .regclass CCCLASS, .regclass DDCLASS, .regclass QQCLASS,
      .regclass RRCLASS, .regclass PPCLASS, .regclass PCLASS, .regclass QCLASS, .regclass RCLASS, .reg Areg.R.code,
      .indir Areg.DE.code, .indir Areg.BC.code, .indir Areg.HL.code, .indir Areg.SP.code, .indir Areg.C.code,
      .indir Areg.IX.code, .indir Areg.IY.code, .reg Areg.SP.code, .reg Areg.HL.code, .reg Areg.DE.code,
      .reg Areg.IX.code, .reg Areg.IY.code, .reg Areg.AF_.code, .reg Areg.AF.code, .reg Areg.A.code,
      .reg Areg.F.code, .ADIRECT, .reg Areg.I.code, .AZERO, .ASYM, .ASTR]
  | .x86 =>
    [.regclass X86.R8CLASS, .regclass X86.R16CLASS, .regclass X86.R32CLASS, .imm .AIMM8, .imm .AIMM16, .imm .AIMM32,
      .imm .AIMM64, .ADIRECT, .ASYM, .ASTR]

def check : Cpu → State → Pat → Arg → M Bool
  | .x80, s => s.check
  | .x86, s => s.check86

def match_ : Cpu → State → Op → Option (List Arg) → M Bool
  | .x80, s => s.match_
  | .x86, s => s.match86

/-- The codes of the registers. -/
def codes : Cpu → List Nat
  | .x80 => Areg.regs.map fun r => r.2.code
  | .x86 => List.range' Areg.AMAX (X86.Reg.MXCSR.code + 1 - Areg.AMAX)

/-- The registers of a class, as proc.h has them in its comments. -/
def members : Cpu → Nat → List Nat
  | .x80, cls =>
    (if cls = RCLASS then [Areg.B, .C, .D, .E, .H, .L, .A]
    else if cls = PCLASS then [.B, .C, .D, .E, .IXH, .IXL, .A]
    else if cls = QCLASS then [.B, .C, .D, .E, .IYH, .IYL, .A]
    else if cls = DDCLASS then [.BC, .DE, .HL, .SP]
    else if cls = QQCLASS then [.BC, .DE, .HL, .AF]
    else if cls = PPCLASS then [.BC, .DE, .IX, .SP]
    else if cls = RRCLASS then [.BC, .DE, .IY, .SP]
    else if cls = SSCLASS then [.C, .NC, .Z, .NZ]
    else if cls = CCCLASS then [.NZ, .Z, .NC, .C, .PO, .PE, .P, .M]
    else []).map Areg.code
  | .x86, cls =>
    (if cls = X86.R8CLASS then [X86.Reg.AL, .CL, .DL, .BL, .AH, .CH, .DH, .BH]
    else if cls = X86.R16CLASS then [.AX, .CX, .DX, .BX, .SP, .BP, .SI, .DI]
    else if cls = X86.R32CLASS then [.EAX, .ECX, .EDX, .EBX, .ESP, .EBP, .ESI, .EDI]
    else []).map X86.Reg.code

end Cpu

def Imm.width : Imm → Nat
  | .AIMM2 => 2
  | .AIMM3 => 3
  | .AIMM5 => 5
  | .AIMM8 => 8
  | .AIMM16 => 16
  | .AIMM32 => 32
  | .AIMM64 => 64

section
variable (cpu : Cpu) (s : State)

/-- The code of the register with this symbol. -/
def State.regcode (i : Nat) : Option Nat := (s.syms[i]?).map Symbol.value

/-- An operand satisfies a pattern. An offset is a byte with or without a sign. -/
def Satisfies : Pat → Arg → Prop
  | .reg code, .reg i | .indir code, .indir i => s.regcode i = some code
  | .regclass cls, .reg i => ∃ code ∈ cpu.members cls, s.regcode i = some code
  | .index code, .index i off =>
    s.regcode i = some code ∧ ∃ val, s.value off = .ok val ∧ (val ≤ 0xFF ∨ 2 ^ 64 - 0x80 ≤ val)
  | .ARST, .imm e => ∃ val, s.value e = .ok val ∧ val ∈ [0x00, 0x08, 0x10, 0x18, 0x20, 0x28, 0x30, 0x38]
  | .AZERO, .imm e => s.value e = .ok 0
  | .imm type, .imm e => ∃ val, s.value e = .ok val ∧ val < 2 ^ type.width
  | .ASYM, .iden _ | .ASYM, .imm (.iden _) => True
  | .ADIRECT, .direct _ => True
  | .ASTR, .string _ => True
  | _, _ => False

/-- What is read through the node of an operand is there. -/
def Arg.Whole : Arg → Prop
  | .reg i | .indir i => ∃ code ∈ cpu.codes, s.regcode i = some code
  | .index i off => (∃ code ∈ cpu.codes, s.regcode i = some code) ∧ ∃ val < 2 ^ 64, s.value off = .ok val
  | .iden i => i < s.syms.length
  | .imm e | .direct e => ∃ val < 2 ^ 64, s.value e = .ok val
  | .string _ => True

end

/-- An element as mktbl.awk writes it. -/
def encode : Element Pat → List Pat
  | .one p => [p]
  | .opt p => [.AOPT, p]
  | .rep p => [.AREP, p]

/-- An operation with operands of these patterns, or without any. -/
def tableop (elements : Option (List (Element Pat))) : Op :=
  ⟨0, .noargs, [], elements.map fun es => es.flatMap encode⟩

/-- The operand field satisfies the patterns. -/
def Satisfied (cpu : Cpu) (s : State) : Option (List (Element Pat)) → Option (List Arg) → Prop
  | none, args => args = none
  | some _, none => False
  | some es, some args => Accepts (Satisfies cpu s) es args

/-- What is asked of `match`: it reads nothing that is not there, does not abort, and is true where
the operands satisfy the patterns. -/
structure Right (result : M Bool) (satisfied : Prop) : Prop where
  fault : result ≠ .error .fault
  abort : result ≠ .error .abort
  true_iff : result = .ok true ↔ satisfied

/-- The patterns that are checked for what they say. -/
def Cpu.sound : Cpu → Pat → Bool
  | .x80, .AZERO | .x80, .index _ => false
  | .x86, .regclass cls => cls ≠ X86.R32CLASS
  | _, .imm type => type ≠ .AIMM64
  | _, _ => true

/-! One operand. -/

section
variable {cpu : Cpu} {s : State} {result : M Bool} {sat : Prop} {p : Pat} {arg : Arg} {e : Val} {i : Nat}

theorem Right.ok {b : Bool} (computed : result = .ok b) (same : b = true ↔ sat) : Right result sat := by
  rw [computed]
  refine ⟨by simp, by simp, ?_⟩
  rw [← same]
  exact ⟨fun h => Except.ok.inj h, fun h => congrArg _ h⟩

theorem Right.reported {msg : String} (computed : result = error msg) (not_ : ¬sat) : Right result sat := by
  rw [computed]
  refine ⟨by simp [error], by simp [error], ?_⟩
  exact ⟨fun h => (by cases h), fun h => (not_ h).elim⟩

theorem Right.refused (computed : result = .ok false) (not_ : ¬sat) : Right result sat :=
  Right.ok computed ⟨fun h => (by cases h), fun h => (not_ h).elim⟩

theorem toobig_iff {type : Imm} (val : Nat) (narrow : type ≠ .AIMM64) :
    toobig val type = true ↔ ¬val < 2 ^ type.width := by
  cases type <;> simp [toobig, Imm.width] at narrow ⊢ <;> omega

/-- Registers through their symbols. -/
theorem State.sym_regcode {code : Nat} (there : s.regcode i = some code) : ∃ sym, s.sym i = .ok sym ∧ sym.value = code := by
  obtain ⟨sym, found, value⟩ := Option.map_eq_some_iff.mp there
  refine ⟨sym, ?_, value⟩
  rw [State.sym, found]

def classes : List Nat := [RCLASS, PCLASS, QCLASS, DDCLASS, QQCLASS, PPCLASS, RRCLASS, CCCLASS, SSCLASS]

theorem regclass_known {cls : Nat} (known : .regclass cls ∈ Cpu.x80.opers) : cls ∈ classes := by
  simp only [Cpu.opers, List.mem_cons, List.not_mem_nil, or_false, reduceCtorEq, false_or, Pat.regclass.injEq] at known
  rcases known with rfl | rfl | rfl | rfl | rfl | rfl | rfl | rfl | rfl <;> decide

theorem ofCode_code (r : Areg) : Areg.ofCode r.code = some r := by
  cases r <;> rfl

theorem getclass_members {cls code : Nat} (listed : cls ∈ classes) (there : s.regcode i = some code)
    (mem : code ∈ Cpu.x80.codes) : ∃ c, s.getclass (.reg i) = .ok c ∧ (c &&& cls ≠ 0 ↔ code ∈ Cpu.x80.members cls) := by
  obtain ⟨sym, found, value⟩ := State.sym_regcode there
  obtain ⟨⟨name, r⟩, -, rfl⟩ := List.mem_map.mp mem
  simp only [State.getclass, found, value, bind, Except.bind, ofCode_code]
  cases r
  all_goals
    refine ⟨_, rfl, ?_⟩
    revert cls
    decide

/-- The registers that `getclass` of the x86 tells apart. -/
theorem members86 {cls : Nat} (listed : cls ∈ [X86.R8CLASS, X86.R16CLASS]) (code : Nat) :
    (code ∈ Cpu.x86.members X86.R8CLASS → (X86.R8CLASS &&& cls ≠ 0 ↔ code ∈ Cpu.x86.members cls)) ∧
      (code ∈ Cpu.x86.members X86.R16CLASS → (X86.R16CLASS &&& cls ≠ 0 ↔ code ∈ Cpu.x86.members cls)) ∧
      (code ∉ Cpu.x86.members X86.R8CLASS → code ∉ Cpu.x86.members X86.R16CLASS → code ∉ Cpu.x86.members cls) := by
  have apart : ∀ code ∈ Cpu.x86.members X86.R8CLASS, code ∉ Cpu.x86.members X86.R16CLASS := by decide
  rcases List.mem_cons.mp listed with rfl | listed
  · have same : X86.R8CLASS &&& X86.R8CLASS ≠ 0 := by decide
    have other : X86.R16CLASS &&& X86.R8CLASS = 0 := by decide
    refine ⟨fun is => ⟨fun _ => is, fun _ => same⟩, fun is => ⟨fun bit => (bit other).elim, fun is' => ?_⟩, fun no _ => no⟩
    exact (apart code is' is).elim
  · rw [List.mem_singleton.mp listed]
    have same : X86.R16CLASS &&& X86.R16CLASS ≠ 0 := by decide
    have other : X86.R8CLASS &&& X86.R16CLASS = 0 := by decide
    refine ⟨fun is => ⟨fun bit => (bit other).elim, fun is' => ?_⟩, fun is => ⟨fun _ => is, fun _ => same⟩, fun _ no => no⟩
    exact (apart code is is').elim

theorem getclass86_members {cls code : Nat} (listed : cls ∈ [X86.R8CLASS, X86.R16CLASS])
    (there : s.regcode i = some code) (mem : code ∈ Cpu.x86.codes) :
    ∃ c, s.getclass86 (.reg i) = .ok c ∧ (c &&& cls ≠ 0 ↔ code ∈ Cpu.x86.members cls) := by
  obtain ⟨sym, found, rfl⟩ := State.sym_regcode there
  obtain ⟨first, second, neither⟩ := members86 listed sym.value
  have r8 : ∀ code, code ∈ [X86.Reg.AL, .AH, .BL, .BH, .CL, .CH, .DL, .DH].map X86.Reg.code ↔
      code ∈ Cpu.x86.members X86.R8CLASS := by
    have one : ∀ code ∈ [X86.Reg.AL, .AH, .BL, .BH, .CL, .CH, .DL, .DH].map X86.Reg.code,
        code ∈ Cpu.x86.members X86.R8CLASS := by decide
    have two : ∀ code ∈ Cpu.x86.members X86.R8CLASS,
        code ∈ [X86.Reg.AL, .AH, .BL, .BH, .CL, .CH, .DL, .DH].map X86.Reg.code := by decide
    exact fun code => ⟨one code, two code⟩
  have r16 : ∀ code, code ∈ [X86.Reg.AX, .BX, .CX, .DX, .DI, .SI, .SP, .BP].map X86.Reg.code ↔
      code ∈ Cpu.x86.members X86.R16CLASS := by
    have one : ∀ code ∈ [X86.Reg.AX, .BX, .CX, .DX, .DI, .SI, .SP, .BP].map X86.Reg.code,
        code ∈ Cpu.x86.members X86.R16CLASS := by decide
    have two : ∀ code ∈ Cpu.x86.members X86.R16CLASS,
        code ∈ [X86.Reg.AX, .BX, .CX, .DX, .DI, .SI, .SP, .BP].map X86.Reg.code := by decide
    exact fun code => ⟨one code, two code⟩
  have range : Areg.AMAX ≤ sym.value ∧ sym.value ≤ X86.Reg.MXCSR.code := by
    have bounds := List.mem_range'_1.mp mem
    omega
  simp only [State.getclass86, found, bind, Except.bind, r8, r16]
  split
  case isTrue is => exact ⟨_, rfl, first is⟩
  case isFalse other =>
    split
    case isTrue is => exact ⟨_, rfl, second is⟩
    case isFalse other' =>
      rw [if_pos (by simp [range])]
      refine ⟨0, rfl, ?_⟩
      simp [neither other other']

/-- The values that `ARST` lets pass. -/
theorem rst_iff (val : Nat) (small : val < 2 ^ 64) :
    val &&& (2 ^ 64 - 1 - 0x38) = 0 ↔ val ∈ [0x00, 0x08, 0x10, 0x18, 0x20, 0x28, 0x30, 0x38] := by
  have low : ∀ val < 64, val &&& (2 ^ 64 - 1 - 0x38) = 0 ↔ val ∈ [0x00, 0x08, 0x10, 0x18, 0x20, 0x28, 0x30, 0x38] := by
    decide
  by_cases below : val < 64
  · exact low val below
  · have high : (val &&& (2 ^ 64 - 1 - 0x38)) >>> 6 = val >>> 6 := by
      have mask : (2 ^ 64 - 1 - 0x38) >>> 6 = 2 ^ 58 - 1 := by decide
      have fits : val >>> 6 < 2 ^ 58 := by
        rw [Nat.shiftRight_eq_div_pow]
        omega
      rw [Nat.shiftRight_and_distrib, mask, Nat.and_two_pow_sub_one_eq_mod, Nat.mod_eq_of_lt fits]
    constructor
    · intro zero
      rw [zero, Nat.shiftRight_eq_div_pow, Nat.shiftRight_eq_div_pow] at high
      omega
    · intro listed
      simp only [List.mem_cons, List.not_mem_nil, or_false] at listed
      omega

theorem imm_right {type : Imm} (narrow : type ≠ .AIMM64) {val : Nat} (value : s.value e = .ok val) :
    Right (do if toobig (← s.value e) type then error "overflow in immediate operand" else return true)
      (Satisfies cpu s (.imm type) (.imm e)) := by
  have satisfied : Satisfies cpu s (.imm type) (.imm e) ↔ val < 2 ^ type.width := by
    constructor
    · rintro ⟨val', value', small⟩
      cases value.symm.trans value'
      exact small
    · exact fun small => ⟨val, value, small⟩
  simp only [value, bind, Except.bind]
  by_cases big : toobig val type = true
  · rw [if_pos big]
    exact Right.reported rfl fun yes => (toobig_iff val narrow).mp big (satisfied.mp yes)
  · rw [if_neg big]
    refine Right.ok rfl ⟨fun _ => satisfied.mpr ?_, fun _ => rfl⟩
    by_contra large
    exact big ((toobig_iff val narrow).mpr large)

/-- Whether a register has a code. -/
theorem regcode_right {code : Nat} (whole : ∃ code ∈ cpu.codes, s.regcode i = some code) :
    Right (do return (← s.sym i).value = code) (s.regcode i = some code) := by
  obtain ⟨code', -, there⟩ := whole
  obtain ⟨sym, found, rfl⟩ := State.sym_regcode there
  simp only [found, bind, Except.bind]
  apply Right.ok rfl
  rw [there, decide_eq_true_iff, Option.some.injEq]

/-- A pattern of the Z80 that is checked for what it says. -/
theorem check_right (listed : p ∈ Cpu.x80.opers) (sound : Cpu.x80.sound p = true) (whole : arg.Whole .x80 s) :
    Right (s.check p arg) (Satisfies .x80 s p arg) := by
  have other : Right (.ok false) False := Right.refused rfl id
  cases p with
  | AOPT => exact absurd listed (by decide)
  | AREP => exact absurd listed (by decide)
  | AZERO => cases sound
  | index code => cases sound
  | reg code =>
    cases arg with
    | reg i => exact regcode_right whole
    | _ => exact other
  | indir code =>
    cases arg with
    | indir i => exact regcode_right whole
    | _ => exact other
  | regclass cls =>
    cases arg with
    | reg i =>
      obtain ⟨code, mem, there⟩ := whole
      obtain ⟨c, found, members⟩ := getclass_members (regclass_known listed) there mem
      have satisfied : Satisfies .x80 s (.regclass cls) (.reg i) ↔ code ∈ Cpu.x80.members cls := by
        constructor
        · rintro ⟨code', listed', there'⟩
          cases there.symm.trans there'
          exact listed'
        · exact fun listed' => ⟨code, listed', there⟩
      simp only [State.check, found, bind, Except.bind]
      apply Right.ok rfl
      rw [satisfied, ← members, decide_eq_true_iff]
    | _ =>
      refine Right.refused ?_ id
      simp [State.check, State.getclass, bind, Except.bind, pure, Except.pure]
  | ARST =>
    cases arg with
    | imm e =>
      obtain ⟨val, small, value⟩ := whole
      have satisfied : Satisfies .x80 s .ARST (.imm e) ↔ val ∈ [0x00, 0x08, 0x10, 0x18, 0x20, 0x28, 0x30, 0x38] := by
        constructor
        · rintro ⟨val', value', listed'⟩
          cases value.symm.trans value'
          exact listed'
        · exact fun listed' => ⟨val, value, listed'⟩
      simp only [State.check, value, bind, Except.bind]
      apply Right.ok rfl
      rw [satisfied, ← rst_iff val small, decide_eq_true_iff]
    | _ => exact other
  | imm type =>
    cases arg with
    | imm e =>
      obtain ⟨val, -, value⟩ := whole
      exact imm_right (of_decide_eq_true sound) value
    | _ => exact other
  | ASYM =>
    cases arg with
    | iden i => exact Right.ok rfl ⟨fun _ => trivial, fun _ => rfl⟩
    | imm e =>
      cases e with
      | iden i => exact Right.ok rfl ⟨fun _ => trivial, fun _ => rfl⟩
      | _ => exact other
    | _ => exact other
  | ADIRECT =>
    cases arg with
    | direct e => exact Right.ok rfl ⟨fun _ => trivial, fun _ => rfl⟩
    | _ => exact other
  | ASTR =>
    cases arg with
    | string text => exact Right.ok rfl ⟨fun _ => trivial, fun _ => rfl⟩
    | _ => exact other

theorem regclass86_known {cls : Nat} (listed : .regclass cls ∈ Cpu.x86.opers) (sound : Cpu.x86.sound (.regclass cls) = true) :
    cls ∈ [X86.R8CLASS, X86.R16CLASS] := by
  simp only [Cpu.opers, List.mem_cons, List.not_mem_nil, or_false, reduceCtorEq, Pat.regclass.injEq] at listed
  rcases listed with rfl | rfl | rfl
  · exact List.mem_cons_self
  · exact List.mem_cons_of_mem _ List.mem_cons_self
  · exact absurd sound (by decide)

theorem imm86_known {type : Imm} (listed : .imm type ∈ Cpu.x86.opers) : type ∈ [Imm.AIMM8, .AIMM16, .AIMM32, .AIMM64] := by
  simp only [Cpu.opers, List.mem_cons, List.not_mem_nil, or_false, reduceCtorEq, false_or, Pat.imm.injEq] at listed
  rcases listed with rfl | rfl | rfl | rfl <;> decide

/-- A pattern of the x86 that is checked for what it says. -/
theorem check86_right (listed : p ∈ Cpu.x86.opers) (sound : Cpu.x86.sound p = true) (whole : arg.Whole .x86 s) :
    Right (s.check86 p arg) (Satisfies .x86 s p arg) := by
  have other : Right (.ok false) False := Right.refused rfl id
  cases p with
  | AOPT | AREP | AZERO | ARST | index code | reg code | indir code => exact absurd listed (by simp [Cpu.opers])
  | regclass cls =>
    have known := regclass86_known listed sound
    have tested : (cls = X86.R8CLASS || cls = X86.R16CLASS) = true := by
      simpa using known
    cases arg with
    | reg i =>
      obtain ⟨code, mem, there⟩ := whole
      obtain ⟨c, found, members⟩ := getclass86_members known there mem
      have satisfied : Satisfies .x86 s (.regclass cls) (.reg i) ↔ code ∈ Cpu.x86.members cls := by
        constructor
        · rintro ⟨code', listed', there'⟩
          cases there.symm.trans there'
          exact listed'
        · exact fun listed' => ⟨code, listed', there⟩
      simp only [State.check86, tested, if_true, found, bind, Except.bind]
      apply Right.ok rfl
      rw [satisfied, ← members, decide_eq_true_iff]
    | _ =>
      refine Right.refused ?_ id
      simp [State.check86, tested, State.getclass86, bind, Except.bind, pure, Except.pure]
  | imm type =>
    have known := imm86_known listed
    cases arg with
    | imm e =>
      obtain ⟨val, -, value⟩ := whole
      simp only [State.check86, if_pos known]
      exact imm_right (of_decide_eq_true sound) value
    | _ =>
      refine Right.refused ?_ id
      simp only [State.check86, if_pos known]
      rfl
  | ASYM =>
    cases arg with
    | iden i => exact Right.ok rfl ⟨fun _ => trivial, fun _ => rfl⟩
    | imm e =>
      cases e with
      | iden i => exact Right.ok rfl ⟨fun _ => trivial, fun _ => rfl⟩
      | _ => exact other
    | _ => exact other
  | ADIRECT =>
    cases arg with
    | direct e => exact Right.ok rfl ⟨fun _ => trivial, fun _ => rfl⟩
    | _ => exact other
  | ASTR =>
    cases arg with
    | string text => exact Right.ok rfl ⟨fun _ => trivial, fun _ => rfl⟩
    | _ => exact other

theorem Cpu.check_right (listed : p ∈ cpu.opers) (sound : cpu.sound p = true) (whole : arg.Whole cpu s) :
    Right (cpu.check s p arg) (Satisfies cpu s p arg) :=
  match cpu with
  | .x80 => As.check_right listed sound whole
  | .x86 => check86_right listed sound whole

end

/-! The loop. -/

section
variable {cpu : Cpu} {s : State} {args : List Arg} {es : List (Element Pat)}

theorem Cpu.match_eq (cpu : Cpu) (s : State) (elements : Option (List (Element Pat))) (args : Option (List Arg)) :
    cpu.match_ s (tableop elements) args =
      match elements, args with
      | none, args => .ok args.isNone
      | some _, none => .error .fault
      | some es, some args => walk (cpu.check s) false false (es.flatMap encode) args := by
  cases cpu with
  | x80 =>
    cases elements with
    | none => rfl
    | some es =>
      cases args with
      | none => rfl
      | some args => exact s.matches_walk false false (es.flatMap encode) args
  | x86 =>
    cases elements with
    | none => rfl
    | some es => cases args <;> rfl

/-- No pattern of a table is a mark. -/
theorem Cpu.unmarked {p : Pat} (listed : p ∈ cpu.opers) : p ≠ .AOPT ∧ p ≠ .AREP := by
  have each : ∀ cpu : Cpu, ∀ p ∈ cpu.opers, p ≠ .AOPT ∧ p ≠ .AREP := by
    intro cpu
    cases cpu <;> decide
  exact each cpu p listed

/-- One operand for one element. -/
theorem walk_one {p : Pat} (ps : List Pat) (arg : Arg) (args : List Arg) (listed : p ∈ cpu.opers) :
    walk (cpu.check s) false false (p :: ps) (arg :: args) = (do
      if !(← cpu.check s p arg) then return false
      else walk (cpu.check s) false false ps args) := by
  obtain ⟨opt, rep⟩ := cpu.unmarked listed
  simp [walk, opt, rep]

/-- A mark takes an operand that is not looked at, and the list may end behind it. -/
theorem walk_marked {m p : Pat} {ps : List Pat} {arg : Arg} (mark : m ∈ [Pat.AOPT, .AREP]) :
    walk (cpu.check s) false false (m :: p :: ps) [arg] = .ok true := by
  simp only [List.mem_cons, List.not_mem_nil, or_false] at mark
  rcases mark with rfl | rfl
  all_goals
    cases cpu <;> rfl

/-- Elements that are checked for what they say, each for one operand. -/
theorem walk_right (plain : ∀ e ∈ es, e.Plain ∧ e.pat ∈ cpu.opers ∧ cpu.sound e.pat = true)
    (whole : ∀ arg ∈ args, arg.Whole cpu s) :
    Right (walk (cpu.check s) false false (es.flatMap encode) args) (Accepts (Satisfies cpu s) es args) := by
  induction es generalizing args with
  | nil =>
    cases args with
    | nil => exact Right.ok rfl ⟨fun _ => .nil, fun _ => rfl⟩
    | cons arg args => exact Right.refused rfl (fun accepts => by cases accepts)
  | cons e es ih =>
    obtain ⟨one, listed, sound⟩ := plain e List.mem_cons_self
    cases e with
    | opt p => exact one.elim
    | rep p => exact one.elim
    | one p =>
      change p ∈ cpu.opers at listed
      cases args with
      | nil => exact Right.refused rfl (fun accepts => by cases accepts)
      | cons arg args =>
        have here := cpu.check_right (s := s) listed sound (whole arg List.mem_cons_self)
        have rest := ih (fun e mem => plain e (List.mem_cons_of_mem _ mem)) fun arg mem => whole arg (List.mem_cons_of_mem _ mem)
        have step := walk_one (s := s) (es.flatMap encode) arg args listed
        show Right (walk (cpu.check s) false false (p :: es.flatMap encode) (arg :: args)) _
        rw [step]
        cases checked : cpu.check s p arg with
        | error stop =>
          rw [checked] at here
          refine ⟨here.fault, here.abort, ⟨fun h => (by cases h), fun accepts => ?_⟩⟩
          exact absurd (here.true_iff.mpr (Accepts.one_iff.mp accepts).1) (by simp)
        | ok is =>
          rw [checked] at here
          cases is with
          | false =>
            refine Right.refused rfl fun accepts => ?_
            exact absurd (here.true_iff.mpr (Accepts.one_iff.mp accepts).1) (by simp)
          | true =>
            have same : Accepts (Satisfies cpu s) (.one p :: es) (arg :: args) ↔ Accepts (Satisfies cpu s) es args :=
              Accepts.one_iff.trans (and_iff_right (here.true_iff.mp rfl))
            rw [same]
            exact rest

end

/-! Operands for each pattern. -/

/-- A state whose symbols are all the registers. -/
def registers : State :=
  ⟨(List.range 200).map fun i => ⟨[], .none, 0, Areg.AMAX + i, none, 0, none⟩, [], none, none, none, 1, [], false, []⟩

namespace Cpu

/-- An operand that satisfies the pattern. -/
def good (cpu : Cpu) : Pat → Arg
  | .reg code => .reg (code - Areg.AMAX)
  | .indir code => .indir (code - Areg.AMAX)
  | .index code => .index (code - Areg.AMAX) (.number 0)
  | .regclass cls => .reg ((cpu.members cls).headD 0 - Areg.AMAX)
  | .ARST | .AZERO | .imm _ => .imm (.number 0)
  | .ASYM => .iden 0
  | .ADIRECT => .direct (.number 0)
  | .ASTR | .AOPT | .AREP => .string []

/-- One that does not. -/
def bad : Pat → Arg
  | .ASTR => .imm (.number 0)
  | _ => .string []

/-- One that does not and that is taken for one that does. -/
def loose : Pat → Arg
  | .AZERO => .imm (.number 1)
  | .index code => .index (code - Areg.AMAX) (.number 0x100)
  | _ => .string []

/-- No operand passes: every immediate is too big for `AIMM64`, and `match` of the x86 does not know the
third class. -/
def stuck : Cpu → Pat → Bool
  | _, .imm .AIMM64 => true
  | .x86, .regclass cls => cls = X86.R32CLASS
  | _, _ => false

variable {cpu : Cpu} {p : Pat}

theorem good_check (listed : p ∈ cpu.opers) (passes : cpu.stuck p = false) :
    cpu.check registers p (cpu.good p) = .ok true := by
  cases cpu with
  | x80 =>
    simp only [opers, List.mem_cons, List.not_mem_nil, or_false] at listed
    rcases listed with rfl | rfl | rfl | rfl | rfl | rfl | rfl | rfl | rfl | rfl | rfl | rfl | rfl | rfl | rfl | rfl |
      rfl | rfl | rfl | rfl | rfl | rfl | rfl | rfl | rfl | rfl | rfl | rfl | rfl | rfl | rfl | rfl | rfl | rfl | rfl |
      rfl | rfl | rfl | rfl
    all_goals
      first
      | rfl
      | cases passes
  | x86 =>
    simp only [opers, List.mem_cons, List.not_mem_nil, or_false] at listed
    rcases listed with rfl | rfl | rfl | rfl | rfl | rfl | rfl | rfl | rfl | rfl
    all_goals
      first
      | rfl
      | cases passes

theorem good_whole (listed : p ∈ cpu.opers) : (cpu.good p).Whole cpu registers := by
  cases cpu with
  | x80 =>
    simp only [opers, List.mem_cons, List.not_mem_nil, or_false] at listed
    rcases listed with rfl | rfl | rfl | rfl | rfl | rfl | rfl | rfl | rfl | rfl | rfl | rfl | rfl | rfl | rfl | rfl |
      rfl | rfl | rfl | rfl | rfl | rfl | rfl | rfl | rfl | rfl | rfl | rfl | rfl | rfl | rfl | rfl | rfl | rfl | rfl |
      rfl | rfl | rfl | rfl
    all_goals
      first
      | exact trivial
      | exact ⟨0, by decide, rfl⟩
      | exact ⟨_, by decide, rfl⟩
      | exact ⟨⟨_, by decide, rfl⟩, 0, by decide, rfl⟩
      | exact (by decide : 0 < 200)
  | x86 =>
    simp only [opers, List.mem_cons, List.not_mem_nil, or_false] at listed
    rcases listed with rfl | rfl | rfl | rfl | rfl | rfl | rfl | rfl | rfl | rfl
    all_goals
      first
      | exact trivial
      | exact ⟨0, by decide, rfl⟩
      | exact ⟨_, by decide, rfl⟩
      | exact (by decide : 0 < 200)

theorem good_sat (listed : p ∈ cpu.opers) : Satisfies cpu registers p (cpu.good p) := by
  by_cases sound : cpu.sound p = true
  · have right := cpu.check_right (s := registers) listed sound (good_whole listed)
    have passes : cpu.stuck p = false := by
      cases cpu <;> cases p <;> simp_all [stuck, Cpu.sound]
    exact right.true_iff.mp (good_check listed passes)
  · cases cpu with
    | x80 =>
      simp only [opers, List.mem_cons, List.not_mem_nil, or_false] at listed
      rcases listed with rfl | rfl | rfl | rfl | rfl | rfl | rfl | rfl | rfl | rfl | rfl | rfl | rfl | rfl | rfl | rfl |
        rfl | rfl | rfl | rfl | rfl | rfl | rfl | rfl | rfl | rfl | rfl | rfl | rfl | rfl | rfl | rfl | rfl | rfl | rfl |
        rfl | rfl | rfl | rfl
      all_goals
        first
        | exact (sound rfl).elim
        | exact ⟨0, rfl, by decide⟩
        | exact ⟨rfl, 0, rfl, by decide⟩
        | rfl
    | x86 =>
      simp only [opers, List.mem_cons, List.not_mem_nil, or_false] at listed
      rcases listed with rfl | rfl | rfl | rfl | rfl | rfl | rfl | rfl | rfl | rfl
      all_goals
        first
        | exact (sound rfl).elim
        | exact ⟨0, rfl, by decide⟩
        | exact ⟨_, by decide, rfl⟩

theorem bad_whole (p : Pat) : (bad p).Whole cpu registers := by
  cases p
  case ASTR => exact ⟨0, by decide, rfl⟩
  all_goals exact trivial

theorem bad_unsat (p : Pat) : ¬Satisfies cpu registers p (bad p) := by
  cases p <;> exact id

theorem stuck_check (held : cpu.stuck p = true) (s : State) (arg : Arg) : cpu.check s p arg ≠ .ok true := by
  have big {e : Val} : (do
      if toobig (← s.value e) .AIMM64 then error "overflow in immediate operand" else return true) ≠ (.ok true : M Bool) := by
    cases value : s.value e with
    | error stop => simp [bind, Except.bind]
    | ok val => simp [bind, Except.bind, toobig, error]
  cases cpu with
  | x80 =>
    cases p with
    | imm type =>
      cases type with
      | AIMM64 =>
        cases arg with
        | imm e => exact big
        | _ => simp [check, State.check, pure, Except.pure]
      | _ => cases held
    | _ => cases held
  | x86 =>
    cases p with
    | imm type =>
      cases type with
      | AIMM64 =>
        cases arg with
        | imm e => exact big
        | _ => simp [check, State.check86, pure, Except.pure]
      | _ => cases held
    | regclass cls =>
      have third : cls = X86.R32CLASS := of_decide_eq_true held
      subst third
      simp [check, State.check86, X86.R32CLASS, X86.R8CLASS, X86.R16CLASS]
    | _ => cases held

/-- A pattern that is not checked for what it says and that operands pass. -/
structure Loose (cpu : Cpu) (p : Pat) : Prop where
  whole : (loose p).Whole cpu registers
  passes : cpu.check registers p (loose p) = .ok true
  unsat : ¬Satisfies cpu registers p (loose p)

theorem loose_of_unsound (listed : p ∈ cpu.opers) (unsound : cpu.sound p = false) (passes : cpu.stuck p = false) :
    Loose cpu p := by
  have offset {code : Nat} : ¬Satisfies .x80 registers (.index code) (loose (.index code)) := by
    rintro ⟨-, val, value, low | high⟩
    · cases value
      exact absurd low (by decide)
    · cases value
      exact absurd high (by decide)
  cases cpu with
  | x80 =>
    cases p with
    | AZERO =>
      refine ⟨⟨1, by decide, rfl⟩, rfl, fun zero => ?_⟩
      cases zero
    | index code =>
      simp only [opers, List.mem_cons, List.not_mem_nil, or_false, reduceCtorEq, false_or, Pat.index.injEq] at listed
      rcases listed with rfl | rfl
      all_goals exact ⟨⟨⟨_, by decide, rfl⟩, 0x100, by decide, rfl⟩, rfl, offset⟩
    | imm type =>
      cases type with
      | AIMM64 => cases passes
      | _ => cases unsound
    | _ => cases unsound
  | x86 =>
    cases p with
    | imm type =>
      cases type with
      | AIMM64 => cases passes
      | _ => cases unsound
    | regclass cls =>
      have third : cls = X86.R32CLASS := by simpa [Cpu.sound] using unsound
      have other : cls ≠ X86.R32CLASS := by simpa [stuck] using passes
      exact (other third).elim
    | _ => cases unsound

end Cpu

/-! Operand lists that come out wrong. -/

section
variable {cpu : Cpu} {pre es : List (Element Pat)} {p : Pat}

/-- The operand for an element. -/
def Cpu.goods (cpu : Cpu) (es : List (Element Pat)) : List Arg := es.map fun e => cpu.good e.pat

theorem goods_whole (listed : ∀ e ∈ es, e.pat ∈ cpu.opers) : ∀ arg ∈ cpu.goods es, arg.Whole cpu registers := by
  intro arg mem
  obtain ⟨e, there, rfl⟩ := List.mem_map.mp mem
  exact Cpu.good_whole (listed e there)

theorem walk_goods (plain : ∀ e ∈ pre, e.Plain) (listed : ∀ e ∈ pre, e.pat ∈ cpu.opers)
    (passes : ∀ e ∈ pre, cpu.stuck e.pat = false) (ps : List Pat) (args : List Arg) :
    walk (cpu.check registers) false false (pre.flatMap encode ++ ps) (cpu.goods pre ++ args) =
      walk (cpu.check registers) false false ps args := by
  induction pre with
  | nil => rfl
  | cons e pre ih =>
    have one := plain e List.mem_cons_self
    have known := listed e List.mem_cons_self
    have passed := Cpu.good_check known (passes e List.mem_cons_self)
    have rest := ih (fun e mem => plain e (List.mem_cons_of_mem _ mem))
      (fun e mem => listed e (List.mem_cons_of_mem _ mem)) fun e mem => passes e (List.mem_cons_of_mem _ mem)
    cases e with
    | opt p => exact one.elim
    | rep p => exact one.elim
    | one p =>
      change p ∈ cpu.opers at known
      change cpu.check registers p (cpu.good p) = .ok true at passed
      show walk (cpu.check registers) false false (p :: (pre.flatMap encode ++ ps)) (cpu.good p :: (cpu.goods pre ++ args)) = _
      rw [walk_one _ _ _ known, passed]
      exact rest

theorem walk_stuck (plain : ∀ e ∈ pre, e.Plain) (listed : ∀ e ∈ pre, e.pat ∈ cpu.opers)
    (held : ∃ e ∈ pre, cpu.stuck e.pat = true) (s : State) (ps : List Pat) (args : List Arg) :
    walk (cpu.check s) false false (pre.flatMap encode ++ ps) args ≠ .ok true := by
  induction pre generalizing args with
  | nil =>
    obtain ⟨e, mem, -⟩ := held
    cases mem
  | cons e pre ih =>
    have one := plain e List.mem_cons_self
    have known := listed e List.mem_cons_self
    cases e with
    | opt p => exact one.elim
    | rep p => exact one.elim
    | one p =>
      change p ∈ cpu.opers at known
      cases args with
      | nil =>
        intro taken
        cases taken
      | cons arg args =>
        show walk (cpu.check s) false false (p :: (pre.flatMap encode ++ ps)) (arg :: args) ≠ _
        rw [walk_one _ _ _ known]
        cases checked : cpu.check s p arg with
        | error stop =>
          intro taken
          cases taken
        | ok is =>
          cases is with
          | false =>
            intro taken
            cases taken
          | true =>
            obtain ⟨e, mem, stuck⟩ := held
            rcases List.mem_cons.mp mem with rfl | later
            · exact (Cpu.stuck_check stuck s arg checked).elim
            · exact ih (fun e mem => plain e (List.mem_cons_of_mem _ mem))
                (fun e mem => listed e (List.mem_cons_of_mem _ mem)) ⟨e, later, stuck⟩ args

/-- There are operands for which `match` is wrong. -/
def Wrong (cpu : Cpu) (es : List (Element Pat)) : Prop :=
  ∃ args : List Arg, (∀ arg ∈ args, arg.Whole cpu registers) ∧
    ¬Right (walk (cpu.check registers) false false (es.flatMap encode) args) (Accepts (Satisfies cpu registers) es args)

/-- A satisfied pattern that no operands pass. -/
theorem wrong_stuck (ps : List Pat) (plain : ∀ e ∈ pre, e.Plain) (listed : ∀ e ∈ es, e.pat ∈ cpu.opers)
    (held : ∃ e ∈ pre, cpu.stuck e.pat = true) (front : ∀ e ∈ pre, e ∈ es)
    (split : es.flatMap encode = pre.flatMap encode ++ ps) : Wrong cpu es := by
  refine ⟨cpu.goods es, goods_whole listed, fun right => ?_⟩
  have accepts : Accepts (Satisfies cpu registers) es (cpu.goods es) :=
    Accepts.chosen cpu.good es fun e mem => Cpu.good_sat (listed e mem)
  have taken := right.true_iff.mpr accepts
  rw [split] at taken
  exact walk_stuck plain (fun e mem => listed e (front e mem)) held registers ps _ taken

/-- An element that is not checked for what it says. -/
theorem wrong_plain (plain : ∀ e ∈ es, e.Plain) (listed : ∀ e ∈ es, e.pat ∈ cpu.opers)
    (unsound : ∃ e ∈ es, cpu.sound e.pat = false) : Wrong cpu es := by
  by_cases held : ∃ e ∈ es, cpu.stuck e.pat = true
  · exact wrong_stuck [] plain listed held (fun e mem => mem) (List.append_nil _).symm
  · have passes : ∀ e ∈ es, cpu.stuck e.pat = false := by
      intro e mem
      exact Bool.eq_false_iff.mpr fun stuck => held ⟨e, mem, stuck⟩
    obtain ⟨e, mem, unsound⟩ := unsound
    obtain ⟨pre, post, rfl⟩ := List.append_of_mem mem
    have inPre {e' : Element Pat} (mem' : e' ∈ pre) : e' ∈ pre ++ e :: post := List.mem_append_left _ mem'
    have inPost {e' : Element Pat} (mem' : e' ∈ post) : e' ∈ pre ++ e :: post :=
      List.mem_append_right _ (List.mem_cons_of_mem _ mem')
    have one := plain e mem
    have known := listed e mem
    have free := passes e mem
    cases e with
    | opt p => exact one.elim
    | rep p => exact one.elim
    | one p =>
      change p ∈ cpu.opers at known
      have loose := Cpu.loose_of_unsound known unsound free
      refine ⟨cpu.goods pre ++ Cpu.loose p :: cpu.goods post, ?_, fun right => ?_⟩
      · intro arg mem
        rcases List.mem_append.mp mem with mem | mem
        · exact goods_whole (fun e mem => listed e (inPre mem)) arg mem
        · rcases List.mem_cons.mp mem with rfl | mem
          · exact loose.whole
          · exact goods_whole (fun e mem => listed e (inPost mem)) arg mem
      · have taken : walk (cpu.check registers) false false ((pre ++ .one p :: post).flatMap encode)
            (cpu.goods pre ++ Cpu.loose p :: cpu.goods post) = .ok true := by
          have rest := walk_goods (fun e mem => plain e (inPost mem)) (fun e mem => listed e (inPost mem))
            (fun e mem => passes e (inPost mem)) [] []
          rw [List.append_nil, List.append_nil] at rest
          rw [List.flatMap_append, walk_goods (fun e mem => plain e (inPre mem)) (fun e mem => listed e (inPre mem))
            (fun e mem => passes e (inPre mem))]
          show walk (cpu.check registers) false false (p :: post.flatMap encode) _ = _
          rw [walk_one _ _ _ known, loose.passes]
          exact rest
        have accepts := (right.true_iff.mp taken).drop cpu.good fun e mem => plain e (inPre mem)
        exact loose.unsat (Accepts.one_iff.mp accepts).1

/-- An element with a mark: it takes an operand that is not looked at. -/
theorem wrong_marked (listed : ∀ e ∈ es, e.pat ∈ cpu.opers) (marked : ∃ e ∈ es, ¬e.Plain) : Wrong cpu es := by
  obtain ⟨pre, m, post, rfl, plain, mark⟩ := first_marked marked
  have inPre {e' : Element Pat} (mem' : e' ∈ pre) : e' ∈ pre ++ m :: post := List.mem_append_left _ mem'
  by_cases held : ∃ e ∈ pre, cpu.stuck e.pat = true
  · exact wrong_stuck _ plain listed held (fun e mem => inPre mem) (List.flatMap_append ..)
  have passes : ∀ e ∈ pre, cpu.stuck e.pat = false := by
    intro e mem
    exact Bool.eq_false_iff.mpr fun stuck => held ⟨e, mem, stuck⟩
  have whole {args : List Arg} (wholes : ∀ arg ∈ args, arg.Whole cpu registers) :
      ∀ arg ∈ cpu.goods pre ++ args, arg.Whole cpu registers := by
    intro arg mem
    rcases List.mem_append.mp mem with mem | mem
    · exact goods_whole (fun e mem => listed e (inPre mem)) arg mem
    · exact wholes arg mem
  have walked (args : List Arg) : walk (cpu.check registers) false false ((pre ++ m :: post).flatMap encode)
      (cpu.goods pre ++ args) = walk (cpu.check registers) false false (encode m ++ post.flatMap encode) args := by
    rw [List.flatMap_append, walk_goods plain (fun e mem => listed e (inPre mem)) passes]
    rfl
  have one_bad (p : Pat) : ∀ arg ∈ [Cpu.bad p], arg.Whole cpu registers := by
    intro arg mem
    rw [List.mem_singleton.mp mem]
    exact Cpu.bad_whole p
  cases m with
  | one p => exact (mark trivial).elim
  | rep p =>
    refine ⟨cpu.goods pre ++ [Cpu.bad p], whole (one_bad p), fun right => ?_⟩
    -- The mark takes the operand, and the end of the list is where a repetition may end.
    have taken := (walked [Cpu.bad p]).trans (walk_marked (by decide))
    have accepts := (right.true_iff.mp taken).drop cpu.good plain
    exact Cpu.bad_unsat p accepts.rep_singleton
  | opt p =>
    by_cases wants : ∃ e ∈ post, e.Mandatory
    · obtain ⟨e, mem, mandatory⟩ := wants
      refine ⟨cpu.goods pre ++ [Cpu.bad e.pat], whole (one_bad e.pat), fun right => ?_⟩
      have taken := (walked [Cpu.bad e.pat]).trans (walk_marked (by decide))
      have accepts := (right.true_iff.mp taken).drop cpu.good plain
      exact Cpu.bad_unsat e.pat (accepts.behind_optional mem mandatory)
    · refine ⟨cpu.goods pre ++ [], whole (fun arg mem => by cases mem), fun right => ?_⟩
      have accepts : Accepts (Satisfies cpu registers) (pre ++ .opt p :: post) (cpu.goods pre ++ []) := by
        apply Accepts.append cpu.good plain fun e mem => Cpu.good_sat (listed e (inPre mem))
        exact .without (Accepts.empty fun e mem mandatory => wants ⟨e, mem, mandatory⟩)
      have taken := right.true_iff.mpr accepts
      rw [walked] at taken
      cases taken

/-- The patterns for which `match` is right about every operand field that is there, and about one
that is missing. -/
theorem match_right (cpu : Cpu) (elements : Option (List (Element Pat)))
    (listed : ∀ es, elements = some es → ∀ e ∈ es, e.pat ∈ cpu.opers) (there : Bool) :
    (∀ (s : State) (args : Option (List Arg)), args.isSome = there →
      (∀ as, args = some as → ∀ arg ∈ as, arg.Whole cpu s) →
        Right (cpu.match_ s (tableop elements) args) (Satisfied cpu s elements args)) ↔
      elements = none ∨ there = true ∧ ∀ es, elements = some es → ∀ e ∈ es, e.Plain ∧ cpu.sound e.pat = true := by
  cases elements with
  | none =>
    refine ⟨fun _ => .inl rfl, fun _ s args _ _ => ?_⟩
    rw [cpu.match_eq]
    exact Right.ok rfl Option.isNone_iff_eq_none
  | some es =>
    have listed := listed es rfl
    constructor
    · intro right
      apply Or.inr
      have is : there = true := by
        by_contra missing
        have wrong := right registers none (by simpa using missing) (fun as none_ => by cases none_)
        rw [cpu.match_eq] at wrong
        exact wrong.fault rfl
      refine ⟨is, fun es' same => ?_⟩
      cases same
      have all (args : List Arg) (whole : ∀ arg ∈ args, arg.Whole cpu registers) :
          Right (walk (cpu.check registers) false false (es.flatMap encode) args)
            (Accepts (Satisfies cpu registers) es args) := by
        have here := right registers (some args) is.symm fun as same => by
          cases same
          exact whole
        rw [cpu.match_eq] at here
        exact here
      have notWrong : ¬Wrong cpu es := fun ⟨args, whole, wrong⟩ => wrong (all args whole)
      have plain : ∀ e ∈ es, e.Plain := by
        by_contra marked
        exact notWrong (wrong_marked listed (by simpa using marked))
      have sound : ∀ e ∈ es, cpu.sound e.pat = true := by
        by_contra unsound
        exact notWrong (wrong_plain plain listed (by simpa using unsound))
      exact fun e mem => ⟨plain e mem, sound e mem⟩
    · rintro (none_ | ⟨rfl, fine⟩) s args is whole
      · cases none_
      · obtain ⟨args, rfl⟩ := Option.isSome_iff_exists.mp is
        rw [cpu.match_eq]
        exact walk_right (fun e mem => ⟨(fine es rfl e mem).1, listed e mem, (fine es rfl e mem).2⟩) (whole args rfl)

end

/-! `LD r,imm8`, `.DB imm8+` and `OUT (C),0`. -/

def ldElements : List (Element Pat) := [.one (.regclass RCLASS), .one (.imm .AIMM8)]
def dbElements : List (Element Pat) := [.rep (.imm .AIMM8)]
def outElements : List (Element Pat) := [.one (.indir Areg.C.code), .one .AZERO]

/-- `LD A,$7` -/
theorem match_right_ld : Right (Cpu.x80.match_ registers (tableop (some ldElements)) (some [.reg 1, .imm (.number 7)]))
    (Satisfied .x80 registers (some ldElements) (some [.reg 1, .imm (.number 7)])) := by
  have listed : ∀ es, some ldElements = some es → ∀ e ∈ es, e.pat ∈ Cpu.x80.opers := by
    rintro es ⟨⟩
    decide
  apply (match_right .x80 (some ldElements) listed true).mpr
  · refine .inr ⟨rfl, ?_⟩
    rintro es ⟨⟩ e mem
    simp only [ldElements, List.mem_cons, List.not_mem_nil, or_false] at mem
    rcases mem with rfl | rfl <;> exact ⟨trivial, rfl⟩
  · rfl
  · rintro as ⟨⟩ arg mem
    simp only [List.mem_cons, List.not_mem_nil, or_false] at mem
    rcases mem with rfl | rfl
    · exact ⟨_, by decide, rfl⟩
    · exact ⟨7, by decide, rfl⟩

/-- `.DB A` and `OUT (C),$1` are accepted, and for `LD` alone `match` reads through a null pointer. -/
theorem match_wrong :
    ¬Right (Cpu.x80.match_ registers (tableop (some dbElements)) (some [.reg 1]))
        (Satisfied .x80 registers (some dbElements) (some [.reg 1])) ∧
      ¬Right (Cpu.x80.match_ registers (tableop (some outElements)) (some [.indir 5, .imm (.number 1)]))
        (Satisfied .x80 registers (some outElements) (some [.indir 5, .imm (.number 1)])) ∧
      ¬Right (Cpu.x80.match_ registers (tableop (some ldElements)) none)
        (Satisfied .x80 registers (some ldElements) none) := by
  refine ⟨fun right => ?_, fun right => ?_, fun right => right.fault rfl⟩
  · exact (right.true_iff.mp rfl).rep_singleton
  · have zero := (Accepts.one_iff.mp (Accepts.one_iff.mp (right.true_iff.mp rfl)).2).1
    cases zero

end Scc.As
