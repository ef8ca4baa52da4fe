import Scc.As.Main

set_option linter.all false

/-! The relative branches of the Z80: which target the displacement that is emitted leads to. -/
namespace Scc.As

/-- An operand of an expression. -/
inductive Branch where
  | djnz (target : Val)               -- DJNZ $target
  | jr (target : Val)                 -- JR $target
  | jrss (flag : Nat) (target : Val)  -- JR flag,$target

namespace Branch

/-- The operations of the instruction in x80/ops.dat. -/
def ops : Branch → List Op
  | .djnz _ => [⟨2, .jr, [0x10, 0], some [.imm .AIMM16]⟩]
  | .jr _ | .jrss .. =>
    [⟨2, .jr, [0x18, 0], some [.imm .AIMM16]⟩, ⟨2, .jr, [0x00, 0], some [.regclass SSCLASS, .imm .AIMM16]⟩]

def args : Branch → List Arg
  | .djnz target | .jr target => [.imm target]
  | .jrss flag target => [.reg flag, .imm target]

def target : Branch → Val
  | .djnz target | .jr target | .jrss _ target => target

/-- The first byte of the instruction, without the flag. -/
def opcode : Branch → UInt8
  | .djnz _ => 0x10
  | .jr _ => 0x18
  | .jrss .. => 0x00

/-- The flag is one of those of `JR`. -/
def Flagged (s : State) : Branch → Prop
  | .djnz _ | .jr _ => True
  | .jrss flag _ => ∃ sym r, s.sym flag = .ok sym ∧ Areg.ofCode sym.value = some r ∧ r ∈ [Areg.NZ, .Z, .NC, .C]

end Branch

/-- What `translate` emits for an instruction whose operations are all in the format `jr`. -/
def State.code (s : State) (ops : List Op) (args : List Arg) : M (List UInt8) := do
  s.jr (← s.select (some args) ops) args

section
attribute [local simp] State.select State.match_ State.matches_ State.check State.translate State.code
end

theorem State.select_mem {s : State} {args : Option (List Arg)} {ops : List Op} {op : Op}
    (selected : s.select args ops = .ok op) : op ∈ ops := by
  induction ops with
  | nil => cases selected
  | cons first ops ih =>
    rw [State.select] at selected
    cases matched : s.match_ first args with
    | error stop =>
      rw [matched] at selected
      cases selected
    | ok is =>
      rw [matched] at selected
      cases is with
      | true =>
        cases selected
        exact List.mem_cons_self
      | false => exact List.mem_cons_of_mem first (ih selected)

/-- A line with a relative branch emits this code. -/
theorem State.translate_code {env : Env} {s s' : State} {text : Name} {xargs : Option (List Operand)} {ops : List Op}
    {args : List Arg} (known : env.instab (text.map Char.toUpper) = some ops) (jr : ∀ op ∈ ops, op.format = .jr)
    (operands : s.getargs xargs = .ok (s', some args)) :
    s.translate env text xargs = s'.code ops args >>= s'.emit z80.maxaddr := by
  rw [State.translate, known, State.code]
  simp only [operands, bind, Except.bind]
  cases selected : s'.select (some args) ops with
  | error stop => rfl
  | ok op =>
    have format := jr op (State.select_mem selected)
    simp only [State.format, format, Option.getD_some, bind, Except.bind]

theorem State.translate_branch {env : Env} {s s' : State} {text : Name} {xargs : Option (List Operand)} {b : Branch}
    (known : env.instab (text.map Char.toUpper) = some b.ops) (operands : s.getargs xargs = .ok (s', some b.args)) :
    s.translate env text xargs = s'.code b.ops b.args >>= s'.emit z80.maxaddr := by
  have jr : ∀ op ∈ b.ops, op.format = .jr := by
    cases b <;> simp [Branch.ops]
  exact State.translate_code known jr operands

/-- The target of a relative branch as the Z80 has it, and a disassembler. -/
def resolve (address : Nat) (e : UInt8) : Int := address + 2 + e.toBitVec.toInt

/-- What is asked of a branch: its second byte leads to the target, or there is no such byte and an
error is reported. -/
def Relative (s : State) (b : Branch) (address target : Nat) : Prop :=
  (∃ opcode e, s.code b.ops b.args = .ok [opcode, e] ∧ resolve address e = target) ∨
    (∃ msg, s.code b.ops b.args = error msg) ∧ ∀ e, resolve address e ≠ target

/-- The targets that a byte leads to. -/
def Near (address target : Nat) : Prop := (address : Int) - 126 ≤ target ∧ (target : Int) ≤ address + 129

variable {s : State} {b : Branch} {address target : Nat}

theorem near_iff : Near address target ↔ ∃ e, resolve address e = target := by
  constructor
  · rintro ⟨low, high⟩
    have range : ((BitVec.ofInt 8 ((target : Int) - address - 2)).toInt : Int) = target - address - 2 := by
      rw [BitVec.toInt_ofInt]
      apply Int.bmod_eq_of_le <;> omega
    refine ⟨⟨BitVec.ofInt 8 ((target : Int) - address - 2)⟩, ?_⟩
    rw [resolve, range]
    omega
  · rintro ⟨e, leads⟩
    have low := BitVec.le_toInt e.toBitVec
    have high := BitVec.toInt_lt (x := e.toBitVec)
    rw [resolve] at leads
    constructor <;> omega

/-! What is emitted. -/

def overflow : String := "overflow in immediate operand"

theorem check_target {e : Val} (value : s.value e = .ok target) :
    s.check (.imm .AIMM16) (.imm e) = if target > 0xFFFF then error overflow else .ok true := by
  rw [State.check, value]
  by_cases big : target > 0xFFFF
  · have beyond : toobig target .AIMM16 = true := decide_eq_true big
    rw [if_pos big]
    show (if toobig target .AIMM16 = true then error overflow else return true) = _
    rw [if_pos beyond]
  · have inside : toobig target .AIMM16 = false := decide_eq_false big
    rw [if_neg big]
    show (if toobig target .AIMM16 = true then error overflow else return true) = _
    rw [inside]
    rfl

/-- A flag is in the class of the flags of `JR`, and `ss2int` has a number for it. -/
theorem flagged_class {flag : Nat} {e : Val} (flagged : (Branch.jrss flag e).Flagged s) :
    s.check (.regclass SSCLASS) (.reg flag) = .ok true ∧ ∃ code, s.ss2int (.reg flag) = .ok code := by
  obtain ⟨sym, r, there, of_code, known⟩ := flagged
  have argvalue : s.argvalue (.reg flag) = .ok sym.value := by
    rw [State.argvalue, there]
    rfl
  simp only [List.mem_cons, List.not_mem_nil, or_false] at known
  simp only [State.check, State.getclass, State.ss2int, there, argvalue, bind, Except.bind, of_code]
  rcases known with rfl | rfl | rfl | rfl
  all_goals exact ⟨rfl, _, rfl⟩

/-- The operation that is selected for the branch. -/
def Branch.op (b : Branch) : Op :=
  ⟨2, .jr, [b.opcode, 0], some (match b with
    | .djnz _ | .jr _ => [.imm .AIMM16]
    | .jrss .. => [.regclass SSCLASS, .imm .AIMM16])⟩

theorem select_branch (value : s.value b.target = .ok target) (flagged : b.Flagged s) :
    s.select (some b.args) b.ops = if target > 0xFFFF then error overflow else .ok b.op := by
  cases b with
  | djnz e | jr e =>
    have checked := check_target (s := s) (e := e) value
    simp only [Branch.ops, Branch.args, State.select, State.match_, State.matches_, checked]
    split <;> rfl
  | jrss flag e =>
    have checked := check_target (s := s) (e := e) value
    have cls := (flagged_class flagged).1
    have next : s.matches_ false false [.imm .AIMM16] [.imm e] = if target > 0xFFFF then error overflow else .ok true := by
      rw [State.matches_, checked]
      split <;> rfl
    have other : s.matches_ false false [.imm .AIMM16] [.reg flag, .imm e] = .ok false := rfl
    have both : s.matches_ false false [.regclass SSCLASS, .imm .AIMM16] [.reg flag, .imm e] =
        s.matches_ false false [.imm .AIMM16] [.imm e] := by
      rw [State.matches_, cls]
      rfl
    simp only [Branch.ops, Branch.args, State.select, State.match_, other, both, next]
    split <;> rfl

/-- The displacement that `branch` computes counts from the wrong side of the instruction. -/
def displacement (address target : Nat) : UInt8 := byte ((target : Int) - (address - 2))

theorem jr_branch (here : s.getpc = .ok address) (value : s.value b.target = .ok target) (flagged : b.Flagged s) :
    ∃ opcode, s.jr b.op b.args = .ok [opcode, displacement address target] := by
  cases b with
  | djnz e =>
    refine ⟨0x10, ?_⟩
    have argvalue : s.argvalue (.imm e) = .ok target := value
    simp only [State.jr, State.branch, Branch.args, argat, List.getElem?_cons_zero, argvalue, here, bind, Except.bind]
    rfl
  | jr e =>
    refine ⟨0x18, ?_⟩
    have argvalue : s.argvalue (.imm e) = .ok target := value
    simp only [State.jr, State.branch, Branch.args, argat, List.getElem?_cons_zero, argvalue, here, bind, Except.bind]
    rfl
  | jrss flag e =>
    obtain ⟨code, flagcode⟩ := (flagged_class flagged).2
    refine ⟨(0x00 : UInt8) ||| UInt8.ofNat (code <<< 3), ?_⟩
    have argvalue : s.argvalue (.imm e) = .ok target := value
    simp only [State.jr, State.branch, Branch.args, argat, List.getElem?_cons_zero, List.getElem?_cons_succ, argvalue,
      here, flagcode, bind, Except.bind]
    rfl

/-- What is emitted for a branch. -/
theorem code_branch (here : s.getpc = .ok address) (value : s.value b.target = .ok target) (flagged : b.Flagged s) :
    (target > 0xFFFF → s.code b.ops b.args = error overflow) ∧
      (target ≤ 0xFFFF → ∃ opcode, s.code b.ops b.args = .ok [opcode, displacement address target]) := by
  have selected := select_branch value flagged
  constructor
  · intro big
    rw [State.code, selected, if_pos big]
    rfl
  · intro small
    obtain ⟨opcode, emitted⟩ := jr_branch here value flagged
    refine ⟨opcode, ?_⟩
    rw [State.code, selected, if_neg (by omega)]
    exact emitted

/-- A byte is its number modulo 256. -/
theorem byte_emod (val : Int) : (byte val).toBitVec.toInt % 256 = val % 256 := by
  have nonneg := Int.emod_nonneg val (show (256 : Int) ≠ 0 by decide)
  have small := Int.emod_lt_of_pos val (show (0 : Int) < 256 by decide)
  have bits : ((byte val).toBitVec.toNat : Int) = val % 256 := by
    show (((BitVec.ofNat 8 (val % 256).toNat).toNat : Nat) : Int) = val % 256
    rw [BitVec.toNat_ofNat]
    omega
  rw [BitVec.toInt_eq_toNat_bmod, bits]
  exact Int.bmod_emod.trans (Int.emod_emod_of_dvd val (Int.dvd_refl _))

/-- The displacement is 4 too large, so it never leads to the target. -/
theorem displacement_wrong : resolve address (displacement address target) ≠ target := by
  intro leads
  have bits := byte_emod ((target : Int) - (address - 2))
  change (displacement address target).toBitVec.toInt % 256 = _ at bits
  rw [resolve] at leads
  omega

/-- A branch that is emitted does not come out right. -/
theorem not_relative (here : s.getpc = .ok address) (value : s.value b.target = .ok target) (flagged : b.Flagged s)
    (small : target ≤ 0xFFFF) : ¬Relative s b address target := by
  obtain ⟨opcode, code⟩ := (code_branch here value flagged).2 small
  rintro (⟨opcode', e, code', leads⟩ | ⟨⟨msg, code'⟩, -⟩)
  · cases code.symm.trans code'
    exact displacement_wrong leads
  · cases code.symm.trans code'

/-- The branches that come out right are those that are rejected. -/
theorem relative_iff (s : State) (b : Branch) (address target : Nat) (here : s.getpc = .ok address)
    (value : s.value b.target = .ok target) (flagged : b.Flagged s) :
    Relative s b address target ↔ target > 0xFFFF ∧ ¬Near address target := by
  have rejected := (code_branch here value flagged).1
  constructor
  · intro relative
    have big : target > 0xFFFF := by
      by_contra small
      exact not_relative here value flagged (by omega) relative
    refine ⟨big, fun near => ?_⟩
    obtain ⟨e, leads⟩ := near_iff.mp near
    rcases relative with ⟨opcode, e', code, -⟩ | ⟨-, nowhere⟩
    · rw [rejected big] at code
      cases code
    · exact nowhere e leads
  · rintro ⟨big, far⟩
    exact .inr ⟨⟨overflow, rejected big⟩, fun e leads => far (near_iff.mpr ⟨e, leads⟩)⟩

/-- The second pass at the address 0. -/
def origin : State :=
  ⟨[], [⟨".text".toList, 0, 0, secflags "rxcl".toList, some [], 0, 0⟩], some 0, none, none, 2, [], false, [[]]⟩

theorem relative_far : Relative origin (.jr (.number 0x10000)) 0 0x10000 := by
  apply (relative_iff origin (.jr (.number 0x10000)) 0 0x10000 rfl rfl trivial).mpr
  exact ⟨by decide, fun near => absurd near.2 (by decide)⟩

/-- A jump of an instruction to itself. -/
theorem jump_to_self : origin.code (Branch.jr (.number 0)).ops (Branch.jr (.number 0)).args = .ok [0x18, 0x02] ∧
    ¬Relative origin (.jr (.number 0)) 0 0 :=
  ⟨rfl, not_relative rfl rfl trivial (by decide)⟩

end Scc.As
