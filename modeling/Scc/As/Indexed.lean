import Scc.As.Branch

set_option linter.all false

/-! The displacement of an indexed operand of the Z80. -/
namespace Scc.As

namespace Indexed

/-- The operations of x80/ops.dat with an operand that is indexed by this register, and their first byte. -/
def rows (first : UInt8) (r : Areg) : List Op :=
  [⟨3, .idx, [first, 0x46, 0], some [.regclass RCLASS, .index r.code]⟩,
    ⟨3, .idx, [first, 0x70, 0], some [.index r.code, .regclass RCLASS]⟩,
    ⟨4, .idx, [first, 0x36, 0, 0], some [.index r.code, .imm .AIMM8]⟩] ++
  [0x86, 0x8e, 0x96, 0x9e, 0xa6, 0xb6, 0xae, 0xbe].map
    (fun opcode => ⟨3, .alu8, [first, opcode, 0], some [.reg Areg.A.code, .index r.code]⟩) ++
  [0x34, 0x35].map (fun opcode => ⟨3, .alu8, [first, opcode, 0], some [.index r.code]⟩) ++
  [0x06, 0x16, 0x0e, 0x1e, 0x26, 0x36, 0x2e, 0x3e].map
    (fun opcode => ⟨4, .rot_bit, [first, 0xcb, 0, opcode], some [.index r.code]⟩) ++
  [0x00, 0x10, 0x08, 0x18, 0x20, 0x30, 0x28, 0x38].map
    (fun opcode => ⟨4, .rot_bit, [first, 0xcb, 0, opcode], some [.index r.code, .regclass RCLASS]⟩) ++
  [0x46, 0xc6, 0x86].map (fun opcode => ⟨4, .rot_bit, [first, 0xcb, 0, opcode], some [.imm .AIMM3, .index r.code]⟩) ++
  [0xc0, 0x80].map
    (fun opcode => ⟨4, .rot_bit, [first, 0xcb, 0, opcode], some [.imm .AIMM3, .index r.code, .regclass RCLASS]⟩)

def ops : List Op := rows 0xdd .IX ++ rows 0xfd .IY

/-- What is emitted for operands of the operation. -/
def code (s : State) (op : Op) (args : List Arg) : M (List UInt8) := do
  let op ← s.select (some args) [op]
  match op.format with
  | .idx => s.idx op args
  | .alu8 => s.alu8 op args
  | _ => s.rot_bit op args

/-- The operand is indexed by the register of the pattern with this offset, or it is accepted as it is. -/
def Takes (s : State) (off : Val) : Pat → Arg → Prop
  | .index code, arg => ∃ i sym, arg = .index i off ∧ s.sym i = .ok sym ∧ sym.value = code
  | p, arg => s.check p arg = .ok true

def Operands (s : State) (off : Val) (pats : List Pat) (args : List Arg) : Prop := List.Forall₂ (Takes s off) pats args

/-- The value of an expression as a signed number. -/
def signed (val : Nat) : Int := (BitVec.ofNat 64 val).toInt

def Short (offset : Int) : Prop := -128 ≤ offset ∧ offset ≤ 127

instance (offset : Int) : Decidable (Short offset) := inferInstanceAs (Decidable (_ ∧ _))

/-- The third byte is the displacement, or an error is reported. -/
def Displaced (s : State) (op : Op) (args : List Arg) (off : Val) : Prop :=
  ∃ val, s.value off = .ok val ∧
    (Short (signed val) → ∃ bytes, code s op args = .ok bytes ∧ bytes[2]? = some (byte (signed val))) ∧
    (¬ Short (signed val) → ∃ msg, code s op args = error msg)

variable {s : State} {off : Val} {val : Nat}

/-! The operands match, whatever the offset is. -/

/-- The check of an index looks at the number of the register. -/
theorem check_index {code i : Nat} {sym : Symbol} (there : s.sym i = .ok sym) (same : sym.value = code)
    (small : code ≤ 0xFF) : s.check (.index code) (.index i off) = .ok true := by
  have inside : toobig sym.value .AIMM8 = false := decide_eq_false (by omega)
  simp only [State.check, there, bind, Except.bind, same, ne_eq, not_true_eq_false, if_false]
  rw [← same, inside]
  rfl

/-- A pattern that is not for all the operands that are left, with a register that has a small number. -/
def Plain : Pat → Prop
  | .AREP => False
  | .index code => code ≤ 0xFF
  | _ => True

theorem matches_cons {opt : Bool} {p : Pat} {ps : List Pat} {arg : Arg} {args : List Arg} (plain : Plain p)
    (checked : s.check p arg = .ok true) (rest : ∀ opt, s.matches_ false opt ps args = .ok true) :
    s.matches_ false opt (p :: ps) (arg :: args) = .ok true := by
  have once : decide (p = .AREP) = false := by
    cases p <;> first | rfl | exact absurd plain id
  rw [State.matches_, checked]
  simp only [bind, Except.bind, once, Bool.or_false, Bool.false_eq_true, if_false, Bool.not_true]
  exact rest _

theorem takes_check {p : Pat} {arg : Arg} (plain : Plain p) (takes : Takes s off p arg) :
    s.check p arg = .ok true := by
  cases p with
  | index code =>
    obtain ⟨i, sym, rfl, there, same⟩ := takes
    exact check_index there same plain
  | AREP => exact absurd plain id
  | _ => exact takes

theorem operands_match {pats : List Pat} {args : List Arg} (operands : Operands s off pats args)
    (plain : ∀ p ∈ pats, Plain p) : ∀ opt, s.matches_ false opt pats args = .ok true := by
  induction operands with
  | nil => exact fun _ => rfl
  | cons takes _ ih =>
    obtain ⟨first, rest⟩ := List.forall_mem_cons.mp plain
    exact fun _ => matches_cons first (takes_check first takes) (ih rest)

/-- The operation with its operands is selected. -/
theorem code_format {op : Op} {pats : List Pat} {args : List Arg} (pattern : op.args = some pats)
    (operands : Operands s off pats args) (plain : ∀ p ∈ pats, Plain p) :
    code s op args =
      match op.format with
      | .idx => s.idx op args
      | .alu8 => s.alu8 op args
      | _ => s.rot_bit op args := by
  have matched : s.match_ op (some args) = .ok true := by
    simp only [State.match_, pattern]
    exact operands_match operands plain false
  rw [code, State.select, matched]
  rfl

/-! What the operands are. -/

theorem takes_index {code : Nat} {arg : Arg} (takes : Takes s off (.index code) arg) : ∃ i, arg = .index i off := by
  obtain ⟨i, _, rfl, -, -⟩ := takes
  exact ⟨i, rfl⟩

theorem takes_reg {code : Nat} {arg : Arg} (takes : Takes s off (.reg code) arg) : ∃ i, arg = .reg i := by
  cases arg with
  | reg i => exact ⟨i, rfl⟩
  | _ => cases takes

theorem takes_imm {type : Imm} {arg : Arg} (takes : Takes s off (.imm type) arg) :
    ∃ e val, arg = .imm e ∧ s.value e = .ok val := by
  cases arg with
  | imm e =>
    cases value : s.value e with
    | ok val => exact ⟨e, val, rfl, value⟩
    | error stop =>
      change State.check s (.imm type) (.imm e) = .ok true at takes
      rw [State.check, value] at takes
      cases takes
  | _ => cases takes

/-- A register of the class `r` has a number. -/
theorem takes_class {arg : Arg} (takes : Takes s off (.regclass RCLASS) arg) :
    ∃ i, arg = .reg i ∧ ∃ n, s.reg2int (.reg i) = .ok n := by
  change State.check s (.regclass RCLASS) arg = .ok true at takes
  cases arg with
  | reg i =>
    refine ⟨i, rfl, ?_⟩
    rw [State.check, State.getclass] at takes
    cases there : s.sym i with
    | error stop =>
      rw [there] at takes
      cases takes
    | ok sym =>
      have argvalue : s.argvalue (.reg i) = .ok sym.value := by
        rw [State.argvalue, there]
        rfl
      simp only [there, bind, Except.bind] at takes
      simp only [State.reg2int, argvalue, bind, Except.bind]
      cases named : Areg.ofCode sym.value with
      | none =>
        rw [named] at takes
        exact absurd takes (by decide)
      | some r =>
        rw [named] at takes
        cases r <;> first | exact ⟨_, rfl⟩ | exact absurd takes (by decide)
  | _ => exact absurd takes (by change ¬ ((Except.ok _ : M Bool) = _); decide)

/-! What is emitted: the third byte is the displacement. -/

/-- The displacement is there, whatever else is emitted. -/
def Emits (emitted : M (List UInt8)) (val : Nat) : Prop := ∃ bytes, emitted = .ok bytes ∧ bytes[2]? = some (byte val)

theorem or_byte (n : Nat) : (0 : UInt8) ||| UInt8.ofNat n = byte n := by
  have low : ((n : Int) % 256).toNat = n % 2 ^ 8 := by omega
  rw [UInt8.zero_or, byte, low]
  exact UInt8.ofNat_mod_size.symm

section
variable {args : List Arg} (value : s.value off = .ok val) (first opcode : UInt8) {r regcode : Nat} (small : r ≤ 0xFF)

include value small

theorem idx_load (operands : Operands s off [.regclass RCLASS, .index r] args) :
    Emits (code s ⟨3, .idx, [first, opcode, 0], some [.regclass RCLASS, .index r]⟩ args) val := by
  rw [code_format rfl operands (by simpa [Plain] using small)]
  rcases operands with _ | ⟨cls, _ | ⟨takes, _ | _⟩⟩
  obtain ⟨i, rfl, n, number⟩ := takes_class cls
  obtain ⟨j, rfl⟩ := takes_index takes
  simp only [State.idx, argat, List.getElem?_cons_zero, List.getElem?_cons_succ, Arg.off, value, number, pure,
    Except.pure, bind, Except.bind]
  exact ⟨_, rfl, rfl⟩

theorem idx_store (operands : Operands s off [.index r, .regclass RCLASS] args) :
    Emits (code s ⟨3, .idx, [first, opcode, 0], some [.index r, .regclass RCLASS]⟩ args) val := by
  rw [code_format rfl operands (by simpa [Plain] using small)]
  rcases operands with _ | ⟨takes, _ | ⟨cls, _ | _⟩⟩
  obtain ⟨i, rfl, n, number⟩ := takes_class cls
  obtain ⟨j, rfl⟩ := takes_index takes
  simp only [State.idx, argat, List.getElem?_cons_zero, List.getElem?_cons_succ, Arg.off, value, number, pure,
    Except.pure, bind, Except.bind]
  exact ⟨_, rfl, rfl⟩

theorem idx_imm (operands : Operands s off [.index r, .imm .AIMM8] args) :
    Emits (code s ⟨4, .idx, [first, opcode, 0, 0], some [.index r, .imm .AIMM8]⟩ args) val := by
  rw [code_format rfl operands (by simpa [Plain] using small)]
  rcases operands with _ | ⟨takes, _ | ⟨imm, _ | _⟩⟩
  obtain ⟨e, n, rfl, number⟩ := takes_imm imm
  obtain ⟨j, rfl⟩ := takes_index takes
  simp only [State.idx, argat, List.getElem?_cons_zero, List.getElem?_cons_succ, Arg.off, value, State.argvalue, number,
    pure, Except.pure, bind, Except.bind]
  exact ⟨_, rfl, rfl⟩

theorem alu8_second (operands : Operands s off [.reg regcode, .index r] args) :
    Emits (code s ⟨3, .alu8, [first, opcode, 0], some [.reg regcode, .index r]⟩ args) val := by
  rw [code_format rfl operands (by simpa [Plain] using small)]
  rcases operands with _ | ⟨_, _ | ⟨takes, _ | _⟩⟩
  obtain ⟨j, rfl⟩ := takes_index takes
  simp only [State.alu8, value, pure, Except.pure, bind, Except.bind]
  exact ⟨_, rfl, congrArg some (or_byte val)⟩

theorem alu8_first (operands : Operands s off [.index r] args) :
    Emits (code s ⟨3, .alu8, [first, opcode, 0], some [.index r]⟩ args) val := by
  rw [code_format rfl operands (by simpa [Plain] using small)]
  rcases operands with _ | ⟨takes, _ | _⟩
  obtain ⟨j, rfl⟩ := takes_index takes
  simp only [State.alu8, value, pure, Except.pure, bind, Except.bind]
  exact ⟨_, rfl, congrArg some (or_byte val)⟩

theorem rot_alone (operands : Operands s off [.index r] args) :
    Emits (code s ⟨4, .rot_bit, [first, 0xcb, 0, opcode], some [.index r]⟩ args) val := by
  rw [code_format rfl operands (by simpa [Plain] using small)]
  rcases operands with _ | ⟨takes, _ | _⟩
  obtain ⟨j, rfl⟩ := takes_index takes
  simp only [State.rot_bit, value, pure, Except.pure, bind, Except.bind]
  exact ⟨_, rfl, rfl⟩

theorem rot_register (operands : Operands s off [.index r, .regclass RCLASS] args) :
    Emits (code s ⟨4, .rot_bit, [first, 0xcb, 0, opcode], some [.index r, .regclass RCLASS]⟩ args) val := by
  rw [code_format rfl operands (by simpa [Plain] using small)]
  rcases operands with _ | ⟨takes, _ | ⟨cls, _ | _⟩⟩
  obtain ⟨i, rfl, n, number⟩ := takes_class cls
  obtain ⟨j, rfl⟩ := takes_index takes
  simp only [State.rot_bit, value, number, pure, Except.pure, bind, Except.bind]
  exact ⟨_, rfl, rfl⟩

theorem bit_alone (operands : Operands s off [.imm .AIMM3, .index r] args) :
    Emits (code s ⟨4, .rot_bit, [first, 0xcb, 0, opcode], some [.imm .AIMM3, .index r]⟩ args) val := by
  rw [code_format rfl operands (by simpa [Plain] using small)]
  rcases operands with _ | ⟨imm, _ | ⟨takes, _ | _⟩⟩
  obtain ⟨e, n, rfl, bit⟩ := takes_imm imm
  obtain ⟨j, rfl⟩ := takes_index takes
  simp only [State.rot_bit, value, bit, pure, Except.pure, bind, Except.bind]
  exact ⟨_, rfl, rfl⟩

theorem bit_register (operands : Operands s off [.imm .AIMM3, .index r, .regclass RCLASS] args) :
    Emits (code s ⟨4, .rot_bit, [first, 0xcb, 0, opcode], some [.imm .AIMM3, .index r, .regclass RCLASS]⟩ args) val := by
  rw [code_format rfl operands (by simpa [Plain] using small)]
  rcases operands with _ | ⟨imm, _ | ⟨takes, _ | ⟨cls, _ | _⟩⟩⟩
  obtain ⟨e, n, rfl, bit⟩ := takes_imm imm
  obtain ⟨i, rfl, m, number⟩ := takes_class cls
  obtain ⟨j, rfl⟩ := takes_index takes
  simp only [State.rot_bit, value, bit, number, pure, Except.pure, bind, Except.bind]
  exact ⟨_, rfl, rfl⟩

end

/-- Each row emits the offset that it is given. -/
theorem rows_emit {op : Op} {pats : List Pat} {args : List Arg} (first : UInt8) {r : Areg} (small : r.code ≤ 0xFF)
    (row : op ∈ rows first r) (value : s.value off = .ok val) (pattern : op.args = some pats)
    (operands : Operands s off pats args) : Emits (code s op args) val := by
  simp only [rows, List.mem_append, List.mem_cons, List.not_mem_nil, or_false, List.mem_map] at row
  rcases row with (((((((rfl | rfl | rfl) | ⟨opcode, -, rfl⟩) | ⟨opcode, -, rfl⟩) | ⟨opcode, -, rfl⟩) |
    ⟨opcode, -, rfl⟩) | ⟨opcode, -, rfl⟩) | ⟨opcode, -, rfl⟩)
  all_goals
    obtain rfl := Option.some.inj pattern
  · exact idx_load value first 0x46 small operands
  · exact idx_store value first 0x70 small operands
  · exact idx_imm value first 0x36 small operands
  · exact alu8_second value first opcode small operands
  · exact alu8_first value first opcode small operands
  · exact rot_alone value first opcode small operands
  · exact rot_register value first opcode small operands
  · exact bit_alone value first opcode small operands
  · exact bit_register value first opcode small operands

/-- The displacement is the two's complement of the offset. -/
theorem byte_signed (val : Nat) : byte (signed val) = byte val := by
  have low : signed val % 256 = (val : Int) % 256 := by
    have bits := BitVec.toInt_eq_toNat_bmod (BitVec.ofNat 64 val)
    rw [BitVec.toNat_ofNat, Int.bmod_def] at bits
    rw [signed, bits]
    split <;> omega
  rw [byte, byte, low]

theorem ops_emit {op : Op} {pats : List Pat} {args : List Arg} (indexed : op ∈ ops) (value : s.value off = .ok val)
    (pattern : op.args = some pats) (operands : Operands s off pats args) : Emits (code s op args) val := by
  rcases List.mem_append.mp indexed with row | row
  · exact rows_emit 0xdd (by decide) row value pattern operands
  · exact rows_emit 0xfd (by decide) row value pattern operands

/-- No offset is rejected. -/
theorem displaced_iff (op : Op) (indexed : op ∈ ops) (s : State) (pats : List Pat) (args : List Arg) (off : Val)
    (pattern : op.args = some pats) (operands : Operands s off pats args) :
    Displaced s op args off ↔ ∃ val, s.value off = .ok val ∧ Short (signed val) := by
  constructor
  · rintro ⟨val, value, -, far⟩
    refine ⟨val, value, ?_⟩
    by_contra long
    obtain ⟨msg, rejected⟩ := far long
    obtain ⟨bytes, emitted, -⟩ := ops_emit indexed value pattern operands
    cases emitted.symm.trans rejected
  · rintro ⟨val, value, short⟩
    refine ⟨val, value, fun _ => ?_, fun long => absurd short long⟩
    rw [byte_signed]
    exact ops_emit indexed value pattern operands

/-- The register `IX` alone. -/
def registers : State :=
  ⟨[⟨"IX".toList, { Symflags.none with FREG := true }, 0, Areg.IX.code, none, 0, none⟩], [], none, none, none, 2, [],
    false, [[]]⟩

/-- `INC (IX+n)` -/
def inc : Op := ⟨3, .alu8, [0xdd, 0x34, 0], some [.index Areg.IX.code]⟩

theorem inc_mem : inc ∈ ops := by
  apply List.mem_append_left
  simp [rows, inc]

theorem displaced_back : Displaced registers inc [.index 0 (.number (2 ^ 64 - 3))] (.number (2 ^ 64 - 3)) := by
  apply (displaced_iff inc inc_mem registers [.index Areg.IX.code] _ _ rfl (.cons ⟨0, _, rfl, rfl, rfl⟩ .nil)).mpr
  exact ⟨2 ^ 64 - 3, rfl, by decide⟩

/-- `INC (IX+300)` -/
theorem far_emitted :
    Operands registers (.number 300) [.index Areg.IX.code] [.index 0 (.number 300)] ∧
      code registers inc [.index 0 (.number 300)] = .ok [0xdd, 0x34, 44] ∧
      ¬Displaced registers inc [.index 0 (.number 300)] (.number 300) := by
  refine ⟨.cons ⟨0, _, rfl, rfl, rfl⟩ .nil, rfl, ?_⟩
  rintro ⟨val, value, -, far⟩
  cases value
  obtain ⟨msg, rejected⟩ := far (by decide)
  cases rejected

end Indexed

end Scc.As
