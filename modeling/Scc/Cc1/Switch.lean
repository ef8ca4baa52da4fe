import Scc.Cc1.Conversions

set_option linter.all false

/-! The operands of a `switch`: both are converted to `int`, which is right for the types that have
its size. -/
namespace Scc.Cc1.Fold
open Arithmetic

variable {fp : Floats} {syms : Symbols} {equiv : CType → CType → Bool} {σ : Type} {M : Machine σ} {s : σ}
  {tp ctp newtp oldtp : CType} {np : Node} {u : BitVec 64} {a : Nat} {v : Int}

/-! What becomes of a constant. -/

/-- A folded cast keeps the low bits. -/
theorem bring_low (size : newtp.size ∈ [1, 2, 4, 8]) (signed : newtp.tsigned = true) :
    (bring newtp u).toNat % 2 ^ (8 * newtp.size) = u.toNat % 2 ^ (8 * newtp.size) := by
  have narrow : 8 * newtp.size ≤ 64 := by
    simp only [List.mem_cons, List.not_mem_nil, or_false] at size
    omega
  have bits : (bring newtp u).setWidth (8 * newtp.size) = u.setWidth (8 * newtp.size) := by
    rw [bring, if_pos signed]
    split
    case isTrue =>
      apply BitVec.eq_of_getLsbD_eq
      intro k below
      have inside : k < 64 := Nat.lt_of_lt_of_le below narrow
      simp only [BitVec.getLsbD_setWidth, BitVec.getLsbD_signExtend, below, inside, decide_true, Bool.true_and, if_true]
    case isFalse => rfl
  have same := congrArg BitVec.toNat bits
  rwa [BitVec.toNat_setWidth, BitVec.toNat_setWidth] at same

theorem value_emod (tp : CType) (u : BitVec 64) : value tp u % 2 ^ 64 = u.toNat := by
  unfold value
  split
  · exact toInt_emod u
  · exact Int.emod_eq_of_lt (Int.natCast_nonneg _) (by exact_mod_cast u.isLt)

/-- The folded cast is worth the converted value, also where more bits are left in it. -/
theorem convert_bring (size : newtp.size ∈ [1, 2, 4, 8]) (signed : newtp.tsigned = true) (oldtp : CType) :
    (ints newtp).convert (value newtp (bring newtp u)) = (ints newtp).convert (value oldtp u) := by
  have narrow : 8 * newtp.size ≤ 64 := by
    simp only [List.mem_cons, List.not_mem_nil, or_false] at size
    omega
  rw [converted_signed signed narrow (value_emod newtp _), converted_signed signed narrow (value_emod oldtp u)]
  have low := bring_low (u := u) size signed
  rw [← Int.emod_bmod, ← Int.natCast_emod, low, Int.natCast_emod, Int.emod_bmod]

/-! The conversion to `int`. -/

/-- What the conversion to `int` needs of an integer type. -/
structure ToInt (tp : CType) : Prop where
  scalar : Scalar tp
  same : eqtype inttype tp = true → ints tp = ints inttype

theorem Integer.toInt (integer : Integer tp) : ToInt tp := by
  revert integer
  apply Integer.cases
  · intro tp listed
    have each : ∀ tp ∈ integerTypes, tp.op ∈ [.INT, .ENUM, .PTR] ∧ (tp.tsigned = true → tp.op = .INT) ∧
        tp.size ∈ [1, 2, 4, 8] ∧ (eqtype inttype tp = true → ints tp = ints inttype) := by
      decide
    obtain ⟨op, signed, size, same⟩ := each tp listed
    exact ⟨⟨op, signed, size⟩, same⟩
  · intro id
    refine ⟨⟨?_, ?_, ?_⟩, fun same => absurd same Bool.false_ne_true⟩
    · show TypeOp.ENUM ∈ _
      decide
    · exact fun signed => absurd signed Bool.false_ne_true
    · show 4 ∈ _
      decide

theorem int_integer : Integer inttype := .inl (by decide)

/-- `simplify` folds the cast of a constant and leaves every other one. -/
theorem simplifycast_eq (there : np ≠ .nil) (old : Scalar np.type) :
    simplifycast fp syms (node .OCAST inttype np .nil) = some (match np.constant with
      | some a => (constnode syms.next inttype, syms.newsym ⟨inttype, true, bring inttype (syms.get a).u⟩)
      | none => (node .OCAST inttype np .nil, syms)) := by
  have int : Scalar inttype := int_integer.toInt.scalar
  cases np with
  | nil => exact (there rfl).elim
  | mk op nconst tp sym left right =>
    have unary : foldunary fp syms (node .OCAST inttype (.mk op nconst tp sym left right) .nil) =
        some (foldcast fp syms (node .OCAST inttype (.mk op nconst tp sym left right) .nil)
          (.mk op nconst tp sym left right)) := rfl
    rw [simplifycast, unary]
    cases constant : (Node.mk op nconst tp sym left right).constant with
    | none =>
      have kept : foldcast fp syms (node .OCAST inttype (.mk op nconst tp sym left right) .nil)
          (.mk op nconst tp sym left right) = (node .OCAST inttype (.mk op nconst tp sym left right) .nil, syms) := by
        cases nconst with
        | false => rfl
        | true =>
          cases sym with
          | none => rfl
          | some a => cases constant
      rw [kept]
      simp [fold, node, zerodiv, constant]
    | some a =>
      have folded : foldcast fp syms (node .OCAST inttype (.mk op nconst tp sym left right) .nil)
          (.mk op nconst tp sym left right) =
          (constnode syms.next inttype, syms.newsym ⟨inttype, true, bring inttype (syms.get a).u⟩) := by
        cases nconst with
        | false => cases constant
        | true =>
          cases constant
          have cast : castconst fp inttype tp (syms.get a).u = some (bring inttype (syms.get a).u) :=
            castconst_scalar int old
          simp only [foldcast, node, cast]
      rw [folded]
      rfl

/-- The conversion to `int` of an expression or a constant is worth the converted value. -/
theorem intexpr_spec (fp : Floats) (equiv : CType → CType → Bool) (integer : Integer np.type) (ranged : Ranged syms np) :
    ∃ new newsyms, intexpr fp syms equiv np = some (new, newsyms) ∧ new ≠ .nil ∧
      (np.constant.isSome = true → new.nconst = true) ∧
      ∀ {σ : Type} (M : Machine σ) (s : σ), eval M newsyms new s =
        (eval M syms np s).map fun out => ((ints inttype).convert out.1, out.2) := by
  have some_ : np ≠ .nil := by
    rintro rfl
    have void := integer.scalars.op
    revert void
    decide
  have table := integer.toInt
  unfold intexpr
  split
  case isTrue same =>
    refine ⟨np, syms, rfl, some_, ?_, fun M s => ?_⟩
    · intro constant
      obtain ⟨a, here⟩ := Option.isSome_iff_exists.mp constant
      rw [(ranged a here).1]
      rfl
    · rw [eval_within integer (by decide)]
      rw [table.same same]
      decide
  case isFalse other =>
    have apart : eqtype inttype np.type = false := Bool.not_eq_true _ ▸ other
    have cast : convert fp syms equiv np inttype false = node .OCAST inttype np .nil := by
      rw [convert_integer int_integer integer, apart]
      rfl
    rw [cast]
    show ∃ new newsyms, simplifycast fp syms (node .OCAST inttype np .nil) = some (new, newsyms) ∧ _
    rw [simplifycast_eq some_ table.scalar]
    cases np with
    | nil => exact (some_ rfl).elim
    | mk op nconst tp sym left right =>
      cases constant : (Node.mk op nconst tp sym left right).constant with
      | none =>
        refine ⟨_, syms, rfl, node_ne_nil _ _ _ _, ?_, fun M s => ?_⟩
        · intro is
          cases is
        · exact eval_cast_integer int_integer integer (by decide)
      | some a =>
        obtain ⟨leaf, fits⟩ := ranged a constant
        refine ⟨_, _, rfl, by rintro ⟨⟩, fun _ => rfl, fun M s => ?_⟩
        have new : eval M (syms.newsym ⟨inttype, true, bring inttype (syms.get a).u⟩)
            (constnode syms.next inttype) s =
              some ((ints inttype).convert (value inttype (bring inttype (syms.get a).u)), s) := by
          show some (inType inttype (constantValue M inttype (Symbols.get (syms.newsym _) syms.next).u), s) = _
          simp only [Symbols.newsym, if_true]
          rfl
        have old : eval M syms (Node.mk op nconst tp sym left right) s = some (value tp (syms.get a).u, s) := by
          rw [leaf]
          have is : integral tp = true := integer.scalars.integral
          show some (inType tp (constantValue M tp (syms.get a).u), s) = _
          rw [inType, constantValue, is]
          exact congrArg (fun v => some (v, s)) (IntType.convert_fits integer.scalars.wide fits)
        rw [new, old, Option.map_some, convert_bring (by decide) rfl tp]

/-! The comparison. -/

/-- What the types of the size of `int` have, and the wider ones. -/
structure Sized (tp : CType) : Prop where
  narrow : (promotedType tp).size = inttype.size → (standard tp).ints.width = 32
  wide : (promotedType tp).size ≠ inttype.size → (ints tp).Fits 4294967296 ∧ value tp 4294967296 = 4294967296
  zero : (ints tp).Fits 0 ∧ value tp 0 = 0

theorem Integer.sized (integer : Integer tp) : Sized tp := by
  revert integer
  apply Integer.cases
  · intro tp listed
    have each : ∀ tp ∈ integerTypes,
        ((promotedType tp).size = inttype.size → (standard tp).ints.width = 32) ∧
        ((promotedType tp).size ≠ inttype.size → (ints tp).Fits 4294967296 ∧ value tp 4294967296 = 4294967296) ∧
        (ints tp).Fits 0 ∧ value tp 0 = 0 := by
      decide +kernel
    obtain ⟨narrow, wide, zero⟩ := each tp listed
    exact ⟨narrow, wide, zero⟩
  · intro id
    refine ⟨fun _ => rfl, fun other => absurd rfl other, ?_, rfl⟩
    show (IntType.mk 32 false).Fits 0
    decide

/-- The constant of a type. -/
theorem eval_leaf (integer : Integer tp) (ranged : Ranged syms (constnode a tp)) :
    eval M syms (constnode a tp) s = some (value tp (syms.get a).u, s) := by
  have fits := (ranged a rfl).2
  show some (inType tp (constantValue M tp (syms.get a).u), s) = _
  rw [inType, constantValue, integer.scalars.integral]
  exact congrArg (fun v => some (v, s)) (IntType.convert_fits integer.scalars.wide fits)

/-- In a type of the size of `int` the same values are equal. -/
theorem convert_int {t : IntType} (width : t.width = 32) {v w : Int} :
    (ints inttype).convert v = (ints inttype).convert w ↔ t.convert v = t.convert w := by
  have int : (ints inttype).width = 32 := rfl
  rw [IntType.convert_inj, IntType.convert_inj, int, width]

theorem swtchcond_spec (fp : Floats) (equiv : CType → CType → Bool) (integer : Integer np.type)
    (ranged : Ranged syms np) :
    ∃ new newsyms, swtchcond fp syms equiv np = some (new, newsyms) ∧
      ∀ {σ : Type} (M : Machine σ) (s : σ), eval M newsyms new s =
        (eval M syms np s).map fun out => ((ints inttype).convert out.1, out.2) := by
  obtain ⟨new, newsyms, built, there, -, worth⟩ := intexpr_spec fp equiv integer ranged
  refine ⟨new, newsyms, ?_, worth⟩
  rw [swtchcond, built]
  exact if_neg there

theorem compared_of_narrow (integer : Integer tp) (integer' : Integer ctp)
    (narrow : (promotedType tp).size = inttype.size) (int : ctp.op = .INT) : Compared tp ctp := by
  rintro fp syms equiv np a rfl ranged ranged'
  have width := integer.sized.narrow narrow
  have leaf : Integer (constnode a ctp).type := integer'
  obtain ⟨cond, condsyms, emitted, worth⟩ := swtchcond_spec fp equiv integer ranged
  obtain ⟨const, constsyms, built, there, constant, worth'⟩ := intexpr_spec fp equiv leaf ranged'
  have folded : constexpr fp syms equiv (constnode a ctp) = some (const, constsyms) := by
    have type : (constnode a ctp).type.op = .INT := int
    rw [constexpr, if_pos type, built]
    exact if_pos (constant rfl)
  refine ⟨cond, condsyms, const, constsyms, emitted, folded, ?_⟩
  intro σ M s s' v evaluated
  refine ⟨(ints inttype).convert v, (ints inttype).convert (value ctp (syms.get a).u), ?_, ?_, convert_int width⟩
  · rw [worth, evaluated]
    rfl
  · rw [worth', eval_leaf integer' ranged']
    rfl

theorem distinct_of_narrow (integer : Integer tp) (narrow : (promotedType tp).size = inttype.size) : Distinct tp := by
  intro fp equiv syms1 syms2 np1 np2 type1 type2 ranged1 ranged2 cond1 condsyms1 cond2 condsyms2 emitted1 emitted2
    σ M s1 s2 t1 t2 v w x value1 value2 result1 result2
  have width : (ints (promotedType tp)).width = 32 := by
    show 8 * (promotedType tp).size = 32
    rw [narrow]
    rfl
  have integer1 : Integer np1.type := type1.symm ▸ integer
  have integer2 : Integer np2.type := type2.symm ▸ integer
  obtain ⟨new1, newsyms1, built1, worth1⟩ := swtchcond_spec fp equiv integer1 ranged1
  obtain ⟨new2, newsyms2, built2, worth2⟩ := swtchcond_spec fp equiv integer2 ranged2
  cases emitted1.symm.trans built1
  cases emitted2.symm.trans built2
  rw [worth1, value1] at result1
  rw [worth2, value2] at result2
  have same : (ints inttype).convert v = (ints inttype).convert w :=
    (congrArg Prod.fst (Option.some.inj result1)).trans (congrArg Prod.fst (Option.some.inj result2)).symm
  have fits {np : Node} (type : np.type = tp) {syms : Symbols} {s : σ} {out : Int × σ}
      (evaluated : eval M syms np s = some out) : (ints (promotedType tp)).Fits out.1 := by
    apply within_fits integer.promoted.wider
    rw [← type]
    exact eval_fits (type.symm ▸ integer) evaluated
  have wide : 0 < (ints (promotedType tp)).width := by omega
  rw [convert_int width, IntType.convert_fits wide (fits type1 value1),
    IntType.convert_fits wide (fits type2 value2)] at same
  exact same

/-- Symbols with one value. -/
def filled (u : BitVec 64) : Symbols := ⟨1, fun _ => ⟨inttype, true, u⟩⟩

theorem ranged_filled (fits : (ints tp).Fits (value tp u)) : Ranged (filled u) (constnode 0 tp) := by
  intro a here
  cases here
  exact ⟨rfl, fits⟩

/-- Where a `switch` compares as C has it, and keeps the values of its expression apart. -/
theorem swtch_compares (integer : Integer tp) (ctps : List CType) (integers : ∀ ctp ∈ ctps, Integer ctp) :
    ((∀ ctp ∈ ctps, Compared tp ctp) ∧ Distinct tp) ↔
      (promotedType tp).size = inttype.size ∧ ∀ ctp ∈ ctps, ctp.op = .INT := by
  have sized := integer.sized
  constructor
  · rintro ⟨compared, distinct⟩
    constructor
    · by_contra large
      obtain ⟨fits, value_⟩ := sized.wide large
      have ranged1 : Ranged (filled 0) (constnode 0 tp) := ranged_filled (sized.zero.2.symm ▸ sized.zero.1)
      have ranged2 : Ranged (filled 4294967296) (constnode 0 tp) := ranged_filled (value_.symm ▸ fits)
      have type : Integer (constnode 0 tp).type := integer
      obtain ⟨new1, newsyms1, built1, spec1⟩ := swtchcond_spec noFloats (fun _ _ => false) type ranged1
      obtain ⟨new2, newsyms2, built2, spec2⟩ := swtchcond_spec noFloats (fun _ _ => false) type ranged2
      have leaf1 : eval oneVariable (filled 0) (constnode 0 tp) 0 = some (0, 0) := by
        rw [eval_leaf integer ranged1]
        exact congrArg (fun v => some (v, 0)) sized.zero.2
      have leaf2 : eval oneVariable (filled 4294967296) (constnode 0 tp) 0 = some (4294967296, 0) := by
        rw [eval_leaf integer ranged2]
        exact congrArg (fun v => some (v, 0)) value_
      have value1 : eval oneVariable newsyms1 new1 0 = some (0, 0) := by
        rw [spec1, leaf1]
        rfl
      have value2 : eval oneVariable newsyms2 new2 0 = some (0, 0) := by
        rw [spec2, leaf2]
        rfl
      have same := distinct noFloats (fun _ _ => false) _ _ _ _ rfl rfl ranged1 ranged2 _ _ _ _ built1 built2
        oneVariable 0 0 0 0 0 4294967296 0 leaf1 leaf2 value1 value2
      cases same
    · intro ctp mem
      by_contra other
      have ranged : ∀ tp, Integer tp → Ranged (filled 0) (constnode 0 tp) :=
        fun tp integer => ranged_filled (integer.sized.zero.2.symm ▸ integer.sized.zero.1)
      obtain ⟨_, _, _, _, -, built, -⟩ := compared ctp mem noFloats (filled 0) (fun _ _ => false) (constnode 0 tp) 0 rfl
        (ranged tp integer) (ranged ctp (integers ctp mem))
      have type : (constnode 0 ctp).type.op ≠ .INT := other
      rw [constexpr, if_neg type] at built
      cases built
  · rintro ⟨narrow, int⟩
    refine ⟨fun ctp mem => ?_, distinct_of_narrow integer narrow⟩
    exact compared_of_narrow integer (integers ctp mem) narrow (int ctp mem)

theorem swtch_compares_char : (∀ ctp ∈ [longtype], Compared chartype ctp) ∧ Distinct chartype := by
  have char : Integer chartype := .inl (by decide)
  have long : ∀ ctp ∈ [longtype], Integer ctp := by
    intro ctp mem
    obtain rfl := List.mem_singleton.mp mem
    exact .inl (by decide)
  apply (swtch_compares char [longtype] long).mpr
  refine ⟨rfl, fun ctp mem => ?_⟩
  obtain rfl := List.mem_singleton.mp mem
  rfl

/-- `switch (0x100000000)` takes the case of 0. -/
theorem long_not_distinct : ¬((∀ ctp ∈ [inttype], Compared longtype ctp) ∧ Distinct longtype) := by
  rintro ⟨-, distinct⟩
  have ranged1 : Ranged (filled 0) (constnode 0 longtype) := ranged_filled (by decide)
  have ranged2 : Ranged (filled 4294967296) (constnode 0 longtype) := ranged_filled (by decide)
  have same := distinct noFloats (fun _ _ => false) _ _ _ _ rfl rfl ranged1 ranged2 _ _ _ _ rfl rfl
    oneVariable 0 0 0 0 0 4294967296 0 rfl rfl rfl rfl
  cases same

end Scc.Cc1.Fold
