import Scc.Cc1.FoldUnsigned

set_option linter.all false

/-! The folding of casts between integer, enumerated and pointer types. -/
namespace Scc.Cc1.Fold
open Arithmetic

/-- An integer type, an enumeration or a pointer, which may be signed if it is an integer. -/
structure Scalar (tp : CType) : Prop where
  op : tp.op ∈ [.INT, .ENUM, .PTR]
  signed : tp.tsigned = true → tp.op = .INT
  size : tp.size ∈ [1, 2, 4, 8]

/-- The number that the bits of a constant stand for. -/
def value (tp : CType) (u : BitVec 64) : Int := if tp.tsigned then u.toInt else u.toNat

/-- The conversion of C to a type. -/
def converted (tp : CType) (i : Int) : Int :=
  if tp = booltype then if i = 0 then 0 else 1 else (ints tp).convert i

/-- The cast leaves a constant of the type whose value is the converted one. -/
def CastExact (syms : Symbols) (newtp : CType) (i : Int) (result : Node × Symbols) : Prop :=
  ∃ u, result = (constnode syms.next newtp, syms.newsym ⟨newtp, true, u⟩) ∧
    value newtp u = converted newtp i ∧ (ints newtp).Fits (value newtp u)

/-- The values with which a cast comes out right: for a signed type those that are in the range
already or have the sign bit set, for `_Bool` those whose low byte is 1 if they are not 0. -/
def SafeCast (newtp : CType) (u : BitVec 64) : Prop :=
  if newtp = booltype then u = 0 ∨ u.toNat % 2 ^ 8 = 1
  else newtp.tsigned = true → newtp.size ≠ 8 →
    u.toNat < 2 ^ (8 * newtp.size - 1) ∨ u.getLsbD (8 * newtp.size - 1) = true

variable {tp newtp oldtp : CType} {u : BitVec 64}

theorem getLsbD_ones (size : tp.size ∈ [1, 2, 4, 8]) (k : Nat) :
    (ones tp.size).getLsbD k = decide (k < 8 * tp.size) := by
  rw [← BitVec.testBit_toNat, toNat_ones size, Nat.testBit_two_pow_sub_one]

/-- The mask of the sign bit, which the types of 8 bytes do not have. -/
theorem sign_mask (size : tp.size ∈ [1, 2, 4, 8]) :
    u &&& (~~~ones tp.size >>> 1) &&& ones tp.size ≠ 0 ↔ tp.size ≠ 8 ∧ u.getLsbD (8 * tp.size - 1) = true := by
  have mask : (~~~ones tp.size >>> 1) &&& ones tp.size =
      if tp.size = 8 then 0 else BitVec.twoPow 64 (8 * tp.size - 1) := by
    simp only [List.mem_cons, List.not_mem_nil, or_false] at size
    rcases size with size | size | size | size
    all_goals
      rw [size]
      decide
  rw [BitVec.and_assoc, mask]
  by_cases full : tp.size = 8
  · simp [full]
  · have single : BitVec.twoPow 64 (8 * tp.size - 1) ≠ 0 := by
      simp only [List.mem_cons, List.not_mem_nil, or_false] at size
      rcases size with size | size | size | size
      all_goals
        rw [size]
        decide
    rw [if_neg full, BitVec.and_twoPow]
    split
    case isTrue set => exact iff_of_true single ⟨full, set⟩
    case isFalse clear => exact iff_of_false (absurd rfl) fun set => clear set.2

/-- Filling up a number whose sign bit is set extends its sign. -/
theorem fill_signExtend (size : tp.size ∈ [1, 2, 4, 8]) (negative : u.getLsbD (8 * tp.size - 1) = true) :
    u ||| ~~~ones tp.size = (u.setWidth (8 * tp.size)).signExtend 64 := by
  apply BitVec.eq_of_getLsbD_eq
  intro k small
  have msb : (u.setWidth (8 * tp.size)).msb = true := by
    have wide : 0 < 8 * tp.size := by
      simp only [List.mem_cons, List.not_mem_nil, or_false] at size
      omega
    rw [BitVec.msb_setWidth, negative, decide_eq_true wide, Bool.and_self]
  rw [BitVec.getLsbD_or, BitVec.getLsbD_not, getLsbD_ones size, BitVec.getLsbD_signExtend, BitVec.getLsbD_setWidth, msb]
  by_cases low : k < 8 * tp.size
  · simp [low, small]
  · simp [low, small]

/-- What `foldcast` makes of the bits of a constant that is no floating one. -/
def bring (newtp : CType) (u : BitVec 64) : BitVec 64 :=
  if newtp.tsigned then
    if newtp.size ≠ 8 ∧ u.getLsbD (8 * newtp.size - 1) = true then
      (u.setWidth (8 * newtp.size)).signExtend 64
    else u
  else u &&& ones newtp.size

theorem castconst_scalar {fp : Floats} (new : Scalar newtp) (old : Scalar oldtp) :
    castconst fp newtp oldtp u = some (bring newtp u) := by
  have same : (if newtp.tsigned then if u &&& (~~~ones newtp.size >>> 1) &&& ones newtp.size ≠ 0 then
      u ||| ~~~ones newtp.size else u else u &&& ones newtp.size) = bring newtp u := by
    simp only [bring, sign_mask new.size]
    split
    case isTrue =>
      split
      case isTrue set => exact fill_signExtend new.size set.2
      case isFalse => rfl
    case isFalse => rfl
  have kind := new.op
  have kind' := old.op
  simp only [List.mem_cons, List.not_mem_nil, or_false] at kind kind'
  rw [← same, castconst]
  rcases kind with kind | kind | kind
  all_goals
    rcases kind' with kind' | kind' | kind'
    all_goals
      rw [kind, kind']

/-- A number whose bit `w - 1` is clear is below `2 ^ (w - 1)` in its `w` low bits. -/
theorem low_bits {w n : Nat} (wide : 0 < w) (clear : n.testBit (w - 1) = false) : n % 2 ^ w < 2 ^ (w - 1) := by
  have split : n % 2 ^ w = n % 2 ^ (w - 1) + 2 ^ (w - 1) * (n / 2 ^ (w - 1) % 2) := by
    rw [← Nat.mod_pow_succ, Nat.sub_add_cancel wide]
  have bit : n / 2 ^ (w - 1) % 2 = 0 := by
    rw [Nat.testBit_eq_decide_div_mod_eq] at clear
    have other := of_decide_eq_false clear
    omega
  rw [split, bit, Nat.mul_zero, Nat.add_zero]
  exact Nat.mod_lt _ (Nat.two_pow_pos _)

/-- A number with the sign bit clear is a value of the signed type as it is only if it is small. -/
theorem clear_exact {w : Nat} (wide : 0 < w) (narrow : w < 64) (clear : u.getLsbD (w - 1) = false) :
    u.toInt = Int.bmod u.toNat (2 ^ w) ↔ u.toNat < 2 ^ (w - 1) := by
  have low := low_bits wide (u.testBit_toNat.trans clear)
  have double : 2 ^ w = 2 * 2 ^ (w - 1) := by
    rw [← Nat.pow_succ', Nat.succ_eq_add_one, Nat.sub_add_cancel wide]
  have limit : 2 ^ (w - 1) ≤ 2 ^ 62 := Nat.pow_le_pow_right (by decide) (by omega)
  have small := u.isLt
  have remainder : Int.bmod u.toNat (2 ^ w) = (u.toNat % 2 ^ w : Nat) := by
    rw [Int.bmod_eq_emod_of_lt (by rw [← Int.natCast_emod]; omega), Int.natCast_emod]
  have le : u.toNat % 2 ^ w ≤ u.toNat := Nat.mod_le _ _
  rw [remainder, BitVec.toInt_eq_toNat_cond]
  constructor
  · intro same
    split at same
    · omega
    · omega
  · intro less
    rw [if_pos (by omega), Nat.mod_eq_of_lt (by omega)]

theorem converted_signed (signed : tp.tsigned = true) (narrow : 8 * tp.size ≤ 64) {i : Int}
    (congruent : i % 2 ^ 64 = u.toNat) : (ints tp).convert i = Int.bmod u.toNat (2 ^ (8 * tp.size)) := by
  have same : i % 2 ^ (8 * tp.size) = (u.toNat : Int) % 2 ^ (8 * tp.size) := by
    rw [← congruent, Int.emod_emod_of_dvd]
    exact_mod_cast Nat.pow_dvd_pow 2 narrow
  rw [IntType.convert_congr (t := ints tp) same]
  exact if_pos signed

theorem converted_unsigned (unsigned : tp.tsigned = false) (narrow : 8 * tp.size ≤ 64) {i : Int}
    (congruent : i % 2 ^ 64 = u.toNat) : (ints tp).convert i = (u.toNat : Int) % 2 ^ (8 * tp.size) := by
  rw [← congruent, Int.emod_emod_of_dvd _ (by exact_mod_cast Nat.pow_dvd_pow 2 narrow), IntType.convert, if_neg (by simp [ints, unsigned])]
  rfl

theorem value_zero : value tp u = 0 ↔ u = 0 := by
  unfold value
  split
  · rw [← BitVec.toInt_inj]
    exact Iff.rfl
  · rw [← BitVec.toNat_inj]
    exact Int.natCast_eq_zero

/-- A constant converted by `foldcast` has the value of the C conversion. -/
theorem bring_exact (oldtp : CType) (new : Scalar newtp) :
    value newtp (bring newtp u) = converted newtp (value oldtp u) ∧ (ints newtp).Fits (value newtp (bring newtp u)) ↔
      SafeCast newtp u := by
  have congruent : (value oldtp u) % 2 ^ 64 = u.toNat := by
    unfold value
    split
    · exact toInt_emod u
    · exact Int.emod_eq_of_lt (Int.natCast_nonneg _) (by exact_mod_cast u.isLt)
  have wide : 0 < 8 * newtp.size ∧ 8 * newtp.size ≤ 64 := by
    have size := new.size
    simp only [List.mem_cons, List.not_mem_nil, or_false] at size
    omega
  have within (i : Int) : (ints newtp).Fits ((ints newtp).convert i) := IntType.fits_convert wide.1 i
  cases signed : newtp.tsigned with
  | true =>
    have other : newtp ≠ booltype := by
      rintro rfl
      cases signed
    have value_eq (v : BitVec 64) : value newtp v = v.toInt := if_pos signed
    rw [SafeCast, converted, if_neg other, if_neg other, bring, if_pos signed, value_eq]
    split
    case isTrue set =>
      have fill : (BitVec.signExtend 64 (u.setWidth (8 * newtp.size))).toInt = (ints newtp).convert (value oldtp u) := by
        rw [BitVec.toInt_signExtend_of_le wide.2, BitVec.toInt_setWidth, converted_signed signed wide.2 congruent]
      rw [fill]
      exact iff_of_true ⟨rfl, within _⟩ fun _ _ => .inr set.2
    case isFalse unset =>
      rw [converted_signed signed wide.2 congruent]
      by_cases full : newtp.size = 8
      · have exact_ : u.toInt = Int.bmod u.toNat (2 ^ (8 * newtp.size)) := by
          rw [full]
          exact u.toInt_eq_toNat_bmod
        refine iff_of_true ⟨exact_, ?_⟩ fun _ short => absurd full short
        rw [exact_, ← converted_signed signed wide.2 congruent]
        exact within _
      · have clear : u.getLsbD (8 * newtp.size - 1) = false := by
          cases bit : u.getLsbD (8 * newtp.size - 1) with
          | false => rfl
          | true => exact absurd ⟨full, bit⟩ unset
        have narrow : 8 * newtp.size < 64 := by omega
        simp only [clear_exact wide.1 narrow clear, signed, ne_eq, full, not_false_eq_true, clear, Bool.false_eq_true,
          or_false, forall_const]
        refine ⟨fun h => h.1, fun small => ⟨small, ?_⟩⟩
        rw [(clear_exact wide.1 narrow clear).mpr small, ← converted_signed signed wide.2 congruent]
        exact within _
  | false =>
    have value_eq (v : BitVec 64) : value newtp v = v.toNat := if_neg (by simp [signed])
    have masked : ((u &&& ones newtp.size).toNat : Int) = (u.toNat : Int) % 2 ^ (8 * newtp.size) :=
      stored_modulo new.size (small_modulo u.isLt)
    rw [bring, if_neg (by simp [signed]), value_eq, masked]
    have range : (ints newtp).Fits ((u.toNat : Int) % 2 ^ (8 * newtp.size)) := by
      rw [← converted_unsigned signed wide.2 congruent]
      exact within _
    by_cases bool : newtp = booltype
    · subst bool
      rw [SafeCast, converted, if_pos rfl, if_pos rfl]
      have zero : value oldtp u = 0 ↔ u = 0 := value_zero
      have low : ((u.toNat : Int) % 2 ^ (8 * booltype.size)) = (u.toNat % 2 ^ 8 : Nat) := by
        rfl
      rw [and_iff_left range, low]
      by_cases none_ : u = 0
      · rw [if_pos (zero.mpr none_), none_]
        exact iff_of_true rfl (.inl rfl)
      · rw [if_neg (none_ ∘ zero.mp), or_iff_right none_]
        exact Int.natCast_inj (n := 1)
    · rw [SafeCast, converted, if_neg bool, if_neg bool, converted_unsigned signed wide.2 congruent]
      exact iff_of_true ⟨rfl, range⟩ fun sign => absurd (signed.symm.trans sign) (by decide)

/-- A cast of a constant is exact where the bits that take its place are. -/
theorem castExact_iff {syms : Symbols} {i : Int} :
    CastExact syms newtp i (constnode syms.next newtp, syms.newsym ⟨newtp, true, u⟩) ↔
      value newtp u = converted newtp i ∧ (ints newtp).Fits (value newtp u) := by
  constructor
  · rintro ⟨u', result, exact_⟩
    have get := congrArg (fun r => (r.2.get syms.next).u) result
    simp only [Symbols.newsym, ↓reduceIte] at get
    rwa [get]
  · exact fun exact_ => ⟨_, rfl, exact_⟩

/-- A cast of a constant between these types is folded as C converts it, unless the value is
out of range for a signed type and looks positive, or its low byte is not 1 for `_Bool`. -/
theorem foldcast_exact {fp : Floats} {syms : Symbols} {op op' : Op} {nconst : Bool} {sym : Option Nat}
    {left right left' right' : Node} {s : Nat} (new : Scalar newtp) (old : Scalar oldtp) :
    CastExact syms newtp (value oldtp (syms.get s).u)
        (foldcast fp syms (.mk op nconst newtp sym left right) (.mk op' true oldtp (some s) left' right')) ↔
      SafeCast newtp (syms.get s).u := by
  rw [foldcast, castconst_scalar new old, ← bring_exact oldtp new]
  exact castExact_iff

/-- `(int)0x100000000` stays 4294967296, and `(_Bool)2` is 2. -/
theorem foldcast_inexact :
    ¬CastExact (twoConstants ⟨longtype, true, 0x100000000⟩ ⟨inttype, true, 2⟩) inttype 0x100000000
        (foldcast noFloats (twoConstants ⟨longtype, true, 0x100000000⟩ ⟨inttype, true, 2⟩)
          (node .OCAST inttype (constnode 0 longtype) .nil) (constnode 0 longtype)) ∧
      ¬CastExact (twoConstants ⟨longtype, true, 0x100000000⟩ ⟨inttype, true, 2⟩) booltype 2
        (foldcast noFloats (twoConstants ⟨longtype, true, 0x100000000⟩ ⟨inttype, true, 2⟩)
          (node .OCAST booltype (constnode 1 inttype) .nil) (constnode 1 inttype)) := by
  constructor
  · refine mt (castExact_iff (u := 0x100000000)).mp ?_
    decide
  · refine mt (castExact_iff (u := 2)).mp ?_
    decide

theorem foldcast_exact_char :
    CastExact (twoConstants ⟨inttype, true, 0x1ff⟩ ⟨inttype, true, 0⟩) chartype 0x1ff
        (foldcast noFloats (twoConstants ⟨inttype, true, 0x1ff⟩ ⟨inttype, true, 0⟩)
          (.mk .OCAST false chartype none (constnode 0 inttype) .nil) (.mk .OSYM true inttype (some 0) .nil .nil)) ↔
      SafeCast chartype 0x1ff :=
  foldcast_exact (s := 0) ⟨by decide, fun _ => rfl, by decide⟩ ⟨by decide, fun _ => rfl, by decide⟩

end Scc.Cc1.Fold
