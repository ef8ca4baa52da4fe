import Scc.Cc1.Conversions

set_option linter.all false

/-! The trees for shifts: when the left operand keeps its own type. -/
namespace Scc.Cc1.Fold
open Arithmetic

variable {fp : Floats} {syms : Symbols} {equiv : CType → CType → Bool} {tp tp' : CType} {lp rp : Node} {op : Op}

/-- The left operand keeps its promoted type, which has the values of the type of the language. -/
structure Kept (tp tp' : CType) : Prop where
  result : (resultTypes (promotedType tp) (promotedType tp')).1 = promotedType tp
  is : (standard tp).is (promotedType tp) = true
  ints : ints (promotedType tp) = (standard tp).ints

instance (tp tp' : CType) : Decidable (Kept tp tp') :=
  decidable_of_iff
    ((resultTypes (promotedType tp) (promotedType tp')).1 = promotedType tp ∧
      (standard tp).is (promotedType tp) = true ∧ Fold.ints (promotedType tp) = (standard tp).ints)
    ⟨fun ⟨a, b, c⟩ => ⟨a, b, c⟩, fun ⟨a, b, c⟩ => ⟨a, b, c⟩⟩

/-- The two sides of the table of left operands. -/
def LeftKnown (tp tp' : CType) : Prop :=
  (keepsLeft (promotedType tp) (promotedType tp') = true → Kept tp tp') ∧
    ((standard tp).is (resultTypes (promotedType tp) (promotedType tp')).1 = true →
      keepsLeft (promotedType tp) (promotedType tp') = true)

instance (tp tp' : CType) : Decidable (LeftKnown tp tp') := inferInstanceAs (Decidable (_ ∧ _))

theorem leftKnown_enum (id : Nat) (integer : Integer tp) : LeftKnown (enumType id) tp := by
  have no : keepsLeft (enumType id) (promotedType tp) = false := rfl
  refine ⟨fun keeps => absurd (no.symm.trans keeps) Bool.false_ne_true, fun is => ?_⟩
  have result : (resultTypes (enumType id) (promotedType tp)).1 = enumType id ∨
      (resultTypes (enumType id) (promotedType tp)).1 ∈ [longtype, ulongtype, llongtype, ullongtype] := by
    revert integer
    apply Integer.cases
    · intro tp listed
      simp only [integerTypes, List.mem_cons, List.not_mem_nil, or_false] at listed
      rcases listed with rfl | rfl | rfl | rfl | rfl | rfl | rfl | rfl | rfl | rfl | rfl | rfl | rfl | rfl
      all_goals
        first
        | exact .inl rfl
        | exact .inr (of_decide_eq_true rfl)
    · intro id'
      left
      have direction : convDirection (enumType id) (enumType id') = 0 := by
        simp [convDirection, enumType]
      show (resultTypes (enumType id) (enumType id')).1 = _
      rw [resultTypes, direction]
      rfl
  have int : standard (enumType id) = .int := rfl
  have promoted : promotedType (enumType id) = enumType id := rfl
  rw [int, promoted] at is
  rcases result with same | other
  · rw [same, enum_is] at is
    cases is
  · have each : ∀ tp ∈ [longtype, ulongtype, llongtype, ullongtype], Standard.int.is tp = false := by
      decide
    rw [each _ other] at is
    cases is

theorem leftKnown (integer : Integer tp) (integer' : Integer tp') : LeftKnown tp tp' := by
  rcases integer with listed | ⟨id, rfl⟩
  · revert integer'
    apply Integer.cases
    · have each : ∀ tp ∈ integerTypes, ∀ tp' ∈ integerTypes, LeftKnown tp tp' := by
        decide +kernel
      exact each tp listed
    · intro id
      simp only [integerTypes, List.mem_cons, List.not_mem_nil, or_false] at listed
      rcases listed with rfl | rfl | rfl | rfl | rfl | rfl | rfl | rfl | rfl | rfl | rfl | rfl | rfl | rfl
      all_goals exact of_decide_eq_true rfl
  · exact leftKnown_enum id integer'

theorem standard_wide (t : Standard) : 32 ≤ t.ints.width := by
  cases t <;> decide

/-- The number of places survives every conversion to a promoted type. -/
theorem places_fit {t : IntType} {w : Int} {width : Nat} (wide : 32 ≤ t.width) (few : width ≤ 64)
    (places : 0 ≤ w ∧ w < width) : t.convert w = w := by
  have below : 6 < t.width := by omega
  exact IntType.convert_fits (by omega) (IntType.fits_low below places.1 (by omega))

theorem integerop_shift_eq (known : op ∈ [.OSHL, .OSHR]) (left : Integer lp.type) (right : Integer rp.type) :
    integerop fp syms equiv op lp rp = .ok (node op (arithconv fp syms equiv lp rp).1.type
      (arithconv fp syms equiv lp rp).1 (arithconv fp syms equiv lp rp).2) := by
  simp only [List.mem_cons, List.not_mem_nil, or_false] at known
  rcases known with rfl | rfl <;> simp [integerop, left.scalars.tinteger, right.scalars.tinteger]

/-- What the tree for a shift is worth when the left operand keeps its type. -/
theorem eval_shift {t : IntType} {l r : Node} (known : op ∈ [.OSHL, .OSHR]) {σ : Type} {M : Machine σ} {s s1 s2 : σ}
    {v w x : Int} (integer : Integer tp) (ints_ : ints tp = t) (operand : r ≠ .nil)
    (left : eval M syms l s = some (v, s1)) (right : eval M syms r s1 = some (w, s2)) (fits : t.Fits v)
    (defined : shift op t v w = some x) : eval M syms (node op tp l r) s = some (x, s2) := by
  have listed : op ∈ operators := by
    simp only [List.mem_cons, List.not_mem_nil, or_false] at known
    rcases known with rfl | rfl <;> decide
  have value : binary M tp op v w = some x := by
    rw [binary, integer.scalars.integral, if_pos rfl, ints_]
    simp only [List.mem_cons, List.not_mem_nil, or_false] at known
    rcases known with rfl | rfl <;> exact defined
  have result : t.Fits x := by
    unfold shift at defined
    split at defined
    · exact (IntType.fits_shl defined).2
    · exact (IntType.fits_shr fits defined).2
  have same : inType tp x = x := by
    rw [inType, if_pos integer.scalars.integral]
    exact IntType.convert_fits integer.scalars.wide (ints_ ▸ result)
  apply (eval_binary_some listed operand).mpr
  exact ⟨v, s1, w, x, left, right, value, same.symm⟩

theorem shift_places {t : IntType} {v w x : Int} (fits : t.Fits v) (defined : shift op t v w = some x) :
    0 ≤ w ∧ w < t.width := by
  unfold shift at defined
  split at defined
  · exact (IntType.fits_shl defined).1
  · exact (IntType.fits_shr fits defined).1

theorem shifted_of_kept (known : op ∈ [.OSHL, .OSHR]) (left : Integer lp.type) (right : Integer rp.type)
    (kept : Kept lp.type rp.type) :
    Shifted syms op lp rp (node op (arithconv fp syms equiv lp rp).1.type
      (arithconv fp syms equiv lp rp).1 (arithconv fp syms equiv lp rp).2) := by
  obtain ⟨one, two⟩ := arithconv_operands fp syms equiv left right
  have result := one.type.trans kept.result
  refine ⟨?_, fun M s s1 s2 v w x first second defined => ?_⟩
  · rw [node_type, result]
    exact kept.is
  · have fits : (standard lp.type).ints.Fits v := by
      rw [← kept.ints]
      exact within_fits left.promoted.wider (eval_fits left first)
    have places := shift_places fits defined
    have leftValue := one.value M s
    rw [if_pos kept.result, first] at leftValue
    have rightValue := two.value M s1
    have rightSame : eval M syms (arithconv fp syms equiv lp rp).2 s1 = some (w, s2) := by
      rw [rightValue]
      split
      case isTrue => exact second
      case isFalse other =>
        have wide : 32 ≤ (ints (resultTypes (promotedType lp.type) (promotedType rp.type)).2).width := by
          have choice : (resultTypes (promotedType lp.type) (promotedType rp.type)).2 = promotedType lp.type ∨
              (resultTypes (promotedType lp.type) (promotedType rp.type)).2 = promotedType rp.type := by
            unfold resultTypes
            split
            · dsimp only
              split
              · exact .inr rfl
              · exact .inl rfl
            · split <;> exact .inr rfl
          rw [choice.resolve_right other, kept.ints]
          exact standard_wide _
        have few : (standard lp.type).ints.width ≤ 64 := by
          cases standard lp.type <;> decide
        rw [second, Option.map_some, places_fit wide few places]
    have there : (arithconv fp syms equiv lp rp).2 ≠ .nil := by
      intro none_
      rw [none_] at rightSame
      cases rightSame
    rw [result]
    exact eval_shift known left.promoted.integer kept.ints there leftValue rightSame fits defined

/-- For which operand types the tree for a shift is right. -/
theorem integerop_shift (op : Op) (known : op ∈ [.OSHL, .OSHR]) (integer : Integer tp) (integer' : Integer tp') :
    (∀ (fp : Floats) (syms : Symbols) (equiv : CType → CType → Bool) (lp rp : Node), lp.type = tp → rp.type = tp' →
      ∃ tree, integerop fp syms equiv op lp rp = .ok tree ∧ Shifted syms op lp rp tree) ↔
      keepsLeft (promotedType tp) (promotedType tp') = true := by
  obtain ⟨enough, needed⟩ := leftKnown integer integer'
  constructor
  · intro all
    have left : Integer (constnode 0 tp).type := integer
    have right : Integer (constnode 0 tp').type := integer'
    obtain ⟨tree, built, shifted⟩ :=
      all noFloats (allOnes tp) (fun _ _ => false) (constnode 0 tp) (constnode 0 tp') rfl rfl
    rw [integerop_shift_eq known left right] at built
    cases built
    have is := shifted.type
    rw [node_type, (arithconv_operands noFloats (allOnes tp) (fun _ _ => false) left right).1.type] at is
    exact needed is
  · rintro keeps fp syms equiv lp rp rfl rfl
    exact ⟨_, integerop_shift_eq known integer integer', shifted_of_kept known integer integer' (enough keeps)⟩

theorem integerop_shift_long : ∃ tree, integerop noFloats (allOnes longtype) (fun _ _ => false) .OSHL
    (constnode 0 longtype) (constnode 0 inttype) = .ok tree ∧
      Shifted (allOnes longtype) .OSHL (constnode 0 longtype) (constnode 0 inttype) tree := by
  have long : Integer longtype := .inl (by decide)
  have int : Integer inttype := .inl (by decide)
  exact (integerop_shift .OSHL (by decide) long int).mpr rfl _ _ _ _ _ rfl rfl

/-- `-1 >> 1u` is made a shift of an `unsigned int`. -/
theorem unsigned_places : ¬∃ tree,
    integerop noFloats (allOnes inttype) (fun _ _ => false) .OSHR (constnode 0 inttype) (constnode 0 uinttype) = .ok tree ∧
      Shifted (allOnes inttype) .OSHR (constnode 0 inttype) (constnode 0 uinttype) tree := by
  rintro ⟨tree, built, shifted⟩
  cases built
  have is := shifted.type
  revert is
  decide

end Scc.Cc1.Fold
