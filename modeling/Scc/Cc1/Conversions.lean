import Scc.Cc1.Operators
import Scc.Cc1.EvaluationProofs

set_option linter.all false

/-! Integer promotion keeps the value of an operand, and `arithconv` finds the common type where the
promoted types are consistent. -/
namespace Scc.Cc1.Fold
open Arithmetic

variable {fp : Floats} {syms : Symbols} {equiv : CType → CType → Bool} {σ : Type} {M : Machine σ} {s : σ}
  {tp tp' newtp : CType} {np np1 np2 : Node} {v : Int}

/-! The tables of the integer types. -/

theorem Integer.cases {P : CType → Prop} (listed : ∀ tp ∈ integerTypes, P tp) (enum : ∀ id, P (enumType id)) :
    ∀ tp, Integer tp → P tp := by
  rintro tp (mem | ⟨id, rfl⟩)
  · exact listed tp mem
  · exact enum id

theorem eqtype_self (tp : CType) : eqtype tp tp = true := by
  rw [eqtype, decide_eq_true rfl, Bool.true_or]

/-- What every integer type has. -/
structure Scalars (tp : CType) : Prop where
  op : tp.op = .INT ∨ tp.op = .ENUM
  integral : integral tp = true
  wide : 0 < (ints tp).width
  tinteger : tp.tinteger = true

theorem Integer.scalars (integer : Integer tp) : Scalars tp := by
  revert integer
  apply Integer.cases
  · intro tp mem
    have each : ∀ tp ∈ integerTypes,
        (tp.op = .INT ∨ tp.op = .ENUM) ∧ Fold.integral tp = true ∧ 0 < (ints tp).width ∧ tp.tinteger = true := by
      decide
    obtain ⟨op, is, wide, tinteger⟩ := each tp mem
    exact ⟨op, is, wide, tinteger⟩
  · exact fun id => ⟨.inr rfl, rfl, by show 0 < 32; decide, rfl⟩

/-- What the promotion of a type is. -/
structure Promoted (tp newtp : CType) : Prop where
  integer : Integer newtp
  wider : within (ints tp) (ints newtp) = true
  high : newtp.rank ≥ inttype.rank
  other : newtp ≠ booltype
  low : tp.rank < inttype.rank → eqtype newtp tp = false
  same : tp.rank ≥ inttype.rank → newtp = tp

theorem Integer.promoted (integer : Integer tp) : Promoted tp (promotedType tp) := by
  revert integer
  apply Integer.cases
  · intro tp mem
    have each : ∀ tp ∈ integerTypes, promotedType tp ∈ integerTypes ∧
        within (ints tp) (ints (promotedType tp)) = true ∧ (promotedType tp).rank ≥ inttype.rank ∧
        promotedType tp ≠ booltype ∧ (tp.rank < inttype.rank → eqtype (promotedType tp) tp = false) ∧
        (tp.rank ≥ inttype.rank → promotedType tp = tp) := by
      decide
    obtain ⟨listed, wider, high, other, low, same⟩ := each tp mem
    exact ⟨.inl listed, wider, high, other, low, same⟩
  · intro id
    have same : promotedType (enumType id) = enumType id := rfl
    rw [same]
    refine ⟨.inr ⟨id, rfl⟩, rfl, Nat.le_refl _, ?_, fun low => absurd low (by decide : ¬3 < 3), fun _ => rfl⟩
    rintro ⟨⟩

/-! Casts. -/

theorem eval_cast : eval M syms (node .OCAST newtp np .nil) s =
    (eval M syms np s).map fun out => (inType newtp (castValue M newtp np.type out.1), out.2) := by
  show (eval M syms np s).bind _ = _
  rw [Option.map_eq_bind]
  rfl

/-- A cast between integer types converts the value. -/
theorem eval_cast_integer (new : Integer newtp) (old : Integer np.type) (other : newtp ≠ booltype) :
    eval M syms (node .OCAST newtp np .nil) s =
      (eval M syms np s).map fun out => ((ints newtp).convert out.1, out.2) := by
  have void : newtp.op ≠ .VOID := by
    rcases new.scalars.op with op | op <;> rw [op] <;> decide
  have value : ∀ v, inType newtp (castValue M newtp np.type v) = (ints newtp).convert v := by
    intro v
    have cast : castValue M newtp np.type v = inType newtp v := by
      rw [castValue, if_neg void, new.scalars.integral, old.scalars.integral, converted, if_neg other, inType,
        if_pos new.scalars.integral]
      rfl
    rw [cast, inType_inType, inType, if_pos new.scalars.integral]
  rw [eval_cast]
  congr 1
  funext out
  rw [value]

/-- The value of an integer tree is one of its type. -/
theorem eval_fits (integer : Integer np.type) {out : Int × σ} (value : eval M syms np s = some out) :
    (ints np.type).Fits out.1 := by
  have same := eval_inType np value
  rw [inType, if_pos integer.scalars.integral] at same
  rw [← same]
  exact IntType.fits_convert integer.scalars.wide _

theorem within_fits {t t' : IntType} (wider : within t t' = true) (fits : t.Fits v) : t'.Fits v := by
  rw [within, Bool.and_eq_true, decide_eq_true_eq, decide_eq_true_eq] at wider
  exact ⟨Int.le_trans wider.1 fits.1, Int.le_trans fits.2 wider.2⟩

/-- The conversion to a wider type keeps every value of the tree. -/
theorem eval_within {t : IntType} (integer : Integer np.type) (wide : 0 < t.width)
    (wider : within (ints np.type) t = true) :
    ((eval M syms np s).map fun out => (t.convert out.1, out.2)) = eval M syms np s := by
  cases value : eval M syms np s with
  | none => rfl
  | some out =>
    have fits := within_fits wider (eval_fits integer value)
    rw [Option.map_some, IntType.convert_fits wide fits]

/-! The conversions of the source. -/

/-- There is always a conversion between integer types. -/
theorem convert_integer (new : Integer newtp) (old : Integer np.type) (iscast : Bool) :
    convert fp syms equiv np newtp iscast = if eqtype newtp np.type then np else node .OCAST newtp np .nil := by
  rw [convert]
  split
  case isTrue => rfl
  case isFalse =>
    rw [if_pos]
    rcases new.scalars.op with op | op <;> rcases old.scalars.op with op' | op' <;> simp [op, op']

theorem node_type (op : Op) (tp : CType) (lp rp : Node) : (node op tp lp rp).type = tp := rfl

theorem node_ne_nil (op : Op) (tp : CType) (lp rp : Node) : node op tp lp rp ≠ .nil := by
  rintro ⟨⟩

/-- The promotion of an operand has the promoted type and the same value. -/
theorem promote_spec (fp : Floats) (syms : Symbols) (equiv : CType → CType → Bool) (integer : Integer np.type) :
    (promote fp syms equiv np).type = promotedType np.type ∧
      ∀ {σ : Type} (M : Machine σ) (s : σ), eval M syms (promote fp syms equiv np) s = eval M syms np s := by
  have table := integer.promoted
  have low (below : ¬np.type.rank ≥ inttype.rank) :
      convert fp syms equiv np (promotedType np.type) true = node .OCAST (promotedType np.type) np .nil := by
    rw [convert_integer table.integer integer, table.low (Nat.lt_of_not_le below), if_neg Bool.false_ne_true]
  have unfolded : promote fp syms equiv np =
      if np.type.rank ≥ inttype.rank then np else node .OCAST (promotedType np.type) np .nil := by
    rw [promote]
    rcases integer.scalars.op with op | op
    all_goals
      rw [op]
      dsimp only
      split
      case isTrue => rfl
      case isFalse below =>
        rw [low below]
        rfl
  rw [unfolded]
  split
  case isTrue high => exact ⟨(table.same high).symm, fun _ _ => rfl⟩
  case isFalse =>
    refine ⟨rfl, fun M s => ?_⟩
    rw [eval_cast_integer table.integer integer table.other]
    exact eval_within integer table.integer.scalars.wide table.wider

/-- The types after `arithconv`. -/
def resultTypes (p1 p2 : CType) : CType × CType :=
  if convDirection p1 p2 > 0 then (p1, if eqtype p1 p2 then p2 else p1)
  else if convDirection p1 p2 < 0 then (if eqtype p2 p1 then p1 else p2, p2)
  else (p1, p2)

/-- One operand after `arithconv`: its value is converted where its type is another one. -/
structure ConvertedOperand (syms : Symbols) (np new : Node) (result : CType) : Prop where
  type : new.type = result
  value : ∀ {σ : Type} (M : Machine σ) (s : σ), eval M syms new s =
    if result = promotedType np.type then eval M syms np s
    else (eval M syms np s).map fun out => ((ints result).convert out.1, out.2)

theorem ConvertedOperand.kept (integer : Integer np.type) :
    ConvertedOperand syms np (promote fp syms equiv np) (promotedType np.type) := by
  obtain ⟨type, value⟩ := promote_spec fp syms equiv integer
  exact ⟨type, fun M s => by rw [if_pos rfl, value]⟩

theorem ConvertedOperand.converted (integer : Integer np.type) (new : Integer newtp) (other : newtp ≠ booltype) :
    ConvertedOperand syms np (convert fp syms equiv (promote fp syms equiv np) newtp true)
      (if eqtype newtp (promotedType np.type) then promotedType np.type else newtp) := by
  obtain ⟨type, value⟩ := promote_spec fp syms equiv integer
  have old : Integer (promote fp syms equiv np).type := type ▸ integer.promoted.integer
  rw [convert_integer new old, type]
  split
  case isTrue same => exact .kept integer
  case isFalse differ =>
    refine ⟨rfl, fun M s => ?_⟩
    have apart : newtp ≠ promotedType np.type := by
      rintro rfl
      exact differ (eqtype_self _)
    rw [if_neg apart, eval_cast_integer new old other, value]

theorem arithconv_operands (fp : Floats) (syms : Symbols) (equiv : CType → CType → Bool)
    (left : Integer np1.type) (right : Integer np2.type) :
    ConvertedOperand syms np1 (arithconv fp syms equiv np1 np2).1
        (resultTypes (promotedType np1.type) (promotedType np2.type)).1 ∧
      ConvertedOperand syms np2 (arithconv fp syms equiv np1 np2).2
        (resultTypes (promotedType np1.type) (promotedType np2.type)).2 := by
  have first := left.promoted
  have second := right.promoted
  simp only [arithconv, resultTypes, (promote_spec fp syms equiv left).1, (promote_spec fp syms equiv right).1]
  split
  case isTrue => exact ⟨.kept left, .converted right first.integer first.other⟩
  case isFalse =>
    split
    case isTrue => exact ⟨.converted left second.integer second.other, .kept right⟩
    case isFalse => exact ⟨.kept left, .kept right⟩

/-! The common type. -/

/-- What is needed of the types for the operands to come out right. -/
structure Table (tp tp' : CType) (result : CType × CType) (common : Standard) : Prop where
  same : eqtype result.1 result.2 = true
  left : common.is result.1 = true
  right : common.is result.2 = true
  leftInts : if result.1 = promotedType tp then within (ints tp) common.ints = true else ints result.1 = common.ints
  rightInts : if result.2 = promotedType tp' then within (ints tp') common.ints = true else ints result.2 = common.ints

instance (tp tp' : CType) (result : CType × CType) (common : Standard) : Decidable (Table tp tp' result common) :=
  decidable_of_iff
    (eqtype result.1 result.2 = true ∧ common.is result.1 = true ∧ common.is result.2 = true ∧
      (if result.1 = promotedType tp then within (ints tp) common.ints = true else ints result.1 = common.ints) ∧
      if result.2 = promotedType tp' then within (ints tp') common.ints = true else ints result.2 = common.ints)
    ⟨fun ⟨a, b, c, d, e⟩ => ⟨a, b, c, d, e⟩, fun ⟨a, b, c, d, e⟩ => ⟨a, b, c, d, e⟩⟩

/-- The two operands of one operator, by the tables. -/
abbrev Law (tp tp' : CType) : Prop :=
  Table tp tp' (resultTypes (promotedType tp) (promotedType tp')) ((standard tp).common (standard tp'))

abbrev Consistent (tp tp' : CType) : Prop := consistent (promotedType tp) (promotedType tp') = true

/-- A character of `wchar_t`, which is signed, and an `unsigned int` are taken to have one type. -/
def Wide (tp tp' : CType) : Prop := tp = wchartype ∧ tp' = uinttype ∨ tp = uinttype ∧ tp' = wchartype

instance (tp tp' : CType) : Decidable (Wide tp tp') := inferInstanceAs (Decidable (_ ∨ _))

/-- The types after `arithconv` are the common one. -/
abbrev Named (tp tp' : CType) : Prop :=
  eqtype (resultTypes (promotedType tp) (promotedType tp')).1 (resultTypes (promotedType tp) (promotedType tp')).2 = true ∧
    ((standard tp).common (standard tp')).is (resultTypes (promotedType tp) (promotedType tp')).1 = true ∧
    ((standard tp).common (standard tp')).is (resultTypes (promotedType tp) (promotedType tp')).2 = true

/-- Consistent types have their table, and others only the two that are taken for one. -/
def Known (tp tp' : CType) : Prop :=
  (Consistent tp tp' → Law tp tp') ∧ (Named tp tp' → Consistent tp tp' ∨ Wide tp tp')

instance (tp tp' : CType) : Decidable (Known tp tp') := inferInstanceAs (Decidable (_ ∧ _))

theorem enum_is (common : Standard) (id : Nat) : common.is (enumType id) = false := by
  cases common <;> rfl

/-- An enumeration is never the common type. -/
theorem known_enum_left (no : ¬Consistent tp tp') {id : Nat}
    (result : (resultTypes (promotedType tp) (promotedType tp')).1 = enumType id) : Known tp tp' := by
  refine ⟨fun yes => (no yes).elim, fun named => ?_⟩
  have left := named.2.1
  rw [result, enum_is] at left
  cases left

theorem known_enum_right (no : ¬Consistent tp tp') {id : Nat}
    (result : (resultTypes (promotedType tp) (promotedType tp')).2 = enumType id) : Known tp tp' := by
  refine ⟨fun yes => (no yes).elim, fun named => ?_⟩
  have right := named.2.2
  rw [result, enum_is] at right
  cases right

theorem known_of_law (consistent : Consistent tp tp') (law : Law tp tp') : Known tp tp' :=
  ⟨fun _ => law, fun _ => .inl consistent⟩

theorem law_decided (yes : decide (Law tp tp') = true) : Law tp tp' := of_decide_eq_true yes

theorem known_enum (id : Nat) (listed : tp ∈ integerTypes) :
    Known (enumType id) tp ∧ Known tp (enumType id) := by
  have no {tp tp' : CType} (inconsistent : consistent (promotedType tp) (promotedType tp') = false) :
      ¬Consistent tp tp' := by
    rw [Consistent, inconsistent]
    exact Bool.false_ne_true
  simp only [integerTypes, List.mem_cons, List.not_mem_nil, or_false] at listed
  rcases listed with rfl | rfl | rfl | rfl | rfl | rfl | rfl | rfl | rfl | rfl | rfl | rfl | rfl | rfl
  -- Above the rank of `int` the enumeration is converted, below it is the result.
  all_goals
    first
    | exact ⟨known_of_law rfl (law_decided rfl), known_of_law rfl (law_decided rfl)⟩
    | exact ⟨known_enum_left (no rfl) rfl, known_enum_right (no rfl) rfl⟩

theorem known_enums (id id' : Nat) : Known (enumType id) (enumType id') := by
  have direction : convDirection (enumType id) (enumType id') = 0 := by
    simp [convDirection, enumType]
  have no : ¬Consistent (enumType id) (enumType id') := by
    show ¬false = true
    exact Bool.false_ne_true
  have result : (resultTypes (enumType id) (enumType id')).1 = enumType id := by
    rw [resultTypes, direction]
    rfl
  exact known_enum_left no result

theorem known (integer : Integer tp) (integer' : Integer tp') : Known tp tp' := by
  have each : ∀ tp ∈ integerTypes, ∀ tp' ∈ integerTypes, Known tp tp' := by
    decide +kernel
  rcases integer with listed | ⟨id, rfl⟩ <;> rcases integer' with listed' | ⟨id', rfl⟩
  · exact each tp listed tp' listed'
  · exact (known_enum id' listed).2
  · exact (known_enum id listed').1
  · exact known_enums id id'

theorem common_wide (t t' : Standard) : 0 < (t.common t').ints.width := by
  cases t <;> cases t' <;> decide

/-- The value of an operand by the table. -/
theorem ConvertedOperand.common {new : Node} {result : CType} {t t' : Standard} (integer : Integer np.type)
    (operand : ConvertedOperand syms np new result)
    (ints_ : if result = promotedType np.type then within (ints np.type) (t.common t').ints = true
      else ints result = (t.common t').ints) :
    eval M syms new s = (eval M syms np s).map fun out => ((t.common t').ints.convert out.1, out.2) := by
  rw [operand.value]
  split at ints_
  case isTrue same => rw [if_pos same, eval_within integer (common_wide t t') ints_]
  case isFalse other => rw [if_neg other, ints_]

theorem usual_of_law (left : Integer np1.type) (right : Integer np2.type) (law : Law np1.type np2.type) :
    Usual fp syms equiv np1 np2 := by
  obtain ⟨one, two⟩ := arithconv_operands fp syms equiv left right
  refine ⟨?_, ?_, ?_, fun M s => ?_, fun M s => ?_⟩
  · rw [one.type, two.type]
    exact law.same
  · rw [one.type]
    exact law.left
  · rw [two.type]
    exact law.right
  · exact one.common left law.leftInts
  · exact two.common right law.rightInts

/-- A symbol with all bits set. -/
def allOnes (tp : CType) : Symbols := ⟨1, fun _ => ⟨tp, true, BitVec.allOnes 64⟩⟩

theorem named_of_usual (left : Integer np1.type) (right : Integer np2.type) (usual : Usual fp syms equiv np1 np2) :
    Named np1.type np2.type := by
  obtain ⟨one, two⟩ := arithconv_operands fp syms equiv left right
  have same := usual.same
  have first := usual.left
  have second := usual.right
  rw [one.type] at same first
  rw [two.type] at same second
  exact ⟨same, first, second⟩

/-- Of the character of `wchar_t` with all bits set, the value stays -1. -/
theorem wide_not_usual (wide : Wide tp tp') :
    ¬Usual noFloats (allOnes tp) (fun _ _ => false) (constnode 0 tp) (constnode 0 tp') := by
  intro usual
  rcases wide with ⟨rfl, rfl⟩ | ⟨rfl, rfl⟩
  · have value := usual.leftValue oneVariable 0
    revert value
    decide
  · have value := usual.rightValue oneVariable 0
    revert value
    decide

/-- For which operand types `arithconv` does the usual arithmetic conversions. -/
theorem arithconv_usual (integer : Integer tp) (integer' : Integer tp') :
    (∀ (fp : Floats) (syms : Symbols) (equiv : CType → CType → Bool) (np1 np2 : Node),
      np1.type = tp → np2.type = tp' → Usual fp syms equiv np1 np2) ↔
      consistent (promotedType tp) (promotedType tp') = true := by
  obtain ⟨enough, needed⟩ := known integer integer'
  constructor
  · intro all
    have usual := all noFloats (allOnes tp) (fun _ _ => false) (constnode 0 tp) (constnode 0 tp') rfl rfl
    have left : Integer (constnode 0 tp).type := integer
    have right : Integer (constnode 0 tp').type := integer'
    apply (needed (named_of_usual left right usual)).resolve_right
    intro wide
    exact wide_not_usual wide usual
  · rintro consistent fp syms equiv np1 np2 rfl rfl
    exact usual_of_law integer integer' (enough consistent)

theorem arithconv_usual_int : Usual noFloats (allOnes inttype) (fun _ _ => false) (constnode 0 inttype)
    (constnode 0 ulongtype) := by
  have int : Integer inttype := .inl (by decide)
  have ulong : Integer ulongtype := .inl (by decide)
  exact (arithconv_usual int ulong).mpr rfl _ _ _ _ _ rfl rfl

/-- `sizeof` yields a `size_t`, which has the rank of `unsigned int`: in a sum of the two each
operand keeps its type. -/
theorem size_not_usual : ¬Usual noFloats (allOnes sizettype) (fun _ _ => false) (constnode 0 sizettype)
    (constnode 0 uinttype) := by
  intro usual
  have same := usual.same
  revert same
  decide

end Scc.Cc1.Fold
