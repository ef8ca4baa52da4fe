import Scc.Cc1.Conversions

set_option linter.all false

/-! Arithmetic on pointers: an index is scaled to an address without loss, and the number of elements
between two pointers has to be that of an `int`. -/
namespace Scc.Cc1.Fold
open Arithmetic

/-- A pointer to a complete type. -/
structure ObjectPointer (pointees : Pointees) (tp : CType) : Prop where
  op : tp.op = .PTR
  size : tp.size = 8
  tsigned : tp.tsigned = false
  tarith : tp.tarith = false
  tinteger : tp.tinteger = false
  defined : pointees.defined tp = true
  complete : pointees.defined (pointees.type tp) = true
  small : (pointees.type tp).size < 2 ^ 64

/-- The expressions with pointers `p` and `q` and integers `i`. -/
inductive Use where
  | add (p i : Node)          -- p + i
  | addleft (i p : Node)      -- i + p
  | sub (p i : Node)          -- p - i
  | assignadd (p i : Node)    -- p += i
  | increment (p : Node)      -- p++
  | distance (p q : Node)     -- p - q
  | subleft (i p : Node)      -- i - p

section
variable (pointees : Pointees) (equiv : CType → CType → Bool) (syms : Symbols)

/-- A pointer in an expression, to which the new symbol is new. -/
def IsPointer (p : Node) : Prop := ObjectPointer pointees p.type ∧ syms.next ∉ p.constants

def IsIndex (i : Node) : Prop := Integer i.type ∧ syms.next ∉ i.constants

def Use.Typed : Use → Prop
  | .add p i | .sub p i | .assignadd p i => IsPointer pointees syms p ∧ IsIndex syms i
  | .addleft i p | .subleft i p => IsPointer pointees syms p ∧ IsIndex syms i
  | .increment p => IsPointer pointees syms p
  | .distance p q =>
    IsPointer pointees syms p ∧ IsPointer pointees syms q ∧ (q.type = p.type ∨ equiv p.type q.type = true)

variable {σ : Type} (M : Machine σ) (fp : Floats) (one : Nat)

/-- The address of the element `i` positions away from `a`. -/
def element (tp : CType) (a i : Int) : Int := pointer (a + i * (pointees.type tp).size)

/-- The number of elements between two addresses, where it is one for `ptrdiff_t`. -/
def Between (tp : CType) (a b k : Int) : Prop :=
  a - b = k * (pointees.type tp).size ∧ (ints pdifftype).Fits k

/-- What is asked of an expression. -/
def Use.Right : Use → Prop
  | .add p i => ∃ tree treesyms, arithmetic fp syms equiv pointees .OADD p i = .ok (tree, treesyms) ∧
    ∀ s s1 s2 a v, eval M syms p s = some (a, s1) → eval M syms i s1 = some (v, s2) →
      eval M treesyms tree s = some (element pointees p.type a v, s2)
  | .addleft i p => ∃ tree treesyms, arithmetic fp syms equiv pointees .OADD i p = .ok (tree, treesyms) ∧
    ∀ s s1 s2 a v, eval M syms p s = some (a, s1) → eval M syms i s1 = some (v, s2) →
      eval M treesyms tree s = some (element pointees p.type a v, s2)
  | .sub p i => ∃ tree treesyms, arithmetic fp syms equiv pointees .OSUB p i = .ok (tree, treesyms) ∧
    ∀ s s1 s2 a v, eval M syms p s = some (a, s1) → eval M syms i s1 = some (v, s2) →
      eval M treesyms tree s = some (element pointees p.type a (-v), s2)
  | .assignadd p i => ∃ tree treesyms, arithmetic fp syms equiv pointees .OA_ADD p i = .ok (tree, treesyms) ∧
    ∀ s s1 s2 l v, lval M syms p s = some (l, s1) → eval M syms i s1 = some (v, s2) →
      eval M treesyms tree s = some (element pointees p.type (pointer (M.load p.type l s2)) v,
        M.store p.type l (element pointees p.type (pointer (M.load p.type l s2)) v) s2)
  | .increment p => ∃ tree treesyms, incdec fp syms equiv pointees one p .OINC = .ok (tree, treesyms) ∧
    ∀ s s1 l, lval M syms p s = some (l, s1) →
      eval M treesyms tree s = some (pointer (M.load p.type l s1),
        M.store p.type l (element pointees p.type (pointer (M.load p.type l s1)) 1) s1)
  | .distance p q => ∃ tree treesyms, arithmetic fp syms equiv pointees .OSUB p q = .ok (tree, treesyms) ∧
    ∀ s s1 s2 a b k, eval M syms p s = some (a, s1) → eval M syms q s1 = some (b, s2) →
      Between pointees p.type a b k → eval M treesyms tree s = some (k, s2)
  | .subleft i p => ∃ text, arithmetic fp syms equiv pointees .OSUB i p = .error text

/-- Pointers that are subtracted are close together, in bytes for `ptrdiff_t` and in elements, that have
a size, for `int`, and no pointer is subtracted from a number. -/
def Use.Safe : Use → Prop
  | .distance p q =>
    ∀ s s1 s2 a b k, eval M syms p s = some (a, s1) → eval M syms q s1 = some (b, s2) →
      Between pointees p.type a b k →
      (pointees.type p.type).size ≠ 0 ∧ (ints pdifftype).Fits (a - b) ∧ (ints inttype).Fits k
  | .subleft .. => False
  | _ => True

end

/-! Addresses are numbers modulo `2 ^ 64`. -/

section
variable {pointees : Pointees} {tp : CType}

theorem pointer_emod (a : Int) : pointer a = a % 2 ^ 64 := rfl

theorem ObjectPointer.integral (is : ObjectPointer pointees tp) : integral tp = true := by
  simp [Fold.integral, is.op]

theorem ObjectPointer.ints (is : ObjectPointer pointees tp) : ints tp = ⟨64, false⟩ := by
  rw [Fold.ints, is.size, is.tsigned]

theorem ObjectPointer.inType (is : ObjectPointer pointees tp) (v : Int) : inType tp v = v % 2 ^ 64 := by
  rw [Fold.inType, if_pos is.integral, is.ints]
  rfl

theorem ObjectPointer.void (is : ObjectPointer pointees tp) : tp.op ≠ .VOID := by
  rw [is.op]
  decide

theorem ObjectPointer.castValue (is : ObjectPointer pointees tp) {σ : Type} (M : Machine σ) {oldtp : CType}
    (old : Fold.integral oldtp = true) (v : Int) : castValue M tp oldtp v = v % 2 ^ 64 := by
  have other : tp ≠ booltype := by
    rintro rfl
    cases is.op
  rw [Fold.castValue, if_neg is.void, is.integral, old, converted, if_neg other, is.ints]
  rfl

/-- The value of a pointer is an address. -/
theorem ObjectPointer.address {p : Node} (is : ObjectPointer pointees p.type) {σ : Type} {M : Machine σ}
    {syms : Symbols} {s s' : σ} {a : Int} (value : eval M syms p s = some (a, s')) : 0 ≤ a ∧ a < 2 ^ 64 := by
  have range := eval_inType p value
  rw [is.inType] at range
  omega

theorem ObjectPointer.binary_add (is : ObjectPointer pointees tp) {σ : Type} (M : Machine σ) (a b : Int) :
    binary M tp .OADD a b = some ((a + b) % 2 ^ 64) := by
  rw [binary, is.integral, if_pos rfl, is.ints]
  cases wraps : M.wraps <;> rfl

theorem ObjectPointer.binary_sub (is : ObjectPointer pointees tp) {σ : Type} (M : Machine σ) (a b : Int) :
    binary M tp .OSUB a b = some ((a - b) % 2 ^ 64) := by
  rw [binary, is.integral, if_pos rfl, is.ints]
  cases wraps : M.wraps <;> rfl

end

/-! The new symbol. -/

section
variable {σ : Type} {M : Machine σ} {syms : Symbols} {sym : Symbol} {np : Node}

theorem eval_newsym (fresh : syms.next ∉ np.constants) :
    eval M (syms.newsym sym) np = eval M syms np ∧ lval M (syms.newsym sym) np = lval M syms np := by
  have same : ∀ a ∈ np.constants, ((syms.newsym sym).get a).u = (syms.get a).u := by
    intro a known
    have other : a ≠ syms.next := by
      rintro rfl
      exact fresh known
    simp only [Symbols.newsym, if_neg other]
  exact ⟨(eval_congr np same).1, (eval_congr np same).2.1⟩

/-- A tree whose operator is not that of a leaf is evaluated alike when it is flagged. -/
theorem eval_flagged {op : Op} {tp : CType} {l r : Node} (inner : op ≠ .OSYM) (nconst : Bool) :
    eval M syms ((node op tp l r).flagged nconst) = eval M syms (node op tp l r) := by
  funext s
  cases op
  case OSYM => exact (inner rfl).elim
  all_goals rfl

theorem eval_size (M : Machine σ) (syms : Symbols) (tp : CType) (small : tp.size < 2 ^ 64) (s : σ) :
    eval M (sizeofnode syms tp).2 (sizeofnode syms tp).1 s = some ((tp.size : Int), s) := by
  have get : (sizeofnode syms tp).2.get syms.next = ⟨sizettype, false, BitVec.ofNat 64 tp.size⟩ := by
    simp only [sizeofnode, Symbols.newsym, if_true]
  have bits : ((BitVec.ofNat 64 tp.size).toNat : Int) = tp.size := by
    rw [BitVec.toNat_ofNat, Nat.mod_eq_of_lt small]
  show some (inType sizettype (constantValue M sizettype ((sizeofnode syms tp).2.get syms.next).u), s) = _
  rw [get]
  have value : constantValue M sizettype (BitVec.ofNat 64 tp.size) = tp.size := bits
  have range : (tp.size : Int) % 2 ^ 64 = tp.size := by
    omega
  rw [value]
  show some ((tp.size : Int) % 2 ^ 64, s) = _
  rw [range]

end

/-! The index. -/

section
variable {pointees : Pointees} {fp : Floats} {syms : Symbols} {equiv : CType → CType → Bool} {σ : Type} {M : Machine σ}
  {p i : Node} {op : Op} {s : σ}

/-- The index as `parithmetic` scales it. -/
def scaled (fp : Floats) (syms : Symbols) (equiv : CType → CType → Bool) (tp : CType) (rp size : Node) : Node :=
  convert fp syms equiv
    (node .OMUL sizettype (convert fp syms equiv (promote fp syms equiv rp) sizettype false) size) tp true

theorem Integer.other (integer : Integer i.type) : i.type.op ≠ .PTR := by
  rcases integer.scalars.op with op | op <;> rw [op] <;> decide

theorem parithmetic_index (is : ObjectPointer pointees p.type) (integer : Integer i.type) :
    parithmetic fp syms equiv pointees op p i =
      .ok (node op p.type p (scaled fp (sizeofnode syms (pointees.type p.type)).2 equiv p.type i
        (sizeofnode syms (pointees.type p.type)).1), (sizeofnode syms (pointees.type p.type)).2) := by
  simp [parithmetic, exchange, is.op, is.complete, integer.other, integer.scalars.tinteger, scaled]

/-- The operands are exchanged. -/
theorem parithmetic_exchange (is : ObjectPointer pointees p.type) (integer : Integer i.type) :
    parithmetic fp syms equiv pointees op i p = parithmetic fp syms equiv pointees op p i := by
  simp [parithmetic, exchange, is.op, integer.other]

/-- The index as a `size_t`: the same number modulo `2 ^ 64`. -/
theorem eval_narrowed (fp : Floats) (equiv : CType → CType → Bool) (integer : Integer i.type) {v : Int} {s' : σ}
    (value : eval M syms i s = some (v, s')) :
    ∃ w, eval M syms (convert fp syms equiv (promote fp syms equiv i) sizettype false) s = some (w, s') ∧
      w % 2 ^ 64 = v % 2 ^ 64 := by
  obtain ⟨type, same⟩ := promote_spec fp syms equiv integer
  have old : Integer (promote fp syms equiv i).type := type ▸ integer.promoted.integer
  have new : Integer sizettype := .inl (by decide)
  rw [convert_integer new old]
  split
  case isTrue => exact ⟨v, (same M s).trans value, rfl⟩
  case isFalse =>
    refine ⟨v % 2 ^ 64, ?_, Int.emod_emod_of_dvd v (Int.dvd_refl _)⟩
    rw [eval_cast_integer new old (by decide), same, value]
    rfl

theorem eval_scaled (is : ObjectPointer pointees p.type) (integer : Integer i.type) {size : Node} {n v : Int} {s' : σ}
    (value : eval M syms i s = some (v, s')) (operand : size ≠ .nil) (scale : ∀ s, eval M syms size s = some (n, s)) :
    eval M syms (scaled fp syms equiv p.type i size) s = some (v * n % 2 ^ 64, s') := by
  obtain ⟨w, narrowed, congruent⟩ := eval_narrowed fp equiv integer value
  have unequal : eqtype p.type sizettype = false := by
    have other : p.type ≠ sizettype := by
      intro same
      have op := is.op
      rw [same] at op
      cases op
    have ops : p.type.op ≠ sizettype.op := by
      rw [is.op]
      decide
    simp [eqtype, other, ops]
  have cast (product : Node) (type : product.type = sizettype) :
      convert fp syms equiv product p.type true = node .OCAST p.type product .nil := by
    have int : sizettype.op = .INT := rfl
    rw [convert, type, unequal]
    simp [is.op, int]
  have product : eval M syms
      (node .OMUL sizettype (convert fp syms equiv (promote fp syms equiv i) sizettype false) size) s =
        some (w * n % 2 ^ 64, s') := by
    apply (eval_binary_some (by decide) operand).mpr
    refine ⟨w, s', n, w * n % 2 ^ 64, narrowed, scale s', ?_, ?_⟩
    · show (sums M.wraps ⟨64, false⟩).mul w n = _
      cases M.wraps <;> rfl
    · exact (Int.emod_emod_of_dvd (w * n) (Int.dvd_refl _)).symm
  have equal : w * n % 2 ^ 64 = v * n % 2 ^ 64 := by
    rw [Int.mul_emod, congruent, ← Int.mul_emod]
  rw [scaled, cast _ rfl, eval_cast, product, Option.map_some]
  dsimp only
  rw [is.castValue M rfl, is.inType, equal, Int.emod_emod_of_dvd _ (Int.dvd_refl _),
    Int.emod_emod_of_dvd _ (Int.dvd_refl _)]

end

/-! The expressions with an index. -/

section
variable {pointees : Pointees} {fp : Floats} {syms : Symbols} {equiv : CType → CType → Bool} {σ : Type} {M : Machine σ}
  {p i : Node} {op : Op}

/-- The tree for an operator on a pointer and an index. -/
def indexed (fp : Floats) (syms : Symbols) (equiv : CType → CType → Bool) (pointees : Pointees) (op : Op)
    (p i : Node) : Node :=
  node op p.type p (scaled fp (sizeofnode syms (pointees.type p.type)).2 equiv p.type i
    (sizeofnode syms (pointees.type p.type)).1)

/-- The operators that `arithmetic` has for pointers. -/
def pointerOperators : List Op := [.OADD, .OSUB, .OA_ADD, .OA_SUB, .OINC, .ODEC]

/-- `arithmetic` leaves its operands to `parithmetic` when one of them is a pointer. -/
theorem arithmetic_pointer {lp rp : Node} (arith : (lp.type.tarith && rp.type.tarith) = false)
    (pointer_ : (lp.type.op = .PTR || rp.type.op = .PTR) = true) (known : op ∈ pointerOperators) :
    arithmetic fp syms equiv pointees op lp rp =
      (parithmetic fp syms equiv pointees op lp rp).map fun out => (out.1.flagged (lp.nconst && rp.nconst), out.2) := by
  unfold arithmetic
  rw [arith, if_neg Bool.false_ne_true, if_pos pointer_]
  simp only [pointerOperators, List.mem_cons, List.not_mem_nil, or_false] at known
  rcases known with rfl | rfl | rfl | rfl | rfl | rfl
  all_goals
    cases parithmetic fp syms equiv pointees _ lp rp <;> rfl

theorem arithmetic_index (is : ObjectPointer pointees p.type) (integer : Integer i.type)
    (known : op ∈ pointerOperators) :
    arithmetic fp syms equiv pointees op p i =
      .ok ((indexed fp syms equiv pointees op p i).flagged (p.nconst && i.nconst),
        (sizeofnode syms (pointees.type p.type)).2) := by
  have arith : (p.type.tarith && i.type.tarith) = false := by
    rw [is.tarith, Bool.false_and]
  rw [arithmetic_pointer arith (by simp [is.op]) known, parithmetic_index is integer]
  rfl

theorem arithmetic_exchange (is : ObjectPointer pointees p.type) (integer : Integer i.type)
    (known : op ∈ pointerOperators) :
    arithmetic fp syms equiv pointees op i p = arithmetic fp syms equiv pointees op p i := by
  have arith : (i.type.tarith && p.type.tarith) = false := by
    rw [is.tarith, Bool.and_false]
  have arith' : (p.type.tarith && i.type.tarith) = false := by
    rw [is.tarith, Bool.false_and]
  rw [arithmetic_pointer arith (by simp [is.op]) known, arithmetic_pointer arith' (by simp [is.op]) known,
    parithmetic_exchange is integer, Bool.and_comm i.nconst]

/-- What the index is worth with the new symbol. -/
theorem eval_index (fp : Floats) (equiv : CType → CType → Bool) (is : IsPointer pointees syms p) (index : IsIndex syms i)
    {s s' : σ} {v : Int} (value : eval M syms i s = some (v, s')) :
    eval M (sizeofnode syms (pointees.type p.type)).2
        (scaled fp (sizeofnode syms (pointees.type p.type)).2 equiv p.type i (sizeofnode syms (pointees.type p.type)).1) s =
      some (v * (pointees.type p.type).size % 2 ^ 64, s') := by
  apply eval_scaled is.1 index.1
  · rw [sizeofnode, (eval_newsym index.2).1, value]
  · rintro ⟨⟩
  · exact eval_size _ _ _ is.1.small

theorem scaled_ne_nil (is : ObjectPointer pointees p.type) (size : Node) : scaled fp syms equiv p.type i size ≠ .nil := by
  rw [scaled, convert]
  split
  case isTrue => rintro ⟨⟩
  case isFalse =>
    have int : sizettype.op = .INT := rfl
    rw [node_type, int, is.op, if_pos]
    · rintro ⟨⟩
    · rfl

/-- The sum of an address and an index. -/
theorem eval_sum (is : IsPointer pointees syms p) (index : IsIndex syms i) {s s1 s2 : σ} {a v : Int}
    (first : eval M syms p s = some (a, s1)) (second : eval M syms i s1 = some (v, s2)) :
    eval M (sizeofnode syms (pointees.type p.type)).2 (indexed fp syms equiv pointees .OADD p i) s =
      some (element pointees p.type a v, s2) := by
  apply (eval_binary_some (by decide) (scaled_ne_nil is.1 _)).mpr
  refine ⟨a, s1, _, _, ?_, eval_index fp equiv is index second, is.1.binary_add M a _, ?_⟩
  · rw [sizeofnode, (eval_newsym is.2).1, first]
  · rw [is.1.inType, element, pointer_emod, Int.add_emod_emod, Int.emod_emod_of_dvd _ (Int.dvd_refl _)]

theorem eval_difference (is : IsPointer pointees syms p) (index : IsIndex syms i) {s s1 s2 : σ} {a v : Int}
    (first : eval M syms p s = some (a, s1)) (second : eval M syms i s1 = some (v, s2)) :
    eval M (sizeofnode syms (pointees.type p.type)).2 (indexed fp syms equiv pointees .OSUB p i) s =
      some (element pointees p.type a (-v), s2) := by
  apply (eval_binary_some (by decide) (scaled_ne_nil is.1 _)).mpr
  refine ⟨a, s1, _, _, ?_, eval_index fp equiv is index second, is.1.binary_sub M a _, ?_⟩
  · rw [sizeofnode, (eval_newsym is.2).1, first]
  · rw [is.1.inType, element, pointer_emod, Int.sub_emod_emod, Int.emod_emod_of_dvd _ (Int.dvd_refl _), Int.neg_mul,
      ← Int.sub_eq_add_neg]

/-- An index is added to the pointer in an lvalue, whose old value `p++` has. -/
theorem eval_update (is : IsPointer pointees syms p) (index : IsIndex syms i) {s s1 s2 : σ} {l v : Int}
    (known : op = .OA_ADD ∨ op = .OINC) (place : lval M syms p s = some (l, s1))
    (value : eval M syms i s1 = some (v, s2)) :
    eval M (sizeofnode syms (pointees.type p.type)).2 (indexed fp syms equiv pointees op p i) s =
      some (if op = .OINC then pointer (M.load p.type l s2) else element pointees p.type (pointer (M.load p.type l s2)) v,
        M.store p.type l (element pointees p.type (pointer (M.load p.type l s2)) v) s2) := by
  have left : lval M (sizeofnode syms (pointees.type p.type)).2 p s = some (l, s1) := by
    rw [sizeofnode, (eval_newsym is.2).2, place]
  have right := eval_index fp equiv is index value
  have old : inType p.type (M.load p.type l s2) = pointer (M.load p.type l s2) := is.1.inType _
  have new : inType p.type ((pointer (M.load p.type l s2) + v * (pointees.type p.type).size % 2 ^ 64) % 2 ^ 64) =
      element pointees p.type (pointer (M.load p.type l s2)) v := by
    rw [is.1.inType, element, pointer_emod (_ + _), Int.add_emod_emod, Int.emod_emod_of_dvd _ (Int.dvd_refl _)]
  rw [indexed]
  rcases known with rfl | rfl
  all_goals
    simp only [node, eval, left, right, old, assignop, Option.bind_eq_bind, Option.bind_some, is.1.binary_add, new,
      Option.pure_def, reduceCtorEq, or_self, or_false, if_false, if_true]

end

/-! The number of elements. -/

section
variable {pointees : Pointees} {fp : Floats} {syms : Symbols} {equiv : CType → CType → Bool} {σ : Type} {M : Machine σ}
  {p q : Node} {s : σ} {a b k : Int}

/-- The tree for the difference of two pointers. -/
def apart (fp : Floats) (syms : Symbols) (equiv : CType → CType → Bool) (pointees : Pointees) (p q : Node) : Node :=
  node .ODIV inttype
    (node .OSUB pdifftype p (convert fp (sizeofnode syms (pointees.type p.type)).2 equiv q p.type false))
    (sizeofnode syms (pointees.type p.type)).1

/-- The second pointer keeps its address when it gets the type of the first. -/
theorem convert_pointer (fp : Floats) (syms : Symbols) (left : ObjectPointer pointees p.type)
    (right : ObjectPointer pointees q.type) (same : q.type = p.type ∨ equiv p.type q.type = true) :
    convert fp syms equiv q p.type false ≠ .nil ∧
      ∀ {σ : Type} (M : Machine σ), eval M syms (convert fp syms equiv q p.type false) = eval M syms q := by
  have there : q ≠ .nil := by
    rintro rfl
    have op := right.op
    cases op
  rw [convert]
  split
  case isTrue => exact ⟨there, fun _ => rfl⟩
  case isFalse other =>
    have equivalent : equiv p.type q.type = true := by
      apply same.resolve_left
      intro equal
      rw [equal] at other
      exact other (eqtype_self _)
    rw [right.op, left.op, if_pos (by simp [equivalent])]
    refine ⟨node_ne_nil _ _ _ _, fun M => ?_⟩
    funext s
    rw [eval_cast]
    cases value : eval M syms q s with
    | none => rfl
    | some out =>
      have range := eval_inType q value
      rw [right.inType] at range
      rw [Option.map_some, left.castValue M right.integral, left.inType, range, range]

theorem arithmetic_apart (fp : Floats) (syms : Symbols) (left : ObjectPointer pointees p.type)
    (right : ObjectPointer pointees q.type) (same : q.type = p.type ∨ equiv p.type q.type = true) :
    arithmetic fp syms equiv pointees .OSUB p q =
      .ok ((apart fp syms equiv pointees p q).flagged (p.nconst && q.nconst),
        (sizeofnode syms (pointees.type p.type)).2) := by
  have arith : (p.type.tarith && q.type.tarith) = false := by
    rw [left.tarith, Bool.false_and]
  have there := (convert_pointer fp (sizeofnode syms (pointees.type p.type)).2 left right same).1
  rw [arithmetic_pointer arith (by simp [left.op]) (by decide)]
  simp only [parithmetic, exchange, left.op, right.op, left.complete, right.complete, ne_eq, not_true_eq_false, if_false,
    Bool.not_true, Bool.and_false, Bool.or_self, Bool.false_eq_true, decide_true, Bool.and_self, if_true, apart]
  rfl

theorem pdifftype_integer : Integer pdifftype := .inl (by decide)

/-- The difference of two addresses in `ptrdiff_t`. -/
theorem difference_fits (fits : (ints pdifftype).Fits (a - b)) :
    ∃ x, binary M pdifftype .OSUB a b = some x ∧ inType pdifftype x = a - b := by
  cases wraps : M.wraps with
  | true =>
    refine ⟨(a - b) % 2 ^ 64, ?_, ?_⟩
    · show (sums M.wraps (ints pdifftype)).sub a b = _
      rw [wraps]
      rfl
    · show (ints pdifftype).convert ((a - b) % 2 ^ 64) = a - b
      have same : (ints pdifftype).convert ((a - b) % 2 ^ 64) = (ints pdifftype).convert (a - b) :=
        IntType.convert_congr (Int.emod_emod_of_dvd (a - b) (Int.dvd_refl _))
      rw [same, IntType.convert_fits (by decide) fits]
  | false =>
    refine ⟨a - b, ?_, IntType.convert_fits (by decide) fits⟩
    show (sums M.wraps (ints pdifftype)).sub a b = _
    rw [wraps]
    exact IntType.result_fits rfl fits

/-- Where there is a difference, it is the one of the addresses modulo `2 ^ 64`. -/
theorem difference_some {x : Int} (value : binary M pdifftype .OSUB a b = some x) :
    (ints pdifftype).Fits (inType pdifftype x) ∧ inType pdifftype x % 2 ^ 64 = (a - b) % 2 ^ 64 := by
  refine ⟨IntType.fits_convert (by decide) x, ?_⟩
  have congruent : x % 2 ^ 64 = (a - b) % 2 ^ 64 := by
    have computed : (sums M.wraps (ints pdifftype)).sub a b = some x := value
    cases wraps : M.wraps with
    | true =>
      rw [wraps] at computed
      cases computed
      exact Int.emod_emod_of_dvd (a - b) (Int.dvd_refl _)
    | false =>
      rw [wraps] at computed
      have result : (if (ints pdifftype).Fits (a - b) then some (a - b) else none) = some x := computed
      split at result
      · cases result
        rfl
      · cases result
  exact (IntType.convert_emod (ints pdifftype) x).trans congruent

/-- A quotient is one of an `int`. -/
theorem quotient_some {d n x : Int} (value : binary M inttype .ODIV d n = some x) :
    n ≠ 0 ∧ x = d.tdiv n ∧ (ints inttype).Fits x := by
  have computed : (if n = 0 then none else (ints inttype).result (d.tdiv n)) = some x := value
  split at computed
  case isTrue => cases computed
  case isFalse nonzero =>
    have fits := IntType.fits_result computed
    have result : (if (ints inttype).Fits (d.tdiv n) then some (d.tdiv n) else none) = some x := computed
    split at result
    · cases result
      exact ⟨nonzero, rfl, fits⟩
    · cases result

/-- A quotient of the wrong sign is not the number of elements. -/
theorem distance_fits {d n : Int} (fits : (ints pdifftype).Fits d) (congruent : d % 2 ^ 64 = (a - b) % 2 ^ 64)
    (left : 0 ≤ a ∧ a < 2 ^ 64) (right : 0 ≤ b ∧ b < 2 ^ 64) (positive : 0 < n) (exact_ : a - b = d.tdiv n * n) :
    (ints pdifftype).Fits (a - b) := by
  have range := (IntType.fits_signed rfl).mp fits
  rw [IntType.fits_signed rfl]
  change -2 ^ 63 ≤ d ∧ d < 2 ^ 63 at range
  show -2 ^ 63 ≤ a - b ∧ a - b < 2 ^ 63
  rcases Int.le_total 0 d with nonneg | nonpos
  · have quotient := Int.mul_nonneg (Int.tdiv_nonneg nonneg (Int.le_of_lt positive)) (Int.le_of_lt positive)
    omega
  · have quotient := Int.mul_nonneg (Int.tdiv_nonneg (Int.neg_nonneg_of_nonpos nonpos) (Int.le_of_lt positive))
      (Int.le_of_lt positive)
    rw [Int.neg_tdiv, Int.neg_mul] at quotient
    omega

/-- When the tree for the difference is the number of elements. -/
theorem eval_apart (left : IsPointer pointees syms p) (right : IsPointer pointees syms q)
    (same : q.type = p.type ∨ equiv p.type q.type = true) {s1 s2 : σ} (first : eval M syms p s = some (a, s1))
    (second : eval M syms q s1 = some (b, s2)) (between : Between pointees p.type a b k) :
    eval M (sizeofnode syms (pointees.type p.type)).2 (apart fp syms equiv pointees p q) s = some (k, s2) ↔
      (pointees.type p.type).size ≠ 0 ∧ (ints pdifftype).Fits (a - b) ∧ (ints inttype).Fits k := by
  obtain ⟨there, converted_⟩ :=
    convert_pointer fp (sizeofnode syms (pointees.type p.type)).2 left.1 right.1 same
  have first' : eval M (sizeofnode syms (pointees.type p.type)).2 p s = some (a, s1) := by
    rw [sizeofnode, (eval_newsym left.2).1, first]
  have second' : eval M (sizeofnode syms (pointees.type p.type)).2
      (convert fp (sizeofnode syms (pointees.type p.type)).2 equiv q p.type false) s1 = some (b, s2) := by
    rw [converted_, sizeofnode, (eval_newsym right.2).1, second]
  have scale := eval_size M syms (pointees.type p.type) left.1.small
  have operand : (sizeofnode syms (pointees.type p.type)).1 ≠ .nil := by
    rintro ⟨⟩
  constructor
  · intro value
    have int : Integer (apart fp syms equiv pointees p q).type := .inl (by decide : inttype ∈ integerTypes)
    have fits : (ints (apart fp syms equiv pointees p q).type).Fits k := eval_fits int value
    obtain ⟨d, s', n, x, difference, size, quotient, result⟩ := (eval_binary_some (by decide) operand).mp value
    obtain ⟨a', s'', b', y, first'', second'', difference', rfl⟩ :=
      (eval_binary_some (by decide) there).mp difference
    cases first'.symm.trans first''
    cases second'.symm.trans second''
    cases (scale _).symm.trans size
    obtain ⟨nonzero, rfl, inside⟩ := quotient_some quotient
    obtain ⟨range, congruent⟩ := difference_some difference'
    have exact_ : k = (inType pdifftype y).tdiv (pointees.type p.type).size :=
      result.trans (IntType.convert_fits (by decide) inside)
    have positive : (0 : Int) < (pointees.type p.type).size := by
      omega
    refine ⟨by omega, ?_, fits⟩
    apply distance_fits range congruent (left.1.address first) (right.1.address second) positive
    rw [← exact_]
    exact between.1
  · rintro ⟨nonzero, near, fits⟩
    obtain ⟨x, difference, value⟩ := difference_fits (M := M) near
    apply (eval_binary_some (by decide) operand).mpr
    refine ⟨a - b, s2, (pointees.type p.type).size, k, ?_, scale s2, ?_, ?_⟩
    · apply (eval_binary_some (by decide) there).mpr
      exact ⟨a, s1, b, x, first', second', difference, value.symm⟩
    · show (ints inttype).div (a - b) (pointees.type p.type).size = some k
      have quotient : (a - b).tdiv (pointees.type p.type).size = k := by
        rw [between.1, Int.mul_tdiv_cancel k (by omega)]
      rw [IntType.div, if_neg (by omega), quotient, IntType.result_fits rfl fits]
    · exact (IntType.convert_fits (by decide) fits).symm

end

/-! Every expression with pointers. -/

section
variable {pointees : Pointees} {fp : Floats} {syms : Symbols} {equiv : CType → CType → Bool} {σ : Type} {M : Machine σ}
  {one : Nat}

theorem Use.add_right {p i : Node} (one : Nat) (is : IsPointer pointees syms p) (index : IsIndex syms i) :
    (Use.add p i).Right pointees equiv syms M fp one := by
  refine ⟨_, _, arithmetic_index is.1 index.1 (by decide), fun s s1 s2 a v first second => ?_⟩
  rw [indexed, eval_flagged (by decide)]
  exact eval_sum is index first second

theorem Use.addleft_right {p i : Node} (is : IsPointer pointees syms p) (index : IsIndex syms i) :
    (Use.addleft i p).Right pointees equiv syms M fp one := by
  rw [Use.Right, arithmetic_exchange is.1 index.1 (by decide)]
  exact Use.add_right one is index

theorem Use.sub_right {p i : Node} (is : IsPointer pointees syms p) (index : IsIndex syms i) :
    (Use.sub p i).Right pointees equiv syms M fp one := by
  refine ⟨_, _, arithmetic_index is.1 index.1 (by decide), fun s s1 s2 a v first second => ?_⟩
  rw [indexed, eval_flagged (by decide)]
  exact eval_difference is index first second

theorem Use.assignadd_right {p i : Node} (is : IsPointer pointees syms p) (index : IsIndex syms i) :
    (Use.assignadd p i).Right pointees equiv syms M fp one := by
  refine ⟨_, _, arithmetic_index is.1 index.1 (by decide), fun s s1 s2 l v place value => ?_⟩
  rw [indexed, eval_flagged (by decide)]
  exact eval_update is index (.inl rfl) place value

theorem Use.increment_right {p : Node} (unit : (syms.get one).u = 1) (fresh : one ≠ syms.next)
    (is : IsPointer pointees syms p) : (Use.increment p).Right pointees equiv syms M fp one := by
  have int : Integer inttype := .inl (by decide)
  have index : IsIndex syms (constnode one inttype) := by
    refine ⟨int, fun member => ?_⟩
    exact fresh (List.mem_singleton.mp member).symm
  have value (s : σ) : eval M syms (constnode one inttype) s = some (1, s) := by
    show some (inType inttype (value inttype (syms.get one).u), s) = _
    rw [unit]
    rfl
  have built : incdec fp syms equiv pointees one p .OINC =
      arithmetic fp syms equiv pointees .OINC p (constnode one inttype) := by
    simp [incdec, is.1.defined, is.1.op, is.1.complete]
  rw [Use.Right, built]
  refine ⟨_, _, arithmetic_index is.1 int (by decide), fun s s1 l place => ?_⟩
  rw [indexed, eval_flagged (by decide)]
  exact eval_update is index (.inr rfl) place (value s1)

theorem Use.distance_right {p q : Node} (left : IsPointer pointees syms p) (right : IsPointer pointees syms q)
    (same : q.type = p.type ∨ equiv p.type q.type = true) :
    (Use.distance p q).Right pointees equiv syms M fp one ↔ (Use.distance p q).Safe pointees syms M := by
  have built := arithmetic_apart fp syms left.1 right.1 same
  constructor
  · rintro ⟨tree, treesyms, result, values⟩ s s1 s2 a b k first second between
    cases built.symm.trans result
    have value := values s s1 s2 a b k first second between
    rw [apart, eval_flagged (by decide)] at value
    exact (eval_apart left right same first second between).mp value
  · intro safe
    refine ⟨_, _, built, fun s s1 s2 a b k first second between => ?_⟩
    rw [apart, eval_flagged (by decide)]
    exact (eval_apart left right same first second between).mpr (safe s s1 s2 a b k first second between)

/-- A number minus a pointer is taken for the pointer minus the number. -/
theorem Use.subleft_wrong {p i : Node} (is : IsPointer pointees syms p) (index : IsIndex syms i) :
    ¬(Use.subleft i p).Right pointees equiv syms M fp one := by
  rintro ⟨text, rejected⟩
  rw [arithmetic_exchange is.1 index.1 (by decide), arithmetic_index is.1 index.1 (by decide)] at rejected
  cases rejected

/-- ObjectPointer arithmetic is right but for differences beyond an `int` and for pointers that are subtracted
from numbers. -/
theorem arithmetic_pointers (M : Machine σ) (fp : Floats) (equiv : CType → CType → Bool) (pointees : Pointees)
    (syms : Symbols) (one : Nat) (unit : (syms.get one).u = 1) (fresh : one ≠ syms.next) (u : Use)
    (typed : u.Typed pointees equiv syms) :
    u.Right pointees equiv syms M fp one ↔ u.Safe pointees syms M := by
  cases u with
  | add p i => exact ⟨fun _ => trivial, fun _ => Use.add_right one typed.1 typed.2⟩
  | addleft i p => exact ⟨fun _ => trivial, fun _ => Use.addleft_right typed.1 typed.2⟩
  | sub p i => exact ⟨fun _ => trivial, fun _ => Use.sub_right typed.1 typed.2⟩
  | assignadd p i => exact ⟨fun _ => trivial, fun _ => Use.assignadd_right typed.1 typed.2⟩
  | increment p => exact ⟨fun _ => trivial, fun _ => Use.increment_right unit fresh typed⟩
  | distance p q => exact Use.distance_right typed.1 typed.2.1 typed.2.2
  | subleft i p => exact ⟨fun right => Use.subleft_wrong typed.1 typed.2 right, fun safe => safe.elim⟩

end

/-! Pointers to characters. -/

def pchartype : CType := ⟨.PTR, 'P', 1, 8, 0, false, false, false, false, false⟩

def characters : Pointees := ⟨fun _ => chartype, fun _ => true⟩

/-- The symbols with the constant 1. -/
def unity : Symbols := ⟨1, fun _ => ⟨inttype, true, 1⟩⟩

theorem pchartype_pointer : ObjectPointer characters pchartype := ⟨rfl, rfl, rfl, rfl, rfl, rfl, rfl, by decide⟩

theorem varnode_pointer : IsPointer characters unity (varnode 0 pchartype) :=
  ⟨pchartype_pointer, List.not_mem_nil⟩

theorem constnode_pointer : IsPointer characters unity (constnode 0 pchartype) :=
  ⟨pchartype_pointer, by decide⟩

theorem constnode_index : IsIndex unity (constnode 0 inttype) :=
  ⟨.inl (by decide : inttype ∈ integerTypes), by decide⟩

theorem arithmetic_pointers_add : (Use.add (varnode 0 pchartype) (constnode 0 inttype)).Right characters
    (fun _ _ => false) unity oneVariable noFloats 0 := by
  have typed : (Use.add (varnode 0 pchartype) (constnode 0 inttype)).Typed characters (fun _ _ => false) unity :=
    ⟨varnode_pointer, constnode_index⟩
  exact (arithmetic_pointers oneVariable noFloats _ characters unity 0 rfl (by decide) _ typed).mpr trivial

/-- `1 - p` is accepted, and the difference of the addresses `2 ^ 31 + 1` and 1 has no value. -/
theorem pointers_apart :
    ¬(Use.subleft (constnode 0 inttype) (varnode 0 pchartype)).Right characters (fun _ _ => false) unity oneVariable
        noFloats 0 ∧
      ¬(Use.distance (varnode 0 pchartype) (constnode 0 pchartype)).Right characters (fun _ _ => false) unity oneVariable
        noFloats 0 := by
  refine ⟨Use.subleft_wrong varnode_pointer constnode_index, fun right => ?_⟩
  have safe := (Use.distance_right varnode_pointer constnode_pointer (.inl rfl)).mp right
  have between : Between characters pchartype (2 ^ 31 + 1) 1 (2 ^ 31) := by
    refine ⟨rfl, ?_⟩
    decide
  have near := safe (2 ^ 31 + 1) (2 ^ 31 + 1) (2 ^ 31 + 1) (2 ^ 31 + 1) 1 (2 ^ 31) rfl rfl between
  revert near
  decide

end Scc.Cc1.Fold
