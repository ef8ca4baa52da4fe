import Scc.Cc2.Qbe.Inst
import Scc.Arithmetic.Integer

set_option linter.all false

/-! Casts between integers in the QBE target (`i2i_conv` and `cast` in `cgen.c`), and what the instructions
behind them take from the temporary. -/
namespace Scc.Cc2
open Arithmetic

def CType.Integer (tp : CType) : Prop := tp.intf = true ∧ tp.floatf = false ∧ tp.size ∈ [1, 2, 4, 8]

instance (tp : CType) : Decidable tp.Integer := inferInstanceAs (Decidable (_ ∧ _ ∧ _))

/-- The low bytes of a temporary as a number. -/
def low (bytes : Nat) (unsigned : Bool) (v : BitVec 64) : Int :=
  if unsigned then (v.setWidth (8 * bytes)).toNat else (v.setWidth (8 * bytes)).toInt

/-- The number in the low bytes that belong to the type. -/
def CType.value (tp : CType) (v : BitVec 64) : Int := low tp.size (!tp.signf) v

/-- The values of a type in C. -/
def CType.int (tp : CType) : IntType := ⟨8 * tp.size, tp.signf⟩

namespace Qbe

inductive Ext where
  | ASEXTBW | ASUEXTBW | ASEXTBL | ASUEXTBL | ASEXTHW | ASUEXTHW | ASEXTHL | ASUEXTHL | ASEXTWL | ASUEXTWL
  deriving DecidableEq, Repr

namespace Ext

/-- The operand of the instruction in `optbl`: its bytes, and whether they are unsigned. -/
def operand : Ext → Nat × Bool
  | .ASEXTBW | .ASEXTBL => (1, false)
  | .ASUEXTBW | .ASUEXTBL => (1, true)
  | .ASEXTHW | .ASEXTHL => (2, false)
  | .ASUEXTHW | .ASUEXTHL => (2, true)
  | .ASEXTWL => (4, false)
  | .ASUEXTWL => (4, true)

def letter : Ext → Class
  | .ASEXTBW | .ASUEXTBW | .ASEXTHW | .ASUEXTHW => .w
  | _ => .l

/-- What the instruction may leave: the upper half of a word is not defined. -/
def Gives (op : Ext) (v r : BitVec 64) : Prop :=
  match op.letter with
  | .w => word r = word (extended op.operand.1 op.operand.2 v)
  | _ => r = extended op.operand.1 op.operand.2 v

end Ext

def I1BYTES : Nat := 0
def I2BYTES : Nat := 1
def I4BYTES : Nat := 2
def I8BYTES : Nat := 3

/-- The program is aborted for other sizes. -/
def bytes2idx (nbytes : Nat) : Option Nat :=
  if nbytes = 1 then some I1BYTES
  else if nbytes = 2 then some I2BYTES
  else if nbytes = 4 then some I4BYTES
  else if nbytes = 8 then some I8BYTES
  else none

/-- The entries of `i2i_conv` that are not 0. -/
def i2i_conv (sidx didx : Nat) (sign : Bool) : Option Ext :=
  if sidx = I1BYTES then
    if didx = I4BYTES then some (if sign then .ASUEXTBW else .ASEXTBW)
    else if didx = I8BYTES then some (if sign then .ASUEXTBL else .ASEXTBL)
    else none
  else if sidx = I2BYTES then
    if didx = I4BYTES then some (if sign then .ASUEXTHW else .ASEXTHW)
    else if didx = I8BYTES then some (if sign then .ASUEXTHL else .ASEXTHL)
    else none
  else if sidx = I4BYTES then
    if didx = I8BYTES then some (if sign then .ASUEXTWL else .ASEXTWL) else none
  else none

/-- The instruction that `cast` emits between integers, if it emits one. The program ends where there
is no result. -/
def cast (td ts : CType) : Option (Option Ext) := do
  let sidx ← bytes2idx ts.size
  let didx ← bytes2idx td.size
  let didx := if didx < I4BYTES then I4BYTES else didx
  if didx ≤ sidx then return none
  return some (← i2i_conv sidx didx !ts.signf)

/-- The temporary of the node that `cast` returns. -/
def CastGives (td ts : CType) (v r : BitVec 64) : Prop :=
  match cast td ts with
  | none => False
  | some none => r = v
  | some (some op) => op.Gives v r

/-- The type of a cast: `booltype` is an unsigned byte to cc2. -/
inductive Dest where
  | int (tp : CType)
  | bool
  deriving DecidableEq

namespace Dest

def type : Dest → CType
  | .int tp => tp
  | .bool => uint8type

/-- The conversion of C. -/
def convert : Dest → Int → Int
  | .int tp, x => tp.int.convert x
  | .bool, x => if x = 0 then 0 else 1

end Dest

/-- What uses the result of a cast next. -/
inductive Use where
  /-- An operand of an arithmetic operator or a comparison, or an address. -/
  | operand
  /-- The right operand of a compound assignment to an object of less than 4 bytes. -/
  | compound
  | store
  | call
  /-- An operand of another type, to which the result is cast. -/
  | promoted (tp : CType)
  deriving DecidableEq

/-- `rhs` asserts that an operand has 4 or 8 bytes, and `assign` has the other ones. -/
def Use.Of (td : CType) : Use → Prop
  | .operand => 4 ≤ td.size
  | .compound => td.size < 4
  | .promoted tp => tp.Integer ∧ 4 ≤ tp.size
  | _ => True

instance (td : CType) : DecidablePred (Use.Of td)
  | .operand => inferInstanceAs (Decidable (4 ≤ td.size))
  | .compound => inferInstanceAs (Decidable (td.size < 4))
  | .promoted _ => inferInstanceAs (Decidable (_ ∧ _))
  | .store | .call => inferInstanceAs (Decidable True)

/-- The number that an instruction of a class takes. -/
def taken (letter : Class) (unsigned : Bool) (r : BitVec 64) : Int :=
  match letter, unsigned with
  | .w, false => (word r).toInt
  | .w, true => (word r).toNat
  | _, false => r.toInt
  | _, true => r.toNat

/-- The operator of a node with this type takes the number. -/
def Accepts (tp : CType) (r : BitVec 64) (n : Int) : Prop :=
  ∃ letter unsigned, opclass tp = some (letter, unsigned) ∧ taken letter unsigned r = n

/-- The use takes the number from the temporary: `assign` has `int32type` for the operator on narrow
operands; a store and the callee of a call (`form2local`) write the bytes of the type. -/
def Takes (td : CType) (r : BitVec 64) (n : Int) : Use → Prop
  | .operand => Accepts td r n
  | .compound => Accepts int32type r n
  | .store | .call => td.value r = n
  | .promoted tp => ∀ r', CastGives tp td r r' → Accepts tp r' (tp.int.convert n)

/-- The cast has a result, and whatever it leaves undefined, the next use takes the converted number. -/
def Converts (dest : Dest) (ts : CType) (v : BitVec 64) (use : Use) : Prop :=
  (∃ r, CastGives dest.type ts v r) ∧
    ∀ r, CastGives dest.type ts v r → Takes dest.type r (dest.convert (ts.value v)) use

/-- Nothing makes a truth value, and a narrow operand of a compound assignment keeps its word. -/
def Kept (dest : Dest) (x : Int) (use : Use) : Prop :=
  (dest = .bool → x = 0 ∨ x % 256 = 1) ∧ (use = .compound → dest.type.int.Fits (int32type.int.convert x))

section low
variable {tp : CType} {v r : BitVec 64}

theorem toInt_low {n : Nat} (narrow : n ≤ 64) : v.toInt % 2 ^ n = (v.toNat : Int) % 2 ^ n := by
  have divides : (2 : Int) ^ n ∣ 2 ^ 64 := by exact_mod_cast Nat.pow_dvd_pow 2 narrow
  rw [BitVec.toInt_eq_toNat_bmod, ← Int.emod_emod_of_dvd _ divides]
  conv_rhs => rw [← Int.emod_emod_of_dvd _ divides]
  exact_mod_cast congrArg (· % (2 : Int) ^ n) (Int.bmod_emod (x := v.toNat) (m := 2 ^ 64))

/-- The low bytes are what the conversion keeps. -/
theorem low_eq {bytes : Nat} (unsigned : Bool) (narrow : bytes ≤ 8) :
    low bytes unsigned v = (⟨8 * bytes, !unsigned⟩ : IntType).convert v.toInt := by
  have same := toInt_low (v := v) (n := 8 * bytes) (by omega)
  cases unsigned with
  | true =>
    simp only [low, if_true, IntType.convert, Bool.not_true, Bool.false_eq_true, if_false, same, BitVec.toNat_setWidth]
    push_cast
    rfl
  | false =>
    have signed : low bytes false v = (⟨8 * bytes, true⟩ : IntType).convert v.toNat := by
      simp [low, IntType.convert]
    rw [signed]
    exact (IntType.convert_congr same).symm

theorem value_eq (integer : tp.Integer) : tp.value v = tp.int.convert v.toInt := by
  have narrow : tp.size ≤ 8 := by
    have := integer.2.2
    simp only [List.mem_cons, List.not_mem_nil, or_false] at this
    omega
  rw [CType.value, low_eq _ narrow, Bool.not_not]
  rfl

end low

section casts
variable {td ts : CType} {dest : Dest} {use : Use} {v r : BitVec 64}

/-- An operand that has the bytes of the class stays; any other one is extended by its own type. -/
theorem cast_cases (destination : td.Integer) (source : ts.Integer) :
    max 4 td.size ≤ ts.size ∧ cast td ts = some none ∨
      ts.size < max 4 td.size ∧ ∃ op, cast td ts = some (some op) ∧ op.operand = (ts.size, !ts.signf) ∧ op.letter = if td.size = 8 then .l else .w := by
  obtain ⟨-, -, wide⟩ := destination
  obtain ⟨-, -, narrow⟩ := source
  simp only [List.mem_cons, List.not_mem_nil, or_false] at wide narrow
  rcases narrow with narrow | narrow | narrow | narrow
  all_goals
    rcases wide with wide | wide | wide | wide
    all_goals
      cases sign : ts.signf
      all_goals
        simp [cast, bytes2idx, i2i_conv, wide, narrow, sign, I1BYTES, I2BYTES, I4BYTES, I8BYTES, Ext.operand, Ext.letter]

theorem extended_low {bytes : Nat} (unsigned : Bool) (narrow : bytes ≤ 8) :
    (extended bytes unsigned v).toInt % 2 ^ 64 = low bytes unsigned v % 2 ^ 64 := by
  cases unsigned with
  | true =>
    have whole := toInt_low (v := (v.setWidth (8 * bytes)).setWidth 64) (n := 64) (Nat.le_refl 64)
    simp only [extended, low, if_true]
    rw [whole, BitVec.toNat_setWidth_of_le (by omega)]
  | false =>
    simp only [extended, low, Bool.false_eq_true, if_false]
    rw [BitVec.toInt_signExtend_of_le (by omega)]

theorem word_toInt (v : BitVec 64) : (word v).toInt = (⟨32, true⟩ : IntType).convert v.toInt :=
  low_eq false (by decide : 4 ≤ 8)

theorem congr_low {a b : Int} {k n : Nat} (le : k ≤ n) (same : a % 2 ^ n = b % 2 ^ n) : a % 2 ^ k = b % 2 ^ k := by
  have divides : (2 : Int) ^ k ∣ 2 ^ n := by exact_mod_cast Nat.pow_dvd_pow 2 le
  rw [← Int.emod_emod_of_dvd a divides, same, Int.emod_emod_of_dvd b divides]

/-- The temporary holds the value up to the class that the type has. -/
theorem gives_value (destination : td.Integer) (source : ts.Integer) (gives : CastGives td ts v r) :
    r.toInt % 2 ^ (8 * max 4 td.size) = ts.value v % 2 ^ (8 * max 4 td.size) := by
  unfold CastGives at gives
  rcases cast_cases destination source with ⟨wide, unchanged⟩ | ⟨-, op, known, operand, letter⟩
  · rw [unchanged] at gives
    subst gives
    rw [value_eq source]
    exact congr_low (Nat.mul_le_mul_left 8 wide) (IntType.convert_emod ts.int r.toInt).symm
  · rw [known] at gives
    have narrow : ts.size ≤ 8 := by
      have := source.2.2
      simp only [List.mem_cons, List.not_mem_nil, or_false] at this
      omega
    have whole : (extended op.operand.1 op.operand.2 v).toInt % 2 ^ 64 = ts.value v % 2 ^ 64 := by
      rw [operand]
      exact extended_low _ narrow
    by_cases long : td.size = 8
    · rw [if_pos long] at letter
      simp only [Ext.Gives, letter] at gives
      rw [gives, long]
      exact whole
    · rw [if_neg long] at letter
      simp only [Ext.Gives, letter] at gives
      have size : max 4 td.size = 4 := by
        have := destination.2.2
        simp only [List.mem_cons, List.not_mem_nil, or_false] at this
        omega
      have words := congrArg BitVec.toInt gives
      rw [word_toInt, word_toInt, IntType.convert_inj] at words
      rw [size]
      exact words.trans (congr_low (k := 32) (by decide) whole)

theorem Ext.gives (op : Ext) (v : BitVec 64) : op.Gives v (extended op.operand.1 op.operand.2 v) := by
  unfold Ext.Gives
  split
  · rfl
  · rfl

theorem gives_some (destination : td.Integer) (source : ts.Integer) : ∃ r, CastGives td ts v r := by
  unfold CastGives
  rcases cast_cases destination source with ⟨-, unchanged⟩ | ⟨-, op, known, -, -⟩
  · exact ⟨v, by rw [unchanged]⟩
  · refine ⟨extended op.operand.1 op.operand.2 v, ?_⟩
    rw [known]
    exact op.gives v

/-- The extension as a function is one of the results. -/
theorem castint_gives (destination : td.Integer) (source : ts.Integer) : CastGives td ts v (castint td ts v) := by
  have size : (if td.size < 4 then 4 else td.size) = max 4 td.size := by
    split <;> omega
  unfold CastGives
  rcases cast_cases destination source with ⟨wide, unchanged⟩ | ⟨less, op, known, operand, -⟩
  · rw [unchanged, castint, size, if_pos wide]
  · have result := op.gives v
    rw [operand] at result
    rw [known, castint, size, if_neg (Nat.not_le.mpr less)]
    exact result

theorem low_whole (unsigned : Bool) : low 8 unsigned r = if unsigned then (r.toNat : Int) else r.toInt := by
  show (if unsigned then ((r.setWidth 64).toNat : Int) else (r.setWidth 64).toInt) = _
  rw [BitVec.setWidth_eq]

theorem operand_iff {n : Int} (integer : td.Integer) (wide : 4 ≤ td.size) : Accepts td r n ↔ td.value r = n := by
  obtain ⟨-, float, size⟩ := integer
  simp only [List.mem_cons, List.not_mem_nil, or_false] at size
  rcases size with size | size | size | size
  · omega
  · omega
  · cases sign : td.signf <;> simp [Accepts, opclass, float, size, sign, taken, CType.value, low, word]
  · cases sign : td.signf <;> simp [Accepts, opclass, float, size, sign, taken, CType.value, low_whole]

/-- The bytes of the type hold the converted value. -/
theorem value_gives (destination : td.Integer) (source : ts.Integer) (gives : CastGives td ts v r) :
    td.value r = td.int.convert (ts.value v) := by
  rw [value_eq destination]
  exact IntType.convert_congr (congr_low (Nat.mul_le_mul_left 8 (Nat.le_max_right 4 td.size))
    (gives_value destination source gives))

/-- The word holds the value before it is converted to less. -/
theorem word_gives (destination : td.Integer) (source : ts.Integer) (gives : CastGives td ts v r) :
    int32type.value r = int32type.int.convert (ts.value v) := by
  rw [value_eq (by decide)]
  exact IntType.convert_congr (congr_low (Nat.mul_le_mul_left 8 (Nat.le_max_left 4 td.size))
    (gives_value destination source gives))

/-- What a use takes of a temporary that holds the number in the bytes of its type. -/
theorem takes_value {n : Int} (destination : td.Integer) (next : use.Of td) (other : use ≠ .compound)
    (same : td.value r = n) : Takes td r n use := by
  cases use with
  | operand => exact (operand_iff destination next).mpr same
  | compound => exact absurd rfl other
  | store => exact same
  | call => exact same
  | promoted tp =>
    intro r' gives
    obtain ⟨integer, wide⟩ := next
    rw [operand_iff integer wide, value_gives integer destination gives, same]

theorem compound_iff {n : Int} : Takes td r n .compound ↔ int32type.value r = n :=
  operand_iff (by decide) (by decide)

/-- A narrow type keeps the word exactly where it has room for it. -/
theorem narrow_iff (td : CType) {x : Int} (narrow : td.size < 4) (some : 0 < td.size) :
    int32type.int.convert x = td.int.convert x ↔ td.int.Fits (int32type.int.convert x) := by
  have wide : 0 < td.int.width := by
    show 0 < 8 * td.size
    omega
  constructor
  · intro same
    rw [same]
    exact IntType.fits_convert wide x
  · intro fits
    rw [← IntType.convert_fits wide fits]
    refine IntType.convert_congr (congr_low (n := 32) ?_ (IntType.convert_emod int32type.int x))
    show 8 * td.size ≤ 32
    omega

theorem truth_iff {x : Int} : uint8type.int.convert x = Dest.bool.convert x ↔ x = 0 ∨ x % 256 = 1 := by
  show x % 256 = (if x = 0 then 0 else 1) ↔ _
  split <;> omega

theorem truth_word {x : Int} : int32type.int.convert x = Dest.bool.convert x ↔
    (x = 0 ∨ x % 256 = 1) ∧ uint8type.int.Fits (int32type.int.convert x) := by
  have low : int32type.int.convert x % 256 = x % 256 :=
    congr_low (k := 8) (n := 32) (by decide) (IntType.convert_emod int32type.int x)
  have zero : x = 0 → int32type.int.convert x = 0 := by rintro rfl; decide
  have fits : uint8type.int.Fits (int32type.int.convert x) ↔
      0 ≤ int32type.int.convert x ∧ int32type.int.convert x < 256 := IntType.fits_unsigned rfl
  rw [fits]
  show int32type.int.convert x = (if x = 0 then 0 else 1) ↔ _
  split
  case isTrue none =>
    have := zero none
    omega
  case isFalse => omega

theorem fits_byte {tp : CType} {n : Int} (wide : 4 ≤ tp.size) (least : 0 ≤ n) (most : n < 256) : tp.int.Fits n :=
  IntType.fits_low (n := 8) (by show 8 < 8 * tp.size; omega) least most

/-- The next use takes the value that C converts exactly where the destination is no truth value, or the
value is 0 or has a low byte of 1, and the right operand of a narrow compound assignment is not
changed by the cast. -/
theorem cast_converts (destination : dest.type.Integer) (source : ts.Integer) (next : use.Of dest.type) :
    Converts dest ts v use ↔ Kept dest (ts.value v) use := by
  have positive : 0 < dest.type.size := by
    have := destination.2.2
    simp only [List.mem_cons, List.not_mem_nil, or_false] at this
    omega
  have some := gives_some (v := v) destination source
  unfold Converts
  rw [and_iff_right some]
  obtain ⟨r₀, gives₀⟩ := some
  cases dest with
  | int td =>
    by_cases compound : use = .compound
    · subst compound
      have kept : Kept (.int td) (ts.value v) .compound ↔ td.int.Fits (int32type.int.convert (ts.value v)) :=
        ⟨fun kept => kept.2 rfl, fun fits => ⟨fun none => (nomatch none), fun _ => fits⟩⟩
      rw [kept, ← narrow_iff td next positive]
      constructor
      · intro all
        exact (word_gives destination source gives₀).symm.trans (compound_iff.mp (all r₀ gives₀))
      · intro same r gives
        exact compound_iff.mpr ((word_gives destination source gives).trans same)
    · refine iff_of_true (fun r gives => ?_) ⟨fun none => (nomatch none), fun same => absurd same compound⟩
      exact takes_value destination next compound (value_gives destination source gives)
  | bool =>
    have byte (r) (gives : CastGives Dest.bool.type ts v r) := value_gives destination source gives
    have word (r) (gives : CastGives Dest.bool.type ts v r) := word_gives destination source gives
    have truth := truth_iff (x := ts.value v)
    by_cases compound : use = .compound
    · subst compound
      have kept : Kept .bool (ts.value v) .compound ↔
          int32type.int.convert (ts.value v) = Dest.bool.convert (ts.value v) := by
        rw [truth_word]
        exact ⟨fun kept => ⟨kept.1 rfl, kept.2 rfl⟩, fun both => ⟨fun _ => both.1, fun _ => both.2⟩⟩
      rw [kept]
      exact ⟨fun all => (word r₀ gives₀).symm.trans (compound_iff.mp (all r₀ gives₀)),
        fun same r gives => compound_iff.mpr ((word r gives).trans same)⟩
    · have kept : Kept .bool (ts.value v) use ↔ uint8type.int.convert (ts.value v) = Dest.bool.convert (ts.value v) := by
        rw [truth]
        exact ⟨fun kept => kept.1 rfl, fun small => ⟨fun _ => small, fun same => absurd same compound⟩⟩
      rw [kept]
      refine ⟨fun all => ?_, fun same r gives => takes_value destination next compound ((byte r gives).trans same)⟩
      have now := all r₀ gives₀
      cases use with
      | operand => exact absurd (show 4 ≤ 1 from next) (by decide)
      | compound => exact absurd rfl compound
      | store => exact (byte r₀ gives₀).symm.trans now
      | call => exact (byte r₀ gives₀).symm.trans now
      | promoted tp =>
        obtain ⟨integer, wide⟩ := next
        obtain ⟨r', gives'⟩ := gives_some (v := r₀) integer destination
        have equal := (operand_iff integer wide).mp (now r' gives')
        rw [value_gives integer destination gives', show Dest.bool.type.value r₀ = _ from byte r₀ gives₀] at equal
        have small : 0 ≤ uint8type.int.convert (ts.value v) ∧ uint8type.int.convert (ts.value v) < 256 :=
          (IntType.fits_unsigned rfl).mp (IntType.fits_convert (by decide) _)
        have both : 0 ≤ Dest.bool.convert (ts.value v) ∧ Dest.bool.convert (ts.value v) < 256 := by
          show 0 ≤ (if ts.value v = 0 then 0 else 1) ∧ (if ts.value v = 0 then 0 else 1) < 256
          split <;> decide
        have room : 0 < tp.int.width := by
          show 0 < 8 * tp.size
          omega
        rwa [IntType.convert_fits room (fits_byte wide both.1 both.2),
          show IntType.convert tp.int (Dest.bool.type.int.convert (ts.value v)) = Dest.bool.type.int.convert (ts.value v) from
            IntType.convert_fits room (fits_byte wide small.1 small.2)] at equal

/-- 300 as an `unsigned char`, added to an `int`. -/
theorem cast_promoted : Converts (.int uint8type) int32type 300 (.promoted int32type) :=
  (cast_converts (by decide) (by decide) (by decide)).mpr ⟨fun none => (nomatch none), fun none => (nomatch none)⟩

/-- `_Bool b = 256;` -/
theorem truth_stored : ¬ ∀ dest ts v use, dest.type.Integer → ts.Integer → use.Of dest.type → Converts dest ts v use := by
  intro all
  obtain ⟨⟨r, gives⟩, takes⟩ := all .bool int32type 256 .store (by decide) (by decide) trivial
  obtain rfl : r = 256 := gives
  exact absurd (takes 256 rfl) (by decide : uint8type.value 256 ≠ Dest.bool.convert (int32type.value 256))

end casts

end Qbe

end Scc.Cc2
