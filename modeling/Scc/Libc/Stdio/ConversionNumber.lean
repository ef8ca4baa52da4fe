import Scc.Libc.Stdio.ConversionRuns

set_option linter.all false

/-! The number that `vfprintf` converts, and the text of it. -/
namespace Scc.Libc.Stdio.Printf
open Text Transition

/-! ## The argument -/

/-- The bits of `flags` at the conversion. -/
def flagWord (alternate signed : Bool) (m : Modifier) : Nat :=
  let flags := (if alternate then ALTFORM else 0) + m.flags
  if signed then flags else flags ||| UNSIGNED

/-- Each modifier sets a bit that the others leave. -/
theorem flagWord_has (alternate signed : Bool) (m : Modifier) :
    has (flagWord alternate signed m) ALTFORM = alternate ∧ has (flagWord alternate signed m) UNSIGNED = !signed ∧
      has (flagWord alternate signed m) CHAR = decide (m = .hh) ∧ has (flagWord alternate signed m) SHORT = decide (m = .h) ∧
      has (flagWord alternate signed m) LONG = decide (m = .l) ∧ has (flagWord alternate signed m) LLONG = decide (m = .ll) ∧
      has (flagWord alternate signed m) SIZET = decide (m = .z) ∧ has (flagWord alternate signed m) INTMAX = decide (m = .j) ∧
      has (flagWord alternate signed m) VOIDPTR = false := by
  cases m <;> cases alternate <;> cases signed <;> exact ⟨rfl, rfl, rfl, rfl, rfl, rfl, rfl, rfl, rfl⟩

/-- The number that `getnum` makes of an argument of 32 and one of 64 bits. -/
def taken (signed : Bool) (m : Modifier) (w : BitVec 64) : Int :=
  let low := (w.setWidth 32).toInt
  match m with
  | .hh => if signed ∧ low < 0 then low else low % 2 ^ 8
  | .h => if signed ∧ low < 0 then low else low % 2 ^ 16
  | .l => if signed then w.toInt else w.toNat
  | .ll => if signed then w.toInt else w.toNat
  | .j => if signed then w.toInt else w.toNat
  | .z => w.toNat
  | .t => if signed then low else low % 2 ^ 32
  | .none => if signed then low else low % 2 ^ 32

/-- A negative value sets the sign. -/
theorem split_number {signed : Bool} {v val : Int} {uval : Nat} (number : v = if signed ∧ val < 0 then val else (uval : Int)) :
    (if signed ∧ val < 0 then ((-val).toNat, true) else (uval, false)) = (v.natAbs, decide (v < 0)) := by
  by_cases negative : signed ∧ val < 0
  · rw [if_pos negative] at number ⊢
    have less : v < 0 := number ▸ negative.2
    rw [decide_eq_true less, Prod.mk.injEq]
    exact ⟨by omega, rfl⟩
  · rw [if_neg negative] at number ⊢
    have positive : ¬v < 0 := by omega
    rw [decide_eq_false positive, Prod.mk.injEq]
    exact ⟨by omega, rfl⟩

theorem getnum_taken (alternate signed : Bool) (m : Modifier) (w : BitVec 64) :
    getnum w (flagWord alternate signed m) = ((taken signed m w).natAbs, decide (taken signed m w < 0)) := by
  obtain ⟨-, unsigned, char, short, long, llong, sizet, intmax, voidptr⟩ := flagWord_has alternate signed m
  have least := (w.setWidth 32).le_toInt
  have most := (w.setWidth 32).toInt_lt
  have small : ∀ k : Int, 0 < k → (w.setWidth 32).toInt % k = ((w.setWidth 32).toInt % k).toNat := by
    intro k positive
    exact (Int.toNat_of_nonneg (Int.emod_nonneg _ (Int.ne_of_gt positive))).symm
  have half : (if signed then (w.setWidth 32).toInt else (w.setWidth 32).toInt % 2 ^ 32) =
      if signed ∧ (w.setWidth 32).toInt < 0 then (w.setWidth 32).toInt else (((w.setWidth 32).toInt % 2 ^ 32).toNat : Int) := by
    cases signed with
    | false => exact small _ (by decide)
    | true =>
      simp only [true_and, if_true]
      split <;> omega
  have whole : (if signed then w.toInt else (w.toNat : Int)) = if signed ∧ w.toInt < 0 then w.toInt else (w.toNat : Int) := by
    have value := BitVec.toInt_eq_toNat_cond w
    have inside := w.isLt
    cases signed with
    | false => rfl
    | true =>
      simp only [true_and, if_true]
      split at value <;> split <;> omega
  unfold getnum
  simp only [unsigned, Bool.not_not, voidptr, char, short, long, llong, sizet, intmax]
  cases m with
  | hh =>
    simp only [reduceCtorEq, decide_true, decide_false, Bool.false_eq_true, if_true, if_false]
    apply split_number
    rw [← small _ (by decide)]
    rfl
  | h =>
    simp only [reduceCtorEq, decide_true, decide_false, Bool.false_eq_true, if_true, if_false]
    apply split_number
    rw [← small _ (by decide)]
    rfl
  | z =>
    simp only [reduceCtorEq, decide_true, decide_false, Bool.false_eq_true, if_true, if_false]
    apply split_number
    rw [if_neg (fun both => absurd both.2 (Int.lt_irrefl 0))]
    rfl
  | t =>
    simp only [reduceCtorEq, decide_false, Bool.false_eq_true, if_false]
    exact split_number half
  | none =>
    simp only [reduceCtorEq, decide_false, Bool.false_eq_true, if_false]
    exact split_number half
  | _ =>
    simp only [reduceCtorEq, decide_true, decide_false, Bool.false_eq_true, if_true, if_false]
    exact split_number whole

/-- The value of a low half of a word that is in the range of so many bits, or from 0 on with the highest of them clear. -/
def Narrow (half : Int) (low : Int) : Prop := (low < 0 → -half ≤ low) ∧ (0 ≤ low → low % (2 * half) < half)

/-- What is passed has the value that the modifier and the letter ask for. -/
def Held (signed : Bool) (w : BitVec 64) : Modifier → Prop
  | .hh => signed → Narrow (2 ^ 7) (w.setWidth 32).toInt
  | .h => signed → Narrow (2 ^ 15) (w.setWidth 32).toInt
  | .z => signed → 0 ≤ w.toInt
  | .t => if signed then -2 ^ 31 ≤ w.toInt ∧ w.toInt < 2 ^ 31 else w.toNat < 2 ^ 32
  | _ => True

/-- The value of the low bits of a word, as far from that of the word as a multiple of their number of values. -/
theorem setWidth_value (w : BitVec 64) (bits : Nat) :
    ∃ q : Int, (w.setWidth bits).toInt = w.toNat + (2 ^ bits : Nat) * q ∧ -2 ^ (bits - 1) ≤ (w.setWidth bits).toInt ∧
      (w.setWidth bits).toInt < 2 ^ (bits - 1) := by
  obtain ⟨q, same⟩ : ((2 ^ bits : Nat) : Int) ∣ (w.toNat : Int).bmod (2 ^ bits) - w.toNat := Int.dvd_bmod_sub_self
  refine ⟨q, ?_, BitVec.le_toInt _, BitVec.toInt_lt⟩
  rw [BitVec.toInt_setWidth, ← same]
  omega

theorem taken_iff (signed : Bool) (m : Modifier) (w : BitVec 64) :
    taken signed m w = (if signed then (w.setWidth m.bits).toInt else (w.setWidth m.bits).toNat) ↔ Held signed w m := by
  have inside := w.isLt
  obtain ⟨q, low, least, most⟩ := setWidth_value w 32
  have same : w.setWidth 64 = w := BitVec.setWidth_eq w
  cases signed with
  | false =>
    simp only [taken, Held, Modifier.bits, Bool.false_eq_true, false_and, if_false, false_implies, BitVec.toNat_setWidth]
    cases m with
    | t =>
      dsimp only
      omega
    | _ =>
      refine iff_of_true ?_ trivial
      dsimp only
      omega
  | true =>
    simp only [taken, Held, Narrow, true_and, if_true, true_implies]
    cases m with
    | hh =>
      obtain ⟨q', char, least', most'⟩ := setWidth_value w 8
      dsimp only [Modifier.bits]
      omega
    | h =>
      obtain ⟨q', short, least', most'⟩ := setWidth_value w 16
      dsimp only [Modifier.bits]
      omega
    | z =>
      obtain ⟨q', whole, least', most'⟩ := setWidth_value w 64
      dsimp only [Modifier.bits]
      rw [same] at whole least' most' ⊢
      omega
    | t =>
      obtain ⟨q', whole, least', most'⟩ := setWidth_value w 64
      dsimp only [Modifier.bits]
      rw [same] at whole least' most' ⊢
      omega
    | none => exact iff_of_true rfl trivial
    | _ =>
      refine iff_of_true ?_ trivial
      dsimp only [Modifier.bits]
      rw [same]

/-! ## The text -/

namespace Conversion
variable (c : Conversion) (given : Given)

theorem read_flags : (c.read given).flags = flagWord (decide (.hash ∈ c.flags)) c.letter.signed c.modifier := by
  have settled : ((settled false c.flags c.width given.width .plain).precise (c.precision.read given.precision)).flags =
      if decide (.hash ∈ c.flags) then ALTFORM else 0 := by
    rw [precise_flags]
    unfold Printf.settled
    simp [Directive.plain]
  unfold read Letter.directive before flagWord
  dsimp only
  rw [settled]

theorem read_fill : (c.read given).fill = bif zeroed false c.flags then 48 else 32 := by
  have settled : ((settled false c.flags c.width given.width .plain).precise (c.precision.read given.precision)).fill =
      bif zeroed false c.flags then 48 else 32 := by
    cases c.precision.read given.precision <;> rfl
  exact settled

theorem read_width : (c.read given).width = c.width.read (c.flags.contains .minus) given.width := by
  have settled : ((settled false c.flags c.width given.width .plain).precise (c.precision.read given.precision)).width =
      c.width.read (false || c.flags.contains .minus) given.width := by
    cases c.precision.read given.precision <;> rfl
  exact settled

/-- The sign where the number is not negative, a 0 for none. -/
def signed : Int := if .plus ∈ c.flags then 43 else if .space ∈ c.flags then 32 else 0

theorem read_conv : (c.read given).conv = ⟨c.signed, (c.precision.read given.precision).getD 0, c.letter.digs, c.letter.base⟩ := by
  have settled : ((settled false c.flags c.width given.width .plain).precise (c.precision.read given.precision)).conv =
      ⟨c.signed, (c.precision.read given.precision).getD 0, upperDigs, 10⟩ := by
    have sign : (Printf.settled false c.flags c.width given.width .plain).conv = ⟨c.signed, 0, upperDigs, 10⟩ := by
      simp [Printf.settled, signed, Directive.plain]
    cases c.precision.read given.precision with
    | none => exact sign
    | some n =>
      change { (Printf.settled false c.flags c.width given.width .plain).conv with prec := n } = _
      rw [sign]
      rfl
  have digs : (if c.letter = .x then lowerDigs else upperDigs) = c.letter.digs := by
    cases c.letter <;> rfl
  unfold read Letter.directive before
  dsimp only
  rw [settled, digs]

/-- The number that is converted. -/
def value : Int := taken c.letter.signed c.modifier given.number

/-- The sign in front of it. -/
def front : List Int := if c.value given < 0 then [45] else if c.signed ≠ 0 then [c.signed] else []

/-- The digits, without more zeros than the buffer is made for. -/
def inner : List Int :=
  let ds := numeral c.letter.base (digit c.letter.digs) (c.value given).natAbs
  List.replicate (min ((c.precision.read given.precision).getD 0) MAXPREC - ds.length) 48 ++ ds

/-- The prefix in front of them. -/
def middle : List Int :=
  if .hash ∈ c.flags then
    if c.letter.base = 8 ∧ (c.inner given).head? ≠ some 48 then [48]
    else if c.letter.base = 16 ∧ c.value given ≠ 0 then [48, c.letter.digs.getD 16 0]
    else []
  else []

def text : List Int := c.front given ++ (c.middle given ++ c.inner given)

theorem convert_text : (c.read given).convert given.number = room (c.text given) := by
  have base : (c.read given).conv.base = c.letter.base := by
    rw [read_conv]
  have positive : 1 < (c.read given).conv.base := by
    rw [base]
    cases c.letter <;> decide
  have taken := getnum_taken (decide (.hash ∈ c.flags)) c.letter.signed c.modifier given.number
  have alternate := (flagWord_has (decide (.hash ∈ c.flags)) c.letter.signed c.modifier).1
  rw [← read_flags c given] at taken alternate
  have used : (c.read given).used given.number = ⟨if c.value given < 0 then 45 else c.signed,
      min ((c.precision.read given.precision).getD 0) MAXPREC, c.letter.digs, c.letter.base⟩ := by
    have sign : (c.read given).signed given.number = if c.value given < 0 then 45 else c.signed := by
      unfold Directive.signed
      rw [taken, read_conv]
      change (if decide (c.value given < 0) = true then 45 else c.signed) = _
      by_cases negative : c.value given < 0
      · rw [if_pos negative, if_pos (decide_eq_true negative)]
      · rw [if_neg negative, if_neg (Bool.eq_false_iff.mp (decide_eq_false negative))]
    unfold Directive.used
    rw [sign, read_conv]
  have front : sign ((c.read given).used given.number) = c.front given := by
    rw [used]
    unfold sign Conversion.front
    by_cases negative : c.value given < 0
    · simp [negative]
    · simp [negative]
  have inner : body (c.value given).natAbs ((c.read given).used given.number) = c.inner given := by
    rw [used]
    rfl
  have middle : mark (c.value given).natAbs (c.read given).flags ((c.read given).used given.number) = c.middle given := by
    unfold mark Conversion.middle
    rw [inner, used, alternate]
    simp
  rw [convert_room positive, taken, text, ← front, ← middle, ← inner]
  rfl

end Conversion

end Scc.Libc.Stdio.Printf
