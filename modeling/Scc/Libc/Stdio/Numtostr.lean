import Scc.Libc.Stdio.Vfprintf
import Scc.Text.Numeral

set_option linter.all false

/-! The text of a number in `vfprintf`, and when it fits in the buffer. -/
namespace Scc.Libc.Stdio.Printf
open Text Transition

/-- The text, where the buffer has room for it. -/
def room (s : List Int) : Option (List Int) := if s.length ≤ MAXPREC then some s else none

variable {base val flags n : Nat} {conv : Conv} {s buf digs : List Int}

theorem push_room (c : Int) (buf : List Int) : push c buf = room (c :: buf) := by
  unfold push room
  rw [List.length_cons]
  rfl

/-- More text in front of the text, in one go. -/
theorem room_bind (pre s : List Int) : (room s >>= fun t => room (pre ++ t)) = room (pre ++ s) := by
  by_cases fits : s.length ≤ MAXPREC
  · rw [room, if_pos fits]
    rfl
  · have wide : ¬(pre ++ s).length ≤ MAXPREC := by
      rw [List.length_append]
      omega
    rw [room, if_neg fits, room, if_neg wide]
    rfl

theorem room_some (fits : s.length ≤ MAXPREC) : some s = room s := (if_pos fits).symm

/-- The digit characters. -/
def digit (digs : List Int) (d : Nat) : Int := digs.getD d 0

theorem digits_room (positive : 1 < base) (digs : List Int) (val : Nat) (buf : List Int) :
    digits digs base val buf = room (numeral base (digit digs) val ++ buf) := by
  induction val using Nat.strong_induction_on generalizing buf with
  | _ val ih =>
    rw [digits]
    split
    · rename_i more
      have less : val / base < val := Nat.div_lt_self (by omega) positive
      have inner : ∀ buf, digits digs base (val / base) buf = room (numeral base (digit digs) (val / base) ++ buf) := ih _ less
      simp only [inner, push_room]
      rw [room_bind, numeral_of_le positive more.2, List.append_assoc]
      rfl
    · rename_i last
      have less : val < base := by omega
      rw [push_room, numeral_of_lt less, Nat.mod_eq_of_lt less]
      rfl

theorem zeros_room (n : Nat) (fits : buf.length ≤ MAXPREC) : zeros n buf = room (List.replicate n 48 ++ buf) := by
  induction n generalizing buf with
  | zero => exact room_some fits
  | succ n ih =>
    unfold zeros
    rw [push_room]
    by_cases next : (48 :: buf).length ≤ MAXPREC
    · rw [room, if_pos next]
      refine (ih next).trans ?_
      rw [List.replicate_succ', List.append_assoc]
      rfl
    · have wide : ¬(List.replicate (n + 1) 48 ++ buf).length ≤ MAXPREC := by
        simp at next ⊢
        omega
      rw [room, if_neg next, room, if_neg wide]
      rfl

/-! The parts of the text. -/

/-- The digits, with the zeros of the precision. -/
def body (val : Nat) (conv : Conv) : List Int :=
  List.replicate (conv.prec - (numeral conv.base (digit conv.digs) val).length) 48 ++ numeral conv.base (digit conv.digs) val

/-- What the alternate form has in front of them. -/
def mark (val flags : Nat) (conv : Conv) : List Int :=
  if has flags ALTFORM then
    if conv.base = 8 ∧ (body val conv).head? ≠ some 48 then [48]
    else if conv.base = 16 ∧ val ≠ 0 then [48, conv.digs.getD 16 0]
    else []
  else []

def sign (conv : Conv) : List Int := if conv.sign ≠ 0 then [conv.sign] else []

theorem numtostr_room (positive : 1 < conv.base) (val flags : Nat) :
    numtostr val flags conv = room (sign conv ++ (mark val flags conv ++ body val conv)) := by
  have first : (digits conv.digs conv.base val [] >>= fun buf => zeros (conv.prec - buf.length) buf) = room (body val conv) := by
    rw [digits_room positive, List.append_nil]
    by_cases fits : (numeral conv.base (digit conv.digs) val).length ≤ MAXPREC
    · rw [room, if_pos fits]
      exact zeros_room _ fits
    · have wide : ¬(body val conv).length ≤ MAXPREC := by
        rw [body, List.length_append]
        omega
      rw [room, if_neg fits, room, if_neg wide]
      rfl
  have second : (body val conv).length ≤ MAXPREC → altform val flags conv (body val conv) = room (mark val flags conv ++ body val conv) := by
    intro fits
    unfold altform mark
    split
    · split
      · exact push_room _ _
      split
      · simp only [push_room]
        exact room_bind [48] _
      · exact room_some fits
    · exact room_some fits
  have third : ∀ buf : List Int, buf.length ≤ MAXPREC →
      (if conv.sign ≠ 0 then push conv.sign buf else some buf) = room (sign conv ++ buf) := by
    intro buf fits
    unfold sign
    split
    · exact push_room _ _
    · exact room_some fits
  unfold numtostr
  rw [← bind_assoc, first]
  by_cases fits : (body val conv).length ≤ MAXPREC
  · rw [room, if_pos fits, Option.bind_eq_bind, Option.bind_some, second fits]
    by_cases next : (mark val flags conv ++ body val conv).length ≤ MAXPREC
    · rw [room, if_pos next]
      exact third _ next
    · have wide : ¬(sign conv ++ (mark val flags conv ++ body val conv)).length ≤ MAXPREC := by
        rw [List.length_append]
        omega
      rw [room, if_neg next, room, if_neg wide]
      rfl
  · have wide : ¬(sign conv ++ (mark val flags conv ++ body val conv)).length ≤ MAXPREC := by
      rw [List.length_append, List.length_append]
      omega
    rw [room, if_neg fits, room, if_neg wide]
    rfl

/-! ## How long the text is -/

theorem getnum_lt (w : BitVec 64) (flags : Nat) : (getnum w flags).1 < 2 ^ 64 := by
  have low := (w.setWidth 32).le_toInt
  have least := w.le_toInt
  have most := w.isLt
  have parts : ∀ val : Int, ∀ uval : Nat, -2 ^ 63 ≤ val → uval < 2 ^ 64 →
      (if !has flags UNSIGNED ∧ val < 0 then ((-val).toNat, true) else (uval, false)).1 < 2 ^ 64 := by
    intro val uval above below
    split
    · change (-val).toNat < 2 ^ 64
      omega
    · exact below
  unfold getnum
  dsimp only
  split
  · exact parts _ _ (by omega) (by omega)
  split
  · exact parts _ _ (by omega) (by omega)
  split
  · exact parts _ _ least most
  split
  · exact parts _ _ least most
  split
  · exact parts _ _ (by omega) most
  split
  · exact parts _ _ least most
  split
  · exact parts _ _ (by omega) most
  · exact parts _ _ (by omega) (by omega)

theorem numeral_short {base : Nat} (large : 8 ≤ base) (digs : List Int) {val : Nat} (fits : val < 2 ^ 64) :
    (numeral base (digit digs) val).length ≤ 22 := by
  apply numeral_length_le (Nat.lt_of_lt_of_le (by decide) large)
  have most : 8 ^ 22 ≤ base ^ 22 := Nat.pow_le_pow_left large 22
  exact Nat.lt_of_lt_of_le (Nat.lt_trans fits (by decide)) most

theorem body_length (val : Nat) (conv : Conv) :
    (body val conv).length = max conv.prec (numeral conv.base (digit conv.digs) val).length := by
  rw [body, List.length_append, List.length_replicate]
  omega

/-- The zero of the alternate form is not in front of zeros. -/
theorem mark_octal (octal : conv.base = 8) (long : (numeral conv.base (digit conv.digs) val).length < conv.prec) :
    mark val flags conv = [] := by
  have first : (body val conv).head? = some 48 := by
    obtain ⟨k, more⟩ : ∃ k, conv.prec - (numeral conv.base (digit conv.digs) val).length = k + 1 := ⟨_, (Nat.succ_pred (by omega)).symm⟩
    rw [body, more]
    rfl
  have other : ¬(conv.base = 8 ∧ (body val conv).head? ≠ some 48) := fun both => both.2 first
  have other' : ¬(conv.base = 16 ∧ val ≠ 0) := by omega
  rw [mark, if_neg other, if_neg other', ite_self]

/-- The sign that the number is given. -/
def Directive.signed (d : Directive) (w : BitVec 64) : Int := if (getnum w d.flags).2 then 45 else d.conv.sign

/-- The precision, a prefix of two characters and a sign are no more than the buffer is made for. -/
def Directive.Fits (d : Directive) (w : BitVec 64) : Prop :=
  min d.conv.prec MAXPREC + (if has d.flags ALTFORM ∧ d.conv.base = 16 ∧ (getnum w d.flags).1 ≠ 0 then 2 else 0) +
    (if d.signed w ≠ 0 then 1 else 0) ≤ MAXPREC

/-- The conversion of the directive, with the sign and the precision that are used. -/
def Directive.used (d : Directive) (w : BitVec 64) : Conv := { d.conv with sign := d.signed w, prec := min d.conv.prec MAXPREC }

theorem convert_room {d : Directive} (positive : 1 < d.conv.base) (w : BitVec 64) :
    d.convert w = room (sign (d.used w) ++ (mark (getnum w d.flags).1 d.flags (d.used w) ++ body (getnum w d.flags).1 (d.used w))) := by
  have limit : (if (getnum w d.flags).2 then { d.conv with sign := 45 } else d.conv).limit = d.used w := by
    unfold Conv.limit Directive.used Directive.signed
    cases (getnum w d.flags).2
    · simp only [Bool.false_eq_true, if_false]
      congr 1
      split <;> omega
    · simp only [if_true]
      congr 1
      split <;> omega
  unfold Directive.convert
  dsimp only
  rw [limit]
  have positive : 1 < (d.used w).base := positive
  exact numtostr_room positive _ _

theorem room_isSome (s : List Int) : (room s).isSome ↔ s.length ≤ MAXPREC := by
  unfold room
  split
  · exact ⟨fun _ => ‹_›, fun _ => rfl⟩
  · exact ⟨nofun, fun fits => absurd fits ‹_›⟩

theorem mark_hexadecimal (val flags : Nat) (hexadecimal : conv.base = 16) :
    (mark val flags conv).length = if has flags ALTFORM ∧ conv.base = 16 ∧ val ≠ 0 then 2 else 0 := by
  have other : ¬(conv.base = 8 ∧ (body val conv).head? ≠ some 48) := by omega
  unfold mark
  rw [if_neg other]
  by_cases alternate : has flags ALTFORM
  · rw [if_pos alternate]
    by_cases some : val ≠ 0
    · rw [if_pos ⟨hexadecimal, some⟩, if_pos ⟨alternate, hexadecimal, some⟩]
      rfl
    · rw [if_neg (fun both => some both.2), if_neg (fun all => some all.2.2)]
      rfl
  · rw [if_neg alternate, if_neg (fun all => alternate all.1)]
    rfl

theorem mark_short (val flags : Nat) (other : conv.base ≠ 16) : (mark val flags conv).length ≤ 1 := by
  unfold mark
  split
  · split
    · exact Nat.le_refl 1
    · rw [if_neg (fun both => other both.1)]
      exact Nat.zero_le 1
  · exact Nat.zero_le 1

/-- A number is written inside of the buffer exactly where the precision leaves room for the prefix and the sign. -/
theorem convert_iff (d : Directive) (w : BitVec 64) (base : d.conv.base = 8 ∨ d.conv.base = 10 ∨ d.conv.base = 16) :
    (d.convert w).isSome ↔ d.Fits w := by
  have positive : 1 < d.conv.base := by omega
  have large : 8 ≤ d.conv.base := by omega
  have small := numeral_short large d.conv.digs (getnum_lt w d.flags)
  have long := body_length (getnum w d.flags).1 (d.used w)
  have signs : (sign (d.used w)).length = if d.signed w ≠ 0 then 1 else 0 := by
    unfold sign Directive.used
    split <;> rfl
  have used : (d.used w).base = d.conv.base := rfl
  have limit : (d.used w).prec = min d.conv.prec MAXPREC := rfl
  have most : MAXPREC = 50 := rfl
  rw [convert_room positive, room_isSome, List.length_append, List.length_append, signs, long, limit, Directive.Fits]
  change (numeral (d.used w).base (digit (d.used w).digs) (getnum w d.flags).1).length ≤ 22 at small
  by_cases hexadecimal : d.conv.base = 16
  · have marks : (mark (getnum w d.flags).1 d.flags (d.used w)).length =
        if has d.flags ALTFORM ∧ d.conv.base = 16 ∧ (getnum w d.flags).1 ≠ 0 then 2 else 0 := mark_hexadecimal _ _ hexadecimal
    rw [← marks]
    have least : (mark (getnum w d.flags).1 d.flags (d.used w)).length ≤ 2 := by
      rw [marks]
      split <;> decide
    split <;> omega
  · have unmarked : (if has d.flags ALTFORM ∧ d.conv.base = 16 ∧ (getnum w d.flags).1 ≠ 0 then 2 else 0) = 0 :=
      if_neg fun all => hexadecimal all.2.1
    have short : (mark (getnum w d.flags).1 d.flags (d.used w)).length ≤ 1 := mark_short _ _ hexadecimal
    rw [unmarked]
    by_cases octal : d.conv.base = 8
    · by_cases filled : (numeral (d.used w).base (digit (d.used w).digs) (getnum w d.flags).1).length < (d.used w).prec
      · have none : mark (getnum w d.flags).1 d.flags (d.used w) = [] := mark_octal octal filled
        rw [none, List.length_nil]
        split <;> omega
      · split <;> omega
    · have none : mark (getnum w d.flags).1 d.flags (d.used w) = [] := by
        have other : ¬((d.used w).base = 8 ∧ (body (getnum w d.flags).1 (d.used w)).head? ≠ some 48) := fun both => octal both.1
        have other' : ¬((d.used w).base = 16 ∧ (getnum w d.flags).1 ≠ 0) := fun both => hexadecimal both.1
        rw [mark, if_neg other, if_neg other', ite_self]
      rw [none, List.length_nil]
      split <;> omega

instance (d : Directive) (w : BitVec 64) : Decidable (d.Fits w) := inferInstanceAs (Decidable (_ ≤ MAXPREC))

/-- `%+d` of 42. -/
theorem convert_forty_two : (Directive.convert ⟨32, false, false, 0, 0, ⟨43, 0, upperDigs, 10⟩⟩ 42).isSome :=
  (convert_iff ⟨32, false, false, 0, 0, ⟨43, 0, upperDigs, 10⟩⟩ 42 (.inr (.inl rfl))).mpr (by decide)

theorem numeric_undefined {o : Outside} {m : Machine} {args : List Arg} {d : Directive} {w : BitVec 64}
    (next : m.args = .word w :: args) (outside : d.convert w = none) : m.numeric o d = .done .undefined := by
  unfold Machine.numeric
  rw [next]
  dsimp only
  rw [outside]

/-- `%#.50x` of 1: fifty digits leave no room for the prefix. -/
theorem prefix_outside :
    ∃ m, Runs (Machine.step ⟨fun _ => false, fun _ => false, fun _ => false⟩) 3 (vfprintf [37, 35, 46, 53, 48, 120] [.word 1] 0) [] m ∧
      m.step ⟨fun _ => false, fun _ => false, fun _ => false⟩ = .done .undefined := by
  refine ⟨⟨[120], [.word 1], 0, 0, .flags ⟨32, true, false, ALTFORM, 0, ⟨0, 50, upperDigs, 10⟩⟩⟩, Runs.of_exec rfl, ?_⟩
  change Machine.numeric _ ⟨[], [.word 1], 0, 0, _⟩ ⟨32, true, false, ALTFORM ||| UNSIGNED, 0, ⟨0, 50, lowerDigs, 16⟩⟩ = _
  apply numeric_undefined rfl
  have last : numeral 16 (digit lowerDigs) 1 = [49] := numeral_of_lt (by omega)
  have value : getnum 1 (ALTFORM ||| UNSIGNED) = (1, false) := by decide
  rw [convert_room (by exact Nat.one_lt_ofNat), room, if_neg]
  unfold mark body Directive.used Directive.signed
  dsimp only
  rw [value, last]
  decide

end Scc.Libc.Stdio.Printf
