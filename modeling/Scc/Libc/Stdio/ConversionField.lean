import Scc.Libc.Stdio.ConversionNumber
import Mathlib.Data.List.TakeWhile

set_option linter.all false

/-! The field in which `strout` puts the text of a number. -/
namespace Scc.Libc.Stdio.Printf
open Text Transition

/-! ## Digit characters -/

/-- A digit of a base up to 16. -/
def Figure (ch : Int) : Prop := (48 ≤ ch ∧ ch ≤ 57) ∨ (65 ≤ ch ∧ ch ≤ 70) ∨ (97 ≤ ch ∧ ch ≤ 102)

instance (ch : Int) : Decidable (Figure ch) := inferInstanceAs (Decidable (_ ∨ _ ∨ _))

/-- What can stand in front of the first digit that is not 0: a blank, a sign, a 0, and the letter of a prefix. -/
def Lead (ch : Int) : Prop := ch = 32 ∨ ch = 43 ∨ ch = 45 ∨ ch = 48 ∨ ch = 88 ∨ ch = 120

instance (ch : Int) : Decidable (Lead ch) := inferInstanceAs (Decidable (_ ∨ _))

variable (l : Letter) {v n : Nat}

theorem base_bounds : 1 < l.base ∧ 8 ≤ l.base ∧ l.base ≤ 16 := by
  cases l <;> decide

theorem digit_figure {d : Nat} (small : d < l.base) : Figure (digit l.digs d) := by
  have upper : ∀ d : Fin 16, Figure (digit upperDigs d) := by decide
  have lower : ∀ d : Fin 16, Figure (digit lowerDigs d) := by decide
  have less : d < 16 := Nat.lt_of_lt_of_le small (base_bounds l).2.2
  cases l with
  | x => exact lower ⟨d, less⟩
  | _ => exact upper ⟨d, less⟩

/-- The characters of the digits are different, and that of 0 is the only one that can be in front of a number. -/
theorem digit_back {d : Nat} (small : d < l.base) : l.digs.idxOf (digit l.digs d) = d ∧ (d ≠ 0 → ¬Lead (digit l.digs d)) := by
  have upper : ∀ d : Fin 16, upperDigs.idxOf (digit upperDigs d) = d ∧ (d.val ≠ 0 → ¬Lead (digit upperDigs d)) := by decide
  have lower : ∀ d : Fin 16, lowerDigs.idxOf (digit lowerDigs d) = d ∧ (d.val ≠ 0 → ¬Lead (digit lowerDigs d)) := by decide
  have less : d < 16 := Nat.lt_of_lt_of_le small (base_bounds l).2.2
  cases l with
  | x => exact lower ⟨d, less⟩
  | _ => exact upper ⟨d, less⟩

/-- The digits of a number. -/
def Letter.numeral (v : Nat) : List Int := Text.numeral l.base (digit l.digs) v

theorem numeral_figure {ch : Int} (member : ch ∈ l.numeral v) : Figure ch := by
  obtain ⟨d, small, rfl⟩ := mem_numeral (base_bounds l).1 member
  exact digit_figure l small

theorem numeral_injective {v w : Nat} (same : l.numeral v = l.numeral w) : v = w := by
  have inverse : ∀ d < l.base, l.digs.idxOf (digit l.digs d) = d := fun d small => (digit_back l small).1
  have read : ∀ v, readDigits l.base (fun ch => l.digs.idxOf ch) (l.numeral v) = v := readDigits_numeral (base_bounds l).1 inverse
  rw [← read v, ← read w, same]

theorem numeral_zero : l.numeral 0 = [48] := by
  cases l <;> rfl

/-- A number that is not 0 starts with another digit. -/
theorem numeral_first (some : v ≠ 0) : ∃ ch rest, l.numeral v = ch :: rest ∧ ¬Lead ch := by
  obtain ⟨d, rest, nonzero, small, same⟩ := numeral_head (base_bounds l).1 (digit l.digs) some
  exact ⟨_, rest, same, (digit_back l small).2 (Nat.ne_of_gt nonzero)⟩

/-! ## The number that a field shows -/

/-- The digits from the first one on that is not 0. -/
def core (s : List Int) : List Int := (s.dropWhile (Lead ·)).takeWhile (· ≠ 32)

theorem core_lead {pre : List Int} (leads : ∀ ch ∈ pre, Lead ch) (s : List Int) : core (pre ++ s) = core s := by
  have dropped : (pre ++ s).dropWhile (Lead ·) = s.dropWhile (Lead ·) :=
    List.dropWhile_append_of_pos fun ch member => decide_eq_true (leads ch member)
  unfold core
  rw [dropped]

theorem core_blanks (n : Nat) : core (List.replicate n 32) = [] := by
  have leads : ∀ ch ∈ List.replicate n (32 : Int), Lead ch := fun ch member => .inl (List.eq_of_mem_replicate member)
  have whole := core_lead leads []
  rw [List.append_nil] at whole
  exact whole

/-- A 0 shows as much as no digits. -/
theorem core_zero (n : Nat) : core (l.numeral 0 ++ List.replicate n 32) = [] := by
  have leads : ∀ ch ∈ l.numeral 0, Lead ch := by
    rw [numeral_zero]
    decide
  rw [core_lead leads, core_blanks]

theorem core_number (some : v ≠ 0) (n : Nat) : core (l.numeral v ++ List.replicate n 32) = l.numeral v := by
  obtain ⟨ch, rest, same, other⟩ := numeral_first l some
  have kept : (l.numeral v ++ List.replicate n 32).dropWhile (Lead ·) = l.numeral v ++ List.replicate n 32 := by
    rw [same, List.cons_append, List.dropWhile_cons_of_neg (by simpa using other)]
  have digits : ∀ ch ∈ l.numeral v, decide (ch ≠ 32) = true := by
    intro ch member
    have figure := numeral_figure l member
    unfold Figure at figure
    apply decide_eq_true
    omega
  have blanks : (List.replicate n (32 : Int)).takeWhile (· ≠ 32) = [] := by
    cases n <;> rfl
  unfold core
  rw [kept, List.takeWhile_append_of_pos digits, blanks, List.append_nil]

/-- A field with a number in it, where nothing can stand for a 0. -/
def Shows (v : Nat) (s : List Int) : Prop := core s = if v = 0 then [] else l.numeral v

theorem shows_number {pre : List Int} (leads : ∀ ch ∈ pre, Lead ch) (v n : Nat) :
    Shows l v (pre ++ (l.numeral v ++ List.replicate n 32)) := by
  unfold Shows
  rw [core_lead leads]
  split
  · rename_i zero
    rw [zero, core_zero]
  · exact core_number l ‹_› n

theorem shows_unique {v w : Nat} {s : List Int} (first : Shows l v s) (second : Shows l w s) : v = w := by
  have same := first.symm.trans second
  have nonempty : ∀ v, l.numeral v ≠ [] := numeral_ne_nil l.base (digit l.digs)
  split at same <;> split at same
  · omega
  · exact absurd same.symm (nonempty w)
  · exact absurd same (nonempty v)
  · exact numeral_injective l same

/-! ## The field -/

theorem toupper_other {o : Outside} {ch : Int} (inside : -1 ≤ ch ∧ ch ≤ 255) (other : ¬(97 ≤ ch ∧ ch ≤ 122)) : toupper o ch = ch := by
  have upper : islower o ch = false := by
    unfold islower
    rw [if_pos inside]
    exact decide_eq_false other
  unfold toupper
  rw [upper, if_neg (fun both => Bool.false_ne_true both.1)]

/-- Some characters more than there are, up to a width. -/
def gap (s : List Int) (width : Int) : Nat := width.natAbs - s.length

theorem padding_gap {s : List Int} (some : s ≠ []) (short : s.length ≤ MAXPREC) {width : Int} (least : -2147483648 ≤ width) (most : width < 2147483648) :
    padding s.length width = if width < 0 then (0, gap s width) else (gap s width, 0) := by
  have positive : 0 < s.length := List.length_pos_iff.mpr some
  have limit : MAXPREC = 50 := rfl
  by_cases left : width < 0
  · obtain ⟨k, same, low, high⟩ := int_spec (-width)
    obtain ⟨m, same', low', high'⟩ := int_spec (int (-width) % 2 ^ 64 - s.length)
    obtain ⟨q, same'', low'', high''⟩ := int_spec (-int (int (-width) % 2 ^ 64 - s.length))
    unfold padding gap
    simp only [left, if_true]
    split
    · rw [Prod.mk.injEq]
      omega
    · rw [Prod.mk.injEq]
      have zero : int (-0) = 0 := rfl
      omega
  · obtain ⟨m, same', low', high'⟩ := int_spec (width % 2 ^ 64 - s.length)
    unfold padding gap
    simp only [left, if_false]
    split
    · rw [Prod.mk.injEq]
      omega
    · rw [Prod.mk.injEq]
      omega

theorem toupper_figure (o : Outside) {ch : Int} (figure : Figure ch) : toupper o ch ≠ 88 := by
  unfold Figure at figure
  by_cases lower : 97 ≤ ch ∧ ch ≤ 122
  · unfold toupper
    split <;> omega
  · rw [toupper_other (by omega) lower]
    omega

/-- Only what stands in front of the digits is put in front of the zeros. -/
theorem prefixLength_leads (o : Outside) (pre : List Int) {ds : List Int} (figures : ∀ ch ∈ ds, Figure ch) (some : ds ≠ []) (fill : Int) :
    prefixLength o (pre ++ ds) fill ≤ pre.length := by
  obtain ⟨ch, rest, rfl⟩ := List.exists_cons_of_ne_nil some
  have first : Figure ch := figures ch List.mem_cons_self
  have range := first
  unfold Figure at range
  unfold prefixLength
  match pre with
  | [] =>
    have second : toupper o (rest.headD 0) ≠ 88 := by
      cases rest with
      | nil =>
        have zero : toupper o 0 = 0 := toupper_other (by decide) (by decide)
        rw [List.headD_nil, zero]
        decide
      | cons next rest => exact toupper_figure o (figures next (List.mem_cons_of_mem ch List.mem_cons_self))
    have unsigned : ¬(ch = 45 ∨ ch = 43) := by omega
    have unmarked : ¬(ch = 48 ∧ toupper o (rest.headD 0) = 88) := fun both => second both.2
    change (if fill = 48 then if ch = 45 ∨ ch = 43 then 1 else if ch = 48 ∧ toupper o (rest.headD 0) = 88 then 2 else 0 else 0) ≤ 0
    rw [if_neg unsigned, if_neg unmarked, ite_self]
  | [a] =>
    have unmarked : ¬(a = 48 ∧ toupper o ch = 88) := fun both => toupper_figure o first both.2
    change (if fill = 48 then if a = 45 ∨ a = 43 then 1 else if a = 48 ∧ toupper o ch = 88 then 2 else 0 else 0) ≤ 1
    rw [if_neg unmarked]
    split
    · split <;> decide
    · decide
  | a :: b :: pre =>
    apply Nat.le_trans _ (Nat.le_add_left 2 pre.length)
    split
    · split
      · decide
      · split <;> decide
    · decide

/-- A text in its field: more characters are behind it, or between what is in front of the digits. -/
theorem strout_field (o : Outside) {pre ds : List Int} (leads : ∀ ch ∈ pre, Lead ch) (figures : ∀ ch ∈ ds, Figure ch) (some : ds ≠ [])
    (short : (pre ++ ds).length ≤ MAXPREC) {width : Int} (least : -2147483648 ≤ width) (most : width < 2147483648) (fill : Int) :
    strout o (pre ++ ds) (pre ++ ds).length width fill =
      if width < 0 then pre ++ (ds ++ List.replicate (gap (pre ++ ds) width) 32)
      else pre.take (prefixLength o (pre ++ ds) fill) ++
        (List.replicate (gap (pre ++ ds) width) fill ++ (pre.drop (prefixLength o (pre ++ ds) fill) ++ ds)) := by
  have le := prefixLength_leads o pre figures some fill
  have limit : MAXPREC = 50 := rfl
  have nonempty : pre ++ ds ≠ [] := List.append_ne_nil_of_right_ne_nil pre some
  have no_nul : 0 ∉ pre ++ ds := by
    intro member
    rcases List.mem_append.mp member with before | digit
    · exact absurd (leads 0 before) (by decide)
    · exact absurd (figures 0 digit) (by decide)
  have total : (pre ++ ds).length = pre.length + ds.length := List.length_append
  unfold strout
  dsimp only
  generalize prefixLength o (pre ++ ds) fill = n at le ⊢
  have len : ((pre ++ ds).length + (2 ^ 64 - n)) % 2 ^ 64 = (pre ++ ds).length - n := by
    omega
  have whole : (((pre ++ ds).drop n).take ((pre ++ ds).length - n)).takeWhile (· ≠ 0) = pre.drop n ++ ds := by
    rw [← List.length_drop, List.take_length, List.takeWhile_eq_self_iff.mpr, List.drop_append_of_le_length le]
    intro ch member
    apply decide_eq_true
    rintro rfl
    exact no_nul (List.mem_of_mem_drop member)
  have front : (pre ++ ds).take n = pre.take n := List.take_append_of_le_length le
  rw [padding_gap nonempty short least most, len, whole, front]
  split
  · dsimp only
    rw [List.replicate_zero, List.append_nil, ← List.append_assoc, List.take_append_drop, List.append_assoc]
  · dsimp only
    rw [List.replicate_zero, List.append_nil, List.append_assoc]

/-! ## Blanks at the end -/

/-- Where two fields are the same, as many blanks are behind their digits. -/
theorem blanks_same {pre pre' ds ds' : List Int} (figures : ∀ ch ∈ ds, Figure ch) (figures' : ∀ ch ∈ ds', Figure ch) (some : ds ≠ [])
    (some' : ds' ≠ []) {n n' : Nat} (same : pre ++ (ds ++ List.replicate n 32) = pre' ++ (ds' ++ List.replicate n' 32)) : n = n' := by
  have behind : ∀ (pre ds : List Int) (n : Nat), (∀ ch ∈ ds, Figure ch) → ds ≠ [] →
      ((pre ++ (ds ++ List.replicate n 32)).reverse.takeWhile (· = 32)).length = n := by
    intro pre ds n figures some
    have last : Figure (ds.getLast some) := figures _ (List.getLast_mem some)
    unfold Figure at last
    have other : ¬ds.getLast some = 32 := by omega
    have reversed : (pre ++ (ds ++ List.replicate n 32)).reverse = List.replicate n 32 ++ ds.getLast some :: (ds.dropLast.reverse ++ pre.reverse) := by
      conv => lhs; rw [← List.dropLast_append_getLast some]
      simp
    have blanks : ∀ ch ∈ List.replicate n (32 : Int), decide (ch = 32) = true := fun ch member => decide_eq_true (List.eq_of_mem_replicate member)
    rw [reversed, List.takeWhile_append_of_pos blanks, List.takeWhile_cons_of_neg (by simpa using other), List.append_nil, List.length_replicate]
  rw [← behind pre ds n figures some, ← behind pre' ds' n' figures' some', same]

end Scc.Libc.Stdio.Printf
