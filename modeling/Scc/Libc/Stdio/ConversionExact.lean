import Scc.Libc.Stdio.ConversionProofs
import Scc.Libc.Stdio.Counting

set_option linter.all false

/-! When exactly the field of a number is the one that is prescribed. -/
namespace Scc.Libc.Stdio.Printf
open Text Transition

/-! ## The widths -/

theorem decimalValue_positive (lead : Fin 9) (rest : List (Fin 10)) : 0 < decimalValue (lead.succ :: rest) := by
  have grows : ∀ (ds : List (Fin 10)) (a : Nat), a ≤ ds.foldl (fun v d => v * 10 + d.val) a := by
    intro ds
    induction ds with
    | nil => exact Nat.le_refl
    | cons d ds ih =>
      intro a
      have next := ih (a * 10 + d.val)
      rw [List.foldl_cons]
      omega
  have first := grows rest (0 * 10 + lead.succ.val)
  have positive : 0 < lead.succ.val := Nat.succ_pos lead.val
  change 0 < rest.foldl (fun v d => v * 10 + d.val) (0 * 10 + lead.succ.val)
  omega

namespace Conversion
variable {c : Conversion} {given : Given} {o : Outside}

/-- A `-` makes the width negative where it is not given as an argument. -/
theorem columns_read (given : Given) (held : c.WidthHeld) :
    c.columnsRead given = (if .minus ∈ c.flags ∧ c.width ≠ .star then -c.columns given else c.columns given) ∧
      (c.width ≠ .star → 0 ≤ c.columns given) ∧ (c.columns given).natAbs ≤ 2 ^ 31 := by
  unfold columnsRead columns
  cases kind : c.width with
  | omitted =>
    refine ⟨?_, fun _ => Int.le_refl 0, Nat.zero_le _⟩
    split <;> rfl
  | star =>
    have least := (given.width.setWidth 32).le_toInt
    have most := (given.width.setWidth 32).toInt_lt
    dsimp only
    refine ⟨?_, fun other => absurd rfl other, by omega⟩
    rw [if_neg (fun both => both.2 rfl)]
    rfl
  | number lead rest =>
    have positive := decimalValue_positive lead rest
    have fits := held lead rest kind
    obtain ⟨k, same, least, most⟩ := int_spec (decimalValue (lead.succ :: rest))
    obtain ⟨k', same', least', most'⟩ := int_spec (-int (decimalValue (lead.succ :: rest)))
    dsimp only [Width.read]
    refine ⟨?_, fun _ => Int.natCast_nonneg _, by omega⟩
    by_cases minus : Flag.minus ∈ c.flags
    · have found : c.flags.contains .minus = true := List.contains_iff_mem.mpr minus
      rw [found, if_pos rfl, if_pos ⟨minus, nofun⟩]
      omega
    · have none : c.flags.contains .minus = false := Bool.eq_false_iff.mpr fun found => minus (List.contains_iff_mem.mp found)
      have small : decimalValue (lead.succ :: rest) < 2 ^ 31 := by
        rcases fits with small | ⟨-, found⟩
        · exact small
        · exact absurd found minus
      rw [none, if_neg Bool.false_ne_true, if_neg (fun both => minus both.1)]
      omega

/-! ## What follows from the same characters -/

/-- Something is put, and it ends with a digit. -/
theorem figures_nonempty (shown : c.atLeast given = some 0 → c.number given = 0 → .hash ∈ c.flags ∧ c.letter.base = 8) : c.figures given ≠ [] := by
  by_cases none : c.atLeast given = some 0 ∧ c.number given = 0
  · obtain ⟨hash, octal⟩ := shown none.1 none.2
    have empty : c.significant given = [] := if_pos none
    rw [figures_whole, empty, none.1, if_pos ⟨hash, octal, nofun⟩]
    exact List.cons_ne_nil _ _
  · have significant : c.significant given ≠ [] := by
      rw [Conversion.significant, if_neg none]
      exact numeral_ne_nil _ _ _
    obtain ⟨k, whole⟩ := figures_split c given
    rw [whole]
    exact List.append_ne_nil_of_right_ne_nil _ significant

/-- As many blanks are on the right. -/
theorem right_same (same : c.printed given o = c.prescribed given) :
    (if c.columnsRead given < 0 then gap (c.text given) (c.columnsRead given) else 0) = if c.justified given then c.pad given else 0 := by
  obtain ⟨pre, -, put⟩ := printed_split c given o
  have asked : ∃ pre', c.prescribed given = pre' ++ (c.figures given ++ List.replicate (if c.justified given then c.pad given else 0) 32) := by
    rw [prescribed_field]
    split
    · exact ⟨c.signs given ++ c.marks given, by simp only [List.append_assoc]⟩
    · rw [List.replicate_zero, List.append_nil]
      split
      · exact ⟨_, rfl⟩
      · exact ⟨_, rfl⟩
  obtain ⟨pre', asked⟩ := asked
  have shown := zero_wrong same
  rw [put, asked] at same
  exact blanks_same (fun ch => numeral_figure c.letter) (fun ch => figures_figure) (numeral_ne_nil _ _ _) (figures_nonempty shown) same

/-- As many characters are put. -/
theorem length_same (same : c.printed given o = c.prescribed given) :
    max (c.text given).length (c.columnsRead given).natAbs = max (c.least given) (c.columns given).natAbs := by
  rw [← printed_length c given o, same, prescribed_length]

/-- As many blanks are put. -/
theorem blanks_count (same : c.printed given o = c.prescribed given) : (c.front given).count 32 +
    (if c.columnsRead given < 0 ∨ c.fillRead = 32 then gap (c.text given) (c.columnsRead given) else 0) =
      (c.signs given).count 32 + if c.filler given = 32 then c.pad given else 0 := by
  have put := printed_count c given o 32
  have asked := prescribed_count c given 32
  obtain ⟨text, marks, figures⟩ := sign_count c given (.inl rfl)
  have fill : ∀ (n : Nat) (f : Int), (List.replicate n f).count 32 = if f = 32 then n else 0 := by
    intro n f
    rw [List.count_replicate]
    simp only [beq_iff_eq]
  have either : (if (if c.columnsRead given < 0 then 32 else c.fillRead) = 32 then gap (c.text given) (c.columnsRead given) else 0) =
      if c.columnsRead given < 0 ∨ c.fillRead = 32 then gap (c.text given) (c.columnsRead given) else 0 := by
    by_cases left : c.columnsRead given < 0
    · rw [if_pos left, if_pos rfl, if_pos (.inl left)]
    · simp only [left, if_false, false_or]
  rw [fill, text, either] at put
  rw [fill, marks, figures] at asked
  rw [same] at put
  omega

theorem width_held (short : (c.text given).length ≤ MAXPREC) (same : c.printed given o = c.prescribed given) : c.WidthHeld := by
  intro lead rest kind
  have columns : c.columns given = decimalValue (lead.succ :: rest) := by
    unfold Conversion.columns
    rw [kind]
  have limit : MAXPREC = 50 := rfl
  obtain ⟨least, most⟩ := columnsRead_bounds c given
  have right := right_same same
  have length := length_same same
  unfold gap pad at right
  by_cases small : decimalValue (lead.succ :: rest) < 2 ^ 31
  · exact .inl small
  · have left : c.justified given := by
      apply Classical.by_contradiction
      intro other
      rw [if_neg other] at right
      split at right <;> omega
    refine .inr ⟨by omega, ?_⟩
    rcases left with minus | negative
    · exact minus
    · omega

theorem front_parts (same : c.value given = c.number given) (plain : c.letter.signed = false → .plus ∉ c.flags) :
    c.front given = if c.Blank then [32] else c.signs given := by
  cases signed : c.letter.signed with
  | false => rw [front_unsigned same signed (plain signed), signs_unsigned signed]
  | true =>
    have none : ¬c.Blank := fun both => Bool.false_ne_true (both.1.symm.trans signed)
    rw [front_signed same signed, if_neg none]

theorem signs_blank (given : Given) (blank : c.Blank) : c.signs given = [] := signs_unsigned blank.1

/-- The digits are as many as the precision asks for, or as many as there are, with a zero in front of them. -/
theorem figures_length (c : Conversion) (given : Given) : (c.atLeast given).getD 0 ≤ (c.figures given).length ∧
    (c.figures given).length ≤ max ((c.atLeast given).getD 0) ((c.letter.numeral (c.number given).natAbs).length + 1) := by
  have positive := numeral_positive c.letter (c.number given).natAbs
  have some : (c.significant given).length ≤ (c.letter.numeral (c.number given).natAbs).length := by
    unfold Conversion.significant
    split
    · exact Nat.zero_le _
    · exact Nat.le_refl _
  have one : (c.atLeast given).getD 0 ≤ (c.atLeast given).getD 1 ∧ (c.atLeast given).getD 1 ≤ max 1 ((c.atLeast given).getD 0) := by
    cases c.atLeast given with
    | none => exact ⟨Nat.zero_le 1, Nat.le_refl 1⟩
    | some n => exact ⟨Nat.le_refl n, Nat.le_max_right 1 n⟩
  rw [figures_whole]
  dsimp only
  split
  · rename_i octal
    have full : (c.atLeast given).getD 1 - (c.significant given).length = 0 := by
      apply Classical.by_contradiction
      intro more
      obtain ⟨k, next⟩ : ∃ k, (c.atLeast given).getD 1 - (c.significant given).length = k + 1 := ⟨_, (Nat.succ_pred more).symm⟩
      apply octal.2.2
      rw [next]
      rfl
    rw [full, List.replicate_zero, List.nil_append, List.length_cons]
    omega
  · rw [List.length_append, List.length_replicate]
    omega

/-- A precision that an `int` can hold is the one that is read. -/
theorem read_precision (small : (c.atLeast given).getD 0 < 2 ^ 31) : c.precision.read given.precision = c.atLeast given := by
  unfold atLeast at small ⊢
  cases kind : c.precision with
  | omitted => rfl
  | number digits =>
    rw [kind] at small
    change decimalValue digits < 2 ^ 31 at small
    have exact : int (decimalValue digits) = decimalValue digits := int_of_small (by omega) (by omega)
    unfold Precision.read
    dsimp only
    rw [exact, if_pos (Int.natCast_nonneg _), Int.toNat_natCast]
  | star =>
    unfold Precision.read
    dsimp only
    split <;> split <;> first | rfl | omega

/-- The digits that are prescribed are not more than an `int` can count. -/
theorem precision_small (short : (c.text given).length ≤ MAXPREC) (same : c.printed given o = c.prescribed given) :
    (c.atLeast given).getD 0 < 2 ^ 31 := by
  have limit : MAXPREC = 50 := rfl
  obtain ⟨least, most⟩ := columnsRead_bounds c given
  obtain ⟨-, -, columns⟩ := columns_read given (width_held short same)
  have digits := (figures_length c given).1
  have length := length_same same
  have right := right_same same
  have total : c.least given = (c.signs given).length + (c.marks given).length + (c.figures given).length := by
    rw [Conversion.least, List.length_append, List.length_append]
  unfold gap pad at right
  split at right <;> split at right <;> omega

/-- The text where the precision is more than the buffer is made for. -/
theorem long_text (short : (c.text given).length ≤ MAXPREC) (read : c.precision.read given.precision = c.atLeast given)
    (long : MAXPREC < (c.atLeast given).getD 0) : c.front given = [] ∧ c.middle given = [] := by
  have inner : MAXPREC ≤ (c.inner given).length := by
    unfold Conversion.inner
    dsimp only
    rw [read, List.length_append, List.length_replicate]
    omega
  have length : (c.text given).length = (c.front given).length + ((c.middle given).length + (c.inner given).length) := by
    rw [text, List.length_append, List.length_append]
  exact ⟨List.eq_nil_of_length_eq_zero (by omega), List.eq_nil_of_length_eq_zero (by omega)⟩

theorem marks_middle (same : c.value given = c.number given) (none : c.middle given = []) : c.marks given = [] := by
  unfold Conversion.middle at none
  unfold marks
  by_cases marked : .hash ∈ c.flags ∧ c.letter.base = 16 ∧ c.number given ≠ 0
  · have other : ¬(c.letter.base = 8 ∧ (c.inner given).head? ≠ some 48) := by omega
    rw [if_pos marked.1, if_neg other, same, if_pos marked.2] at none
    cases none
  · exact if_neg marked

theorem numeral_counted (same : c.value given = c.number given) : (c.letter.numeral (c.number given).natAbs).length ≤ 22 := by
  have taken := getnum_taken (decide (.hash ∈ c.flags)) c.letter.signed c.modifier given.number
  have fits := getnum_lt given.number (flagWord (decide (.hash ∈ c.flags)) c.letter.signed c.modifier)
  rw [taken] at fits
  rw [← same]
  exact numeral_short (base_bounds c.letter).2.1 c.letter.digs fits

/-- More digits than the buffer is made for are put only as zeros that fill a field of so many characters. -/
theorem long_right (short : (c.text given).length ≤ MAXPREC) (same : c.printed given o = c.prescribed given)
    (long : MAXPREC < (c.atLeast given).getD 0) :
    zeroed false c.flags ∧ (.minus ∈ c.flags → c.width = .star) ∧ c.columns given = (c.atLeast given).getD 0 := by
  have limit : MAXPREC = 50 := rfl
  have small := precision_small short same
  have read := read_precision small
  have value := value_same same
  obtain ⟨front, middle⟩ := long_text short read long
  have marks := marks_middle value middle
  obtain ⟨width, digits_positive, columns⟩ := columns_read given (width_held short same)
  obtain ⟨digits, digits'⟩ := figures_length c given
  have length := length_same same
  have right := right_same same
  have blanks := blanks_count same
  have some : c.atLeast given ≠ none := by
    intro none
    rw [none] at long
    exact absurd long (by decide)
  have filler : c.filler given = 32 := if_neg fun all => some all.2.2
  have total : c.least given = (c.signs given).length + (c.marks given).length + (c.figures given).length := by
    rw [Conversion.least, List.length_append, List.length_append]
  have counted := numeral_counted value
  have signs : c.signs given = [] := by
    rw [front_parts value (plus_wrong same)] at front
    split at front
    · cases front
    · exact front
  rw [front, signs, filler, if_pos rfl, List.count_nil] at blanks
  rw [marks, signs, List.length_nil] at total
  unfold gap pad at right blanks
  have wide : (c.columnsRead given).natAbs = max (c.least given) (c.columns given).natAbs := by omega
  have positive : ¬c.columnsRead given < 0 := by
    intro negative
    rw [if_pos negative] at right
    split at right <;> omega
  have zero : c.fillRead ≠ 32 := by
    intro blank
    rw [if_pos (.inr blank)] at blanks
    omega
  rw [if_neg (fun either => either.elim positive zero)] at blanks
  have exact : c.columnsRead given = (c.atLeast given).getD 0 := by omega
  have right : ¬(.minus ∈ c.flags ∧ c.width ≠ .star) := by
    intro both
    rw [if_pos both] at width
    have nonneg := digits_positive both.2
    omega
  rw [if_neg right] at width
  refine ⟨?_, ?_, width.symm.trans exact⟩
  · apply Bool.of_not_eq_false
    intro other
    exact zero (by rw [fillRead, other]; rfl)
  · intro minus
    apply Classical.by_contradiction
    intro other
    exact right ⟨minus, other⟩

theorem zeroed_zero {fs : List Flag} (right : .minus ∉ fs) : zeroed false fs = true ↔ .zero ∈ fs := by
  induction fs with
  | nil => exact ⟨nofun, nofun⟩
  | cons f fs ih =>
    have later := ih fun member => right (List.mem_cons_of_mem f member)
    cases f with
    | minus => exact absurd List.mem_cons_self right
    | zero => simp [zeroed]
    | _ => simpa [zeroed] using later

/-- The text where the buffer has room for the precision. -/
theorem text_parts (value : c.value given = c.number given) (plain : c.letter.signed = false → .plus ∉ c.flags)
    (fits : (c.atLeast given).getD 0 ≤ MAXPREC) (shown : c.atLeast given = some 0 → c.number given = 0 → .hash ∈ c.flags ∧ c.letter.base = 8) :
    c.text given = (if c.Blank then [32] else c.signs given) ++ (c.marks given ++ c.figures given) := by
  have limit : MAXPREC = 50 := rfl
  have read : c.precision.read given.precision = c.atLeast given := read_precision (by omega)
  rw [text, inner_same value read fits shown, front_parts value plain]

theorem text_length (value : c.value given = c.number given) (plain : c.letter.signed = false → .plus ∉ c.flags)
    (fits : (c.atLeast given).getD 0 ≤ MAXPREC) (shown : c.atLeast given = some 0 → c.number given = 0 → .hash ∈ c.flags ∧ c.letter.base = 8) :
    (c.text given).length = c.least given + if c.Blank then 1 else 0 := by
  rw [text_parts value plain fits shown, least]
  by_cases blank : c.Blank
  · rw [if_pos blank, if_pos blank, signs_blank given blank, List.nil_append, List.cons_append, List.length_cons, List.nil_append]
  · rw [if_neg blank, if_neg blank, List.append_assoc]
    rfl

theorem blank_right (short : (c.text given).length ≤ MAXPREC) (same : c.printed given o = c.prescribed given)
    (fits : (c.atLeast given).getD 0 ≤ MAXPREC) (blank : c.Blank) :
    ¬c.justified given ∧ c.least given < c.columns given ∧
      (.zero ∈ c.flags → c.atLeast given ≠ none ∧ c.columns given = c.least given + 1) := by
  have value := value_same same
  have plain := plus_wrong same
  obtain ⟨width, positive, columns⟩ := columns_read given (width_held short same)
  have text := text_length value plain fits (zero_wrong same)
  have length := length_same same
  have right := right_same same
  have blanks := blanks_count same
  rw [if_pos blank] at text
  rw [front_parts value plain, if_pos blank, signs_blank given blank] at blanks
  have magnitude : (c.columnsRead given).natAbs = (c.columns given).natAbs := by
    rw [width]
    split <;> omega
  have wide : c.least given < (c.columns given).natAbs := by omega
  unfold gap pad at right
  have unjustified : ¬c.justified given := by
    intro left
    rw [if_pos left] at right
    split at right <;> omega
  have unsigned : ¬c.columns given < 0 := fun negative => unjustified (.inr negative)
  refine ⟨unjustified, by omega, ?_⟩
  intro zero
  have minus : .minus ∉ c.flags := fun minus => unjustified (.inl minus)
  rw [if_neg (fun both => minus both.1)] at width
  have fill : c.fillRead = 48 := by
    rw [fillRead, (zeroed_zero minus).mpr zero]
    rfl
  rw [if_neg (by omega)] at blanks
  have one : ([32] : List Int).count 32 = 1 := rfl
  rw [one, List.count_nil] at blanks
  have some : c.atLeast given ≠ none := by
    intro none
    have filler : c.filler given = 48 := if_pos ⟨unjustified, zero, none⟩
    rw [filler, if_neg (by decide)] at blanks
    omega
  have filler : c.filler given = 32 := if_neg fun all => some all.2.2
  rw [filler, if_pos rfl, pad] at blanks
  exact ⟨some, by omega⟩

theorem field_right (short : (c.text given).length ≤ MAXPREC) (same : c.printed given o = c.prescribed given)
    (fits : (c.atLeast given).getD 0 ≤ MAXPREC) (plainly : ¬c.Blank) (wide : c.least given < (c.columns given).natAbs) :
    (.minus ∈ c.flags → c.width = .star → c.columns given < 0) ∧
      (¬c.justified given → .zero ∈ c.flags → c.atLeast given = none ∧ c.signs given ≠ [32]) := by
  have value := value_same same
  have plain := plus_wrong same
  obtain ⟨width, positive, columns⟩ := columns_read given (width_held short same)
  have text := text_length value plain fits (zero_wrong same)
  have parts := text_parts value plain fits (zero_wrong same)
  have right := right_same same
  have blanks := blanks_count same
  rw [if_neg plainly] at text parts
  rw [front_parts value plain, if_neg plainly] at blanks
  unfold gap pad at right
  refine ⟨?_, ?_⟩
  · intro minus star
    have left : c.justified given := .inl minus
    rw [if_neg (fun both => both.2 star)] at width
    rw [if_pos left] at right
    split at right <;> omega
  · intro unjustified zero
    have minus : .minus ∉ c.flags := fun minus => unjustified (.inl minus)
    have unsigned : ¬c.columns given < 0 := fun negative => unjustified (.inr negative)
    rw [if_neg (fun both => minus both.1)] at width
    have fill : c.fillRead = 48 := by
      rw [fillRead, (zeroed_zero minus).mpr zero]
      rfl
    rw [if_neg (by omega)] at blanks
    have none : c.atLeast given = none := by
      apply Classical.by_contradiction
      intro some
      have filler : c.filler given = 32 := if_neg fun all => some all.2.2
      rw [filler, if_pos rfl, pad] at blanks
      omega
    refine ⟨none, ?_⟩
    -- the zeros are put in front of a blank, and are to be put behind it
    intro blank
    obtain ⟨k, more⟩ : ∃ k, gap (c.text given) (c.columnsRead given) = k + 1 := by
      refine ⟨(c.columns given).natAbs - c.least given - 1, ?_⟩
      rw [gap, width]
      omega
    have first : prefixLength o (c.text given) 48 = 0 := by
      rw [parts, blank]
      rfl
    have put : (c.printed given o).head? = some 48 := by
      unfold printed
      rw [if_neg (by omega), fill, first, more]
      rfl
    have asked : (c.prescribed given).head? = some 32 := by
      rw [prescribed_field, if_neg unjustified, if_pos ⟨zero, none⟩, blank]
      rfl
    rw [same, asked] at put
    exact absurd put (by decide)

/-- The characters are as prescribed only where the conversion is one of the right ones. -/
theorem right_of_same (short : (c.text given).length ≤ MAXPREC) (same : c.printed given o = c.prescribed given) : c.Right given := by
  have value := value_same same
  have plain := plus_wrong same
  have shown := zero_wrong same
  refine ⟨value_iff.mp value, plain, shown, width_held short same, ?_, long_right short same, blank_right short same, field_right short same⟩
  have limit : MAXPREC = 50 := rfl
  by_cases fits : (c.atLeast given).getD 0 ≤ MAXPREC
  · have text := text_length value plain fits shown
    have digits := (figures_length c given).1
    rw [least, List.length_append, List.length_append] at text
    by_cases blank : c.Blank
    · rw [if_pos blank] at text ⊢
      omega
    · rw [if_neg blank] at text ⊢
      omega
  · have long : MAXPREC < (c.atLeast given).getD 0 := by omega
    obtain ⟨front, middle⟩ := long_text short (read_precision (precision_small short same)) long
    rw [front_parts value plain] at front
    rw [marks_middle value middle, List.length_nil]
    by_cases blank : c.Blank
    · rw [if_pos blank] at front
      cases front
    · rw [if_neg blank] at front ⊢
      rw [front, List.length_nil]
      omega

/-! ## What the condition gives -/

/-- Without characters that fill the field, the text is put. -/
theorem printed_text (o : Outside) (narrow : (c.columnsRead given).natAbs ≤ (c.text given).length) : c.printed given o = c.text given := by
  have none : gap (c.text given) (c.columnsRead given) = 0 := Nat.sub_eq_zero_of_le narrow
  unfold printed
  rw [none]
  split
  · rw [List.replicate_zero, List.append_nil, ← text_split]
  · rw [List.replicate_zero, List.nil_append, ← List.append_assoc, List.take_append_drop, ← text_split]

theorem prescribed_text (narrow : (c.columns given).natAbs ≤ c.least given) :
    c.prescribed given = c.signs given ++ (c.marks given ++ c.figures given) := by
  have none : c.pad given = 0 := Nat.sub_eq_zero_of_le narrow
  rw [prescribed_field, none]
  split
  · simp only [List.replicate_zero, List.append_nil, List.append_assoc]
  · split
    · simp only [List.replicate_zero, List.append_nil, List.append_assoc]
    · simp only [List.replicate_zero, List.nil_append, List.append_assoc]

/-- A field that is filled on the left. -/
theorem printed_left (positive : ¬c.columnsRead given < 0) : c.printed given o = (c.text given).take (prefixLength o (c.text given) c.fillRead) ++
    (List.replicate (gap (c.text given) (c.columnsRead given)) c.fillRead ++ (c.text given).drop (prefixLength o (c.text given) c.fillRead)) := by
  have le : prefixLength o (c.text given) c.fillRead ≤ (c.lead given).length := by
    rw [text_split]
    exact prefixLength_leads o _ (fun ch => numeral_figure c.letter) (numeral_ne_nil _ _ _) _
  unfold printed
  rw [if_neg positive]
  generalize prefixLength o (c.text given) c.fillRead = n at le
  rw [text_split, List.take_append_of_le_length le, List.drop_append_of_le_length le]

/-! A precision that is more than the buffer is made for. -/

theorem zeros_head {ds : List Int} {n : Nat} (more : ds.length < n) : (List.replicate (n - ds.length) 48 ++ ds).head? = some 48 := by
  obtain ⟨k, next⟩ : ∃ k, n - ds.length = k + 1 := ⟨_, (Nat.succ_pred (by omega)).symm⟩
  rw [next]
  rfl

theorem long_inner (value : c.value given = c.number given) (read : c.precision.read given.precision = c.atLeast given)
    (long : MAXPREC < (c.atLeast given).getD 0) : c.inner given =
      List.replicate (50 - (c.letter.numeral (c.number given).natAbs).length) 48 ++ c.letter.numeral (c.number given).natAbs := by
  have limited : min ((c.atLeast given).getD 0) MAXPREC = 50 := Nat.min_eq_right (Nat.le_of_lt long)
  rw [← value, ← limited, ← read]
  rfl

theorem long_figures (value : c.value given = c.number given) (long : MAXPREC < (c.atLeast given).getD 0) : c.figures given =
    List.replicate ((c.atLeast given).getD 0 - (c.letter.numeral (c.number given).natAbs).length) 48 ++ c.letter.numeral (c.number given).natAbs := by
  have limit : MAXPREC = 50 := rfl
  have counted := numeral_counted value
  cases given_precision : c.atLeast given with
  | none =>
    rw [given_precision] at long
    exact absurd long (by decide)
  | some n =>
    rw [given_precision] at long
    change MAXPREC < n at long
    have shown : ¬(c.atLeast given = some 0 ∧ c.number given = 0) := by
      rw [given_precision]
      intro both
      have zero := Option.some.inj both.1
      omega
    have digits : c.significant given = c.letter.numeral (c.number given).natAbs := if_neg shown
    have more : (c.letter.numeral (c.number given).natAbs).length < n := by omega
    rw [figures_whole, digits, given_precision]
    exact if_neg fun all => all.2.2 (zeros_head more)

/-- There is no prefix where there is room for the digits only. -/
theorem long_middle (value : c.value given = c.number given) (read : c.precision.read given.precision = c.atLeast given)
    (long : MAXPREC < (c.atLeast given).getD 0) (marks : c.marks given = []) : c.middle given = [] := by
  have counted := numeral_counted value
  have octal : ¬(c.letter.base = 8 ∧ (c.inner given).head? ≠ some 48) := by
    rw [long_inner value read long]
    exact fun both => both.2 (zeros_head (by omega))
  by_cases hash : Flag.hash ∈ c.flags
  · have hexadecimal : ¬(c.letter.base = 16 ∧ c.value given ≠ 0) := by
      intro both
      rw [value] at both
      have marked : c.marks given = [48, c.letter.digs.getD 16 0] := if_pos ⟨hash, both⟩
      rw [marks] at marked
      cases marked
    rw [Conversion.middle, if_pos hash, if_neg octal, if_neg hexadecimal]
  · rw [Conversion.middle, if_neg hash]

/-- The zeros that fill a field of as many characters are those that the buffer has no room for. -/
theorem same_of_long (right : c.Right given) (long : MAXPREC < (c.atLeast given).getD 0) :
    (c.text given).length ≤ MAXPREC ∧ c.printed given o = c.prescribed given := by
  obtain ⟨zero, star, columns⟩ := right.long long
  have limit : MAXPREC = 50 := rfl
  have room := right.room
  have value := value_iff.mpr right.held
  have counted := numeral_counted value
  obtain ⟨width, -, -⟩ := columns_read given right.width
  rw [if_neg (fun both => both.2 (star both.1))] at width
  have bound := (columnsRead_bounds c given).2
  have small : (c.atLeast given).getD 0 < 2 ^ 31 := by omega
  have read := read_precision small
  have marks : c.marks given = [] := List.eq_nil_of_length_eq_zero (by omega)
  have plainly : ¬c.Blank := by
    intro blank
    rw [if_pos blank] at room
    omega
  rw [if_neg plainly] at room
  have signs : c.signs given = [] := List.eq_nil_of_length_eq_zero (by omega)
  have front : c.front given = [] := by rw [front_parts value right.unsigned, if_neg plainly, signs]
  have middle := long_middle value read long marks
  have inner := long_inner value read long
  have figures := long_figures value long
  have text : (c.text given).length = 50 := by
    rw [Conversion.text, front, middle, inner, List.nil_append, List.nil_append, List.length_append, List.length_replicate]
    omega
  refine ⟨by omega, ?_⟩
  have total : c.least given = (c.atLeast given).getD 0 := by
    rw [least, signs, marks, figures, List.nil_append, List.nil_append, List.length_append, List.length_replicate]
    omega
  have lead : c.lead given = List.replicate (50 - (c.letter.numeral (c.number given).natAbs).length) 48 := by
    have limited : min ((c.atLeast given).getD 0) MAXPREC = 50 := by omega
    rw [Conversion.lead, front, middle, read, limited, value, List.nil_append, List.nil_append]
  have fill : c.fillRead = 48 := by
    rw [fillRead, zero]
    rfl
  have le : prefixLength o (c.text given) 48 ≤ 50 - (c.letter.numeral (c.number given).natAbs).length := by
    have most := prefixLength_leads o (c.lead given) (fun ch => numeral_figure c.letter (v := (c.value given).natAbs)) (numeral_ne_nil _ _ _) 48
    rw [← text_split, lead, List.length_replicate] at most
    exact most
  have narrow : (c.columns given).natAbs ≤ c.least given := by omega
  rw [prescribed_text narrow, signs, marks, figures]
  unfold printed
  rw [if_neg (by omega), fill, lead, value, gap, text, width, columns, Int.natAbs_natCast, List.take_replicate, List.drop_replicate, Nat.min_eq_left le]
  simp only [List.nil_append, ← List.append_assoc, List.replicate_append_replicate]
  congr 2
  omega

/-! A precision that the buffer is made for. -/

theorem marks_length (c : Conversion) (given : Given) : (c.marks given).length ≤ 2 := by
  unfold marks
  split
  · exact Nat.le_refl 2
  · exact Nat.zero_le 2

theorem text_short (right : c.Right given) (fits : (c.atLeast given).getD 0 ≤ MAXPREC) : (c.text given).length ≤ MAXPREC := by
  have limit : MAXPREC = 50 := rfl
  have room := right.room
  have value := value_iff.mpr right.held
  have counted := numeral_counted value
  have digits := (figures_length c given).2
  have marks := marks_length c given
  have signs : (if c.Blank then 1 else (c.signs given).length) ≤ 1 := by
    split
    · exact Nat.le_refl 1
    · unfold Conversion.signs
      split
      · split
        · exact Nat.le_refl 1
        · split
          · exact Nat.le_refl 1
          · split <;> decide
      · exact Nat.zero_le 1
  have parts : (if c.Blank then ([32] : List Int) else c.signs given).length = if c.Blank then 1 else (c.signs given).length := by
    split <;> rfl
  rw [text_parts value right.unsigned fits right.shown, List.length_append, parts, List.length_append]
  omega

/-- A blank that is part of the text is one of those on the left of it. -/
theorem same_of_blank (right : c.Right given) (fits : (c.atLeast given).getD 0 ≤ MAXPREC) (blank : c.Blank) :
    c.printed given o = c.prescribed given := by
  obtain ⟨unjustified, wide, zero⟩ := right.blank fits blank
  have value := value_iff.mpr right.held
  have minus : .minus ∉ c.flags := fun minus => unjustified (.inl minus)
  have parts := text_parts value right.unsigned fits right.shown
  have length := text_length value right.unsigned fits right.shown
  obtain ⟨width, -, -⟩ := columns_read given right.width
  rw [if_neg (fun both => minus both.1)] at width
  rw [if_pos blank] at parts length
  have signs := signs_blank given blank
  by_cases filled : Flag.zero ∈ c.flags
  · obtain ⟨some, one⟩ := zero filled
    have pad : c.pad given = 1 := by
      unfold Conversion.pad
      omega
    rw [printed_text o (by omega), parts, prescribed_field, if_neg unjustified, if_neg (fun both => some both.2), pad, signs, List.append_nil,
      List.append_assoc]
    rfl
  · have fill : c.fillRead = 32 := by
      have none : zeroed false c.flags = false := Bool.eq_false_iff.mpr fun found => filled ((zeroed_zero minus).mp found)
      rw [fillRead, none]
      rfl
    have pad : c.pad given = gap (c.text given) (c.columnsRead given) + 1 := by
      unfold Conversion.pad gap
      omega
    have first : prefixLength o (c.text given) 32 = 0 := rfl
    rw [printed_left (by omega), fill, first, List.take_zero, List.drop_zero, List.nil_append, prescribed_field, if_neg unjustified,
      if_neg (fun both => filled both.1), pad, signs, List.append_nil, List.replicate_succ']
    simp only [List.append_assoc]
    rw [← parts]

theorem signed_base (l : Letter) (signed : l.signed = true) : l.base = 10 := by
  cases l with
  | d => rfl
  | i => rfl
  | _ => cases signed

/-- The zeros are put behind the sign and the prefix. -/
theorem prefixLength_exact (o : Outside) (shown : c.atLeast given = some 0 → c.number given = 0 → .hash ∈ c.flags ∧ c.letter.base = 8)
    (no_blank : c.signs given ≠ [32]) :
    prefixLength o (c.signs given ++ c.marks given ++ c.figures given) 48 = (c.signs given ++ c.marks given).length := by
  have some := figures_nonempty shown
  cases signed : c.letter.signed with
  | false =>
    rw [signs_unsigned signed, List.nil_append]
    by_cases marked : .hash ∈ c.flags ∧ c.letter.base = 16 ∧ c.number given ≠ 0
    · have marks : c.marks given = [48, c.letter.digs.getD 16 0] := if_pos marked
      have letter : toupper o (c.letter.digs.getD 16 0) = 88 := by
        rcases mark_digs c.letter with upper | lower
        · rw [upper]
          rfl
        · rw [lower]
          rfl
      rw [marks]
      unfold prefixLength
      rw [if_pos rfl, if_neg (by simp), if_pos ⟨rfl, letter⟩]
      rfl
    · have marks : c.marks given = [] := if_neg marked
      have none := prefixLength_leads o [] (fun _ => figures_figure) some 48
      rw [marks]
      exact Nat.le_zero.mp none
  | true =>
    have marks : c.marks given = [] := if_neg fun all => absurd (all.2.1.symm.trans (signed_base c.letter signed)) (by decide)
    rw [marks, List.append_nil]
    unfold signs at no_blank ⊢
    rw [signed, if_pos rfl] at no_blank ⊢
    split
    · rfl
    · split
      · rfl
      · split
        · simp_all
        · exact Nat.le_zero.mp (prefixLength_leads o [] (fun _ => figures_figure) some 48)

theorem same_of_field (right : c.Right given) (fits : (c.atLeast given).getD 0 ≤ MAXPREC) (plainly : ¬c.Blank) :
    c.printed given o = c.prescribed given := by
  have value := value_iff.mpr right.held
  have parts := text_parts value right.unsigned fits right.shown
  have length := text_length value right.unsigned fits right.shown
  rw [if_neg plainly] at parts length
  obtain ⟨width, positive, -⟩ := columns_read given right.width
  have magnitude : (c.columnsRead given).natAbs = (c.columns given).natAbs := by
    rw [width]
    split <;> omega
  by_cases wide : c.least given < (c.columns given).natAbs
  · obtain ⟨star, zeros⟩ := right.field fits plainly wide
    have pad : gap (c.text given) (c.columnsRead given) = c.pad given := by
      unfold gap Conversion.pad
      omega
    by_cases left : c.justified given
    · have negative : c.columnsRead given < 0 := by
        by_cases settled : .minus ∈ c.flags ∧ c.width ≠ .star
        · have nonneg := positive settled.2
          rw [if_pos settled] at width
          omega
        · rw [if_neg settled] at width
          rcases left with minus | negative
          · have kind : c.width = .star := Classical.by_contradiction fun other => settled ⟨minus, other⟩
            have negative := star minus kind
            omega
          · omega
      unfold printed
      rw [if_pos negative, pad, ← List.append_assoc, ← text_split, parts, prescribed_field, if_pos left]
      simp only [List.append_assoc]
    · have minus : .minus ∉ c.flags := fun minus => left (.inl minus)
      have unsigned : ¬c.columns given < 0 := fun negative => left (.inr negative)
      rw [if_neg (fun both => minus both.1)] at width
      rw [printed_left (by omega), pad, prescribed_field, if_neg left]
      by_cases filled : Flag.zero ∈ c.flags
      · obtain ⟨none, no_blank⟩ := zeros left filled
        have fill : c.fillRead = 48 := by
          rw [fillRead, (zeroed_zero minus).mpr filled]
          rfl
        have whole : c.text given = c.signs given ++ c.marks given ++ c.figures given := by rw [parts, List.append_assoc]
        rw [if_pos ⟨filled, none⟩, fill, whole, prefixLength_exact o right.shown no_blank, List.take_left, List.drop_left]
        simp only [List.append_assoc]
      · have fill : c.fillRead = 32 := by
          have none : zeroed false c.flags = false := Bool.eq_false_iff.mpr fun found => filled ((zeroed_zero minus).mp found)
          rw [fillRead, none]
          rfl
        have first : prefixLength o (c.text given) 32 = 0 := rfl
        rw [if_neg (fun both => filled both.1), fill, first, List.take_zero, List.drop_zero, List.nil_append, parts]
        simp only [List.append_assoc]
  · rw [printed_text o (by omega), prescribed_text (by omega), parts]

theorem same_of_right (right : c.Right given) : (c.text given).length ≤ MAXPREC ∧ c.printed given o = c.prescribed given := by
  by_cases fits : (c.atLeast given).getD 0 ≤ MAXPREC
  · refine ⟨text_short right fits, ?_⟩
    by_cases blank : c.Blank
    · exact same_of_blank right fits blank
    · exact same_of_field right fits blank
  · exact same_of_long right (Nat.lt_of_not_le fits)

/-! ## The conversion in a format -/

/-- The conversion is done, and the characters that are put are those that are prescribed. -/
def PutsRight (o : Outside) (c : Conversion) (given : Given) (rest : List Int) (args : List Arg) (cnt inc : Nat) : Prop :=
  ∃ n m, Runs (Machine.step o) n ⟨37 :: (c.chars ++ rest), c.args given ++ args, cnt, inc, .text⟩ ((c.prescribed given).map .put) m ∧
    m.fmt = rest ∧ m.args = args ∧ m.control = .text

variable {rest : List Int} {args : List Arg} {cnt inc : Nat}

theorem letter_step (o : Outside) (c : Conversion) (given : Given) (rest : List Int) (args : List Arg) (cnt inc : Nat) :
    Machine.step o ⟨c.letter.char :: rest, .word given.number :: args, cnt, inc, .flags (c.before given)⟩ =
      if (c.text given).length ≤ MAXPREC then
        .more ((c.printed given o).map .put)
          ⟨rest, args, cnt + (c.printed given o).length, (c.printed given o).length, .text⟩
      else .done .undefined := by
  change Machine.switch o _ _ c.letter.char = _
  rw [switch_letter]
  have converted : (c.letter.directive (c.before given)).convert given.number = room (c.text given) := convert_text c given
  unfold Machine.numeric
  dsimp only
  rw [converted]
  by_cases short : (c.text given).length ≤ MAXPREC
  · rw [room, if_pos short, if_pos short, ← strout_printed c given o short]
    rfl
  · rw [room, if_neg short, if_neg short]

theorem runs_shorter {n : Nat} {m next : Machine} {es : List Output} (run : Runs (Machine.step o) n m es next) :
    next.fmt.length + n ≤ m.fmt.length := by
  induction run with
  | refl => exact Nat.le_refl _
  | next step _ ih =>
    have shorter := (step_stepped step).shorter
    omega

theorem put_injective {out out' : List Int} (same : out.map Output.put = out'.map Output.put) : out = out' := by
  have injective : Function.Injective Output.put := fun _ _ same => Output.put.inj same
  exact List.map_injective_iff.mpr injective same

theorem puts_right (right : c.Right given) : PutsRight o c given rest args cnt inc := by
  obtain ⟨short, same⟩ := same_of_right (o := o) right
  obtain ⟨n, run⟩ := chars_run c given o rest args cnt inc
  have step := letter_step o c given rest args cnt inc
  rw [if_pos short, same] at step
  have whole := run.trans (.one step)
  exact ⟨_, _, whole, rfl, rfl, rfl⟩

theorem right_of_puts (puts : PutsRight o c given rest args cnt inc) : c.Right given := by
  obtain ⟨k, m, other, fmt, -, -⟩ := puts
  obtain ⟨n, run⟩ := chars_run c given o rest args cnt inc
  have step := letter_step o c given rest args cnt inc
  rcases run.compare other with ⟨i, es, -, events, later⟩ | ⟨i, es, -, -, later⟩
  · rw [List.nil_append] at events
    have shorter := runs_shorter later
    split at step
    · rename_i short
      cases later with
      | refl =>
        have longer : (c.letter.char :: rest).length = rest.length := congrArg List.length fmt
        rw [List.length_cons] at longer
        omega
      | @next _ next _ first last j first_step last_run =>
        obtain ⟨rfl, rfl⟩ := Next.more.inj (first_step.symm.trans step)
        have end_run := runs_shorter last_run
        rw [fmt] at end_run
        change rest.length + j ≤ rest.length at end_run
        have stopped : j = 0 := by omega
        subst stopped
        cases last_run
        rw [List.append_nil] at events
        exact right_of_same short (put_injective events).symm
    · obtain ⟨rfl, -, rfl⟩ := later.stopped step
      have longer : (c.letter.char :: rest).length = rest.length := congrArg List.length fmt
      rw [List.length_cons] at longer
      omega
  · have shorter := runs_shorter later
    rw [fmt] at shorter
    change rest.length + 1 + (i + 1) ≤ rest.length at shorter
    omega

/-- A conversion puts what is prescribed exactly where it is one of the right ones. -/
theorem putsRight_iff (o : Outside) (c : Conversion) (given : Given) (rest : List Int) (args : List Arg) (cnt inc : Nat) :
    PutsRight o c given rest args cnt inc ↔ c.Right given := ⟨right_of_puts, puts_right⟩

/-- `%hhd` of 200, which is -56 as a `signed char`. -/
theorem char_kept : ¬PutsRight ⟨fun _ => false, fun _ => false, fun _ => false⟩ ⟨[], .omitted, .omitted, .hh, .d⟩ ⟨0, 0, 200⟩ [] [] 0 0 := by
  intro puts
  have held := (right_of_puts puts).held rfl
  exact absurd (held.2 (by decide)) (by decide)

end Conversion

end Scc.Libc.Stdio.Printf
