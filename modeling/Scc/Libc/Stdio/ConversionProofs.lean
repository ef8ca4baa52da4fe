import Scc.Libc.Stdio.ConversionField

set_option linter.all false

/-! Where the characters that `vfprintf` puts for a number are those that the C standard prescribes. -/
namespace Scc.Libc.Stdio.Printf
open Text Transition

namespace Conversion
variable (c : Conversion) (given : Given)

/-! ## The condition -/

/-- A blank is put in front of a number that has no sign. -/
def Blank : Prop := c.letter.signed = false ∧ .space ∈ c.flags

instance : Decidable c.Blank := inferInstanceAs (Decidable (_ ∧ _))

/-- A width in digits that an `int` can hold, or that is on the left and one too large. -/
def WidthHeld : Prop := ∀ lead rest, c.width = .number lead rest →
  decimalValue (lead.succ :: rest) < 2 ^ 31 ∨ (decimalValue (lead.succ :: rest) = 2 ^ 31 ∧ .minus ∈ c.flags)

/-- The number of characters that are prescribed without a field width. -/
def least : Nat := (c.signs given ++ c.marks given ++ c.figures given).length

/-- The characters are put where they are to be: each part leaves out one kind of conversions that are put otherwise. -/
structure Right : Prop where
  held : Held c.letter.signed given.number c.modifier
  unsigned : c.letter.signed = false → .plus ∉ c.flags
  shown : c.atLeast given = some 0 → c.number given = 0 → .hash ∈ c.flags ∧ c.letter.base = 8
  width : c.WidthHeld
  room : min ((c.atLeast given).getD 0) MAXPREC + (c.marks given).length + (if c.Blank then 1 else (c.signs given).length) ≤ MAXPREC
  long : MAXPREC < (c.atLeast given).getD 0 →
    zeroed false c.flags ∧ (.minus ∈ c.flags → c.width = .star) ∧ c.columns given = (c.atLeast given).getD 0
  blank : (c.atLeast given).getD 0 ≤ MAXPREC → c.Blank →
    ¬c.justified given ∧ c.least given < c.columns given ∧ (.zero ∈ c.flags → c.atLeast given ≠ none ∧ c.columns given = c.least given + 1)
  field : (c.atLeast given).getD 0 ≤ MAXPREC → ¬c.Blank → c.least given < (c.columns given).natAbs →
    (.minus ∈ c.flags → c.width = .star → c.columns given < 0) ∧
      (¬c.justified given → .zero ∈ c.flags → c.atLeast given = none ∧ c.signs given ≠ [32])

/-! ## The parts -/

variable {c given} {ch : Int}

theorem signed_cases (c : Conversion) : c.signed = 43 ∨ c.signed = 32 ∨ c.signed = 0 := by
  unfold signed
  split
  · exact .inl rfl
  · split
    · exact .inr (.inl rfl)
    · exact .inr (.inr rfl)

theorem front_mem (member : ch ∈ c.front given) : ch = 45 ∨ ch = 43 ∨ ch = 32 := by
  have cases := signed_cases c
  unfold front at member
  split at member
  · exact .inl (List.mem_singleton.mp member)
  · split at member
    · have same := List.mem_singleton.mp member
      omega
    · cases member

theorem signs_mem (member : ch ∈ c.signs given) : ch = 45 ∨ ch = 43 ∨ ch = 32 := by
  unfold signs at member
  split at member
  · split at member
    · exact .inl (List.mem_singleton.mp member)
    · split at member
      · exact .inr (.inl (List.mem_singleton.mp member))
      · split at member
        · exact .inr (.inr (List.mem_singleton.mp member))
        · cases member
  · cases member

theorem mark_digs (l : Letter) : l.digs.getD 16 0 = 88 ∨ l.digs.getD 16 0 = 120 := by
  cases l with
  | x => exact .inr rfl
  | _ => exact .inl rfl

theorem middle_mem (member : ch ∈ c.middle given) : ch = 48 ∨ ch = 88 ∨ ch = 120 := by
  unfold middle at member
  split at member
  · split at member
    · exact .inl (List.mem_singleton.mp member)
    · split at member
      · rcases List.mem_cons.mp member with first | second
        · exact .inl first
        · rw [List.mem_singleton.mp second]
          exact .inr (mark_digs c.letter)
      · cases member
  · cases member

theorem marks_mem (member : ch ∈ c.marks given) : ch = 48 ∨ ch = 88 ∨ ch = 120 := by
  unfold marks at member
  split at member
  · rcases List.mem_cons.mp member with first | second
    · exact .inl first
    · rw [List.mem_singleton.mp second]
      exact .inr (mark_digs c.letter)
  · cases member

/-! ## What is put -/

variable (c given)

/-- The text before the first digit that is not from the precision. -/
def lead : List Int :=
  c.front given ++ (c.middle given ++
    List.replicate (min ((c.precision.read given.precision).getD 0) MAXPREC - (c.letter.numeral (c.value given).natAbs).length) 48)

theorem text_split : c.text given = c.lead given ++ c.letter.numeral (c.value given).natAbs := by
  rw [lead, List.append_assoc, List.append_assoc]
  rfl

theorem lead_leads : ∀ ch ∈ c.lead given, Lead ch := by
  intro ch member
  unfold Lead
  rcases List.mem_append.mp member with front | member
  · have sign := front_mem front
    omega
  rcases List.mem_append.mp member with middle | zero
  · have mark := middle_mem middle
    omega
  · have same := List.eq_of_mem_replicate zero
    omega

def columnsRead : Int := c.width.read (c.flags.contains .minus) given.width

theorem columnsRead_bounds : -2147483648 ≤ c.columnsRead given ∧ c.columnsRead given < 2147483648 := by
  unfold columnsRead
  cases c.width with
  | omitted =>
    change -2147483648 ≤ (0 : Int) ∧ (0 : Int) < 2147483648
    decide
  | number lead rest =>
    obtain ⟨k, same, least, most⟩ := int_spec (decimalValue (lead.succ :: rest))
    obtain ⟨k', same', least', most'⟩ := int_spec (-int (decimalValue (lead.succ :: rest)))
    rw [Width.read]
    split <;> omega
  | star =>
    have least := (given.width.setWidth 32).le_toInt
    have most := (given.width.setWidth 32).toInt_lt
    exact ⟨least, most⟩

/-- What fills the field on the left. -/
def fillRead : Int := bif zeroed false c.flags then 48 else 32

theorem fillRead_cases : c.fillRead = 48 ∨ c.fillRead = 32 := by
  unfold fillRead
  cases zeroed false c.flags
  · exact .inr rfl
  · exact .inl rfl

/-- The field that is put. -/
def printed (o : Outside) : List Int :=
  if c.columnsRead given < 0 then
    c.lead given ++ (c.letter.numeral (c.value given).natAbs ++ List.replicate (gap (c.text given) (c.columnsRead given)) 32)
  else
    (c.lead given).take (prefixLength o (c.text given) c.fillRead) ++ (List.replicate (gap (c.text given) (c.columnsRead given)) c.fillRead ++
      ((c.lead given).drop (prefixLength o (c.text given) c.fillRead) ++ c.letter.numeral (c.value given).natAbs))

theorem strout_printed (o : Outside) (short : (c.text given).length ≤ MAXPREC) :
    strout o (c.text given) (c.text given).length (c.read given).width (c.read given).fill = c.printed given o := by
  obtain ⟨least, most⟩ := columnsRead_bounds c given
  have nonempty := numeral_ne_nil c.letter.base (digit c.letter.digs) (c.value given).natAbs
  have whole := strout_field o (lead_leads c given) (fun ch => numeral_figure c.letter) nonempty (by rw [← text_split]; exact short) least most c.fillRead
  rw [← text_split] at whole
  rw [read_width, read_fill]
  exact whole

theorem printed_split (o : Outside) : ∃ pre, (∀ ch ∈ pre, Lead ch) ∧ c.printed given o =
    pre ++ (c.letter.numeral (c.value given).natAbs ++
      List.replicate (if c.columnsRead given < 0 then gap (c.text given) (c.columnsRead given) else 0) 32) := by
  have leads := lead_leads c given
  unfold printed
  split
  · exact ⟨_, leads, rfl⟩
  · refine ⟨(c.lead given).take (prefixLength o (c.text given) c.fillRead) ++ (List.replicate (gap (c.text given) (c.columnsRead given)) c.fillRead ++
      (c.lead given).drop (prefixLength o (c.text given) c.fillRead)), ?_, ?_⟩
    · intro ch member
      rcases List.mem_append.mp member with front | member
      · exact leads ch (List.mem_of_mem_take front)
      rcases List.mem_append.mp member with filled | behind
      · have same := List.eq_of_mem_replicate filled
        have cases := fillRead_cases c
        unfold Lead
        omega
      · exact leads ch (List.mem_of_mem_drop behind)
    · rw [List.replicate_zero, List.append_nil, List.append_assoc, List.append_assoc]

theorem printed_shows (o : Outside) : Shows c.letter (c.value given).natAbs (c.printed given o) := by
  obtain ⟨pre, leads, whole⟩ := printed_split c given o
  rw [whole]
  exact shows_number c.letter leads _ _

/-- The characters of the text, and those that fill the field. -/
theorem printed_count (o : Outside) (ch : Int) : (c.printed given o).count ch = (c.text given).count ch +
    (List.replicate (gap (c.text given) (c.columnsRead given)) (if c.columnsRead given < 0 then 32 else c.fillRead)).count ch := by
  have parts : (c.text given).count ch = ((c.lead given).take (prefixLength o (c.text given) c.fillRead)).count ch +
      ((c.lead given).drop (prefixLength o (c.text given) c.fillRead)).count ch + (c.letter.numeral (c.value given).natAbs).count ch := by
    rw [← List.count_append, List.take_append_drop, ← List.count_append, ← text_split]
  have whole : (c.text given).count ch = (c.lead given).count ch + (c.letter.numeral (c.value given).natAbs).count ch := by
    rw [← List.count_append, ← text_split]
  unfold printed
  split
  · rw [List.count_append, List.count_append]
    omega
  · rw [List.count_append, List.count_append, List.count_append]
    omega

theorem printed_length (o : Outside) : (c.printed given o).length = max (c.text given).length (c.columnsRead given).natAbs := by
  have whole : (c.text given).length = (c.lead given).length + (c.letter.numeral (c.value given).natAbs).length := by
    rw [← List.length_append, ← text_split]
  unfold printed gap
  split
  · simp only [List.length_append, List.length_replicate]
    omega
  · simp only [List.length_append, List.length_replicate, List.length_take, List.length_drop]
    omega

/-! ## What is prescribed -/

/-- The digits of the number; there are none of a 0 with the precision 0. -/
def significant : List Int := if c.atLeast given = some 0 ∧ c.number given = 0 then [] else c.letter.numeral (c.number given).natAbs

theorem figures_whole : c.figures given =
    let ds := List.replicate ((c.atLeast given).getD 1 - (c.significant given).length) 48 ++ c.significant given
    if .hash ∈ c.flags ∧ c.letter.base = 8 ∧ ds.head? ≠ some 48 then 48 :: ds else ds := rfl

theorem figures_split : ∃ k, c.figures given = List.replicate k 48 ++ c.significant given := by
  rw [figures_whole]
  dsimp only
  split
  · exact ⟨_ + 1, rfl⟩
  · exact ⟨_, rfl⟩

/-- How many characters are to fill the field, and which ones. -/
def pad : Nat := (c.columns given).natAbs - c.least given

def filler : Int := if ¬c.justified given ∧ .zero ∈ c.flags ∧ c.atLeast given = none then 48 else 32

theorem prescribed_field : c.prescribed given =
    if c.justified given then c.signs given ++ c.marks given ++ c.figures given ++ List.replicate (c.pad given) 32
    else if .zero ∈ c.flags ∧ c.atLeast given = none then
      c.signs given ++ c.marks given ++ List.replicate (c.pad given) 48 ++ c.figures given
    else List.replicate (c.pad given) 32 ++ c.signs given ++ c.marks given ++ c.figures given := rfl

theorem prescribed_split : ∃ pre, (∀ ch ∈ pre, Lead ch) ∧
    c.prescribed given = pre ++ (c.significant given ++ List.replicate (if c.justified given then c.pad given else 0) 32) := by
  obtain ⟨k, figures⟩ := figures_split c given
  have front : ∀ ch ∈ c.signs given ++ c.marks given, Lead ch := by
    intro ch member
    unfold Lead
    rcases List.mem_append.mp member with sign | mark
    · have range := signs_mem sign
      omega
    · have range := marks_mem mark
      omega
  have zeros : ∀ n, ∀ ch ∈ List.replicate n (48 : Int), Lead ch := by
    intro n ch member
    rw [List.eq_of_mem_replicate member]
    decide
  have blanks : ∀ n, ∀ ch ∈ List.replicate n (32 : Int), Lead ch := by
    intro n ch member
    rw [List.eq_of_mem_replicate member]
    decide
  rw [prescribed_field, figures]
  split
  · refine ⟨c.signs given ++ c.marks given ++ List.replicate k 48, List.forall_mem_append.mpr ⟨front, zeros k⟩, ?_⟩
    simp only [List.append_assoc]
  · rw [List.replicate_zero, List.append_nil]
    split
    · refine ⟨c.signs given ++ c.marks given ++ (List.replicate (c.pad given) 48 ++ List.replicate k 48), ?_, ?_⟩
      · exact List.forall_mem_append.mpr ⟨front, List.forall_mem_append.mpr ⟨zeros _, zeros k⟩⟩
      · simp only [List.append_assoc]
    · refine ⟨List.replicate (c.pad given) 32 ++ ((c.signs given ++ c.marks given) ++ List.replicate k 48), ?_, ?_⟩
      · exact List.forall_mem_append.mpr ⟨blanks _, List.forall_mem_append.mpr ⟨front, zeros k⟩⟩
      · simp only [List.append_assoc]

theorem prescribed_shows : Shows c.letter (c.number given).natAbs (c.prescribed given) := by
  obtain ⟨pre, leads, whole⟩ := prescribed_split c given
  rw [whole]
  unfold significant
  split
  · rename_i none
    unfold Shows
    rw [none.2, core_lead leads, List.nil_append, core_blanks]
    rfl
  · exact shows_number c.letter leads _ _

theorem prescribed_count (ch : Int) : (c.prescribed given).count ch =
    (c.signs given).count ch + (c.marks given).count ch + (c.figures given).count ch + (List.replicate (c.pad given) (c.filler given)).count ch := by
  rw [prescribed_field]
  unfold filler
  split
  · rename_i left
    rw [if_neg (fun all => all.1 left)]
    simp only [List.count_append]
  · rename_i right
    split
    · rename_i zero
      rw [if_pos ⟨right, zero⟩]
      simp only [List.count_append]
      omega
    · rename_i other
      rw [if_neg (fun all => other all.2)]
      simp only [List.count_append]
      omega

theorem prescribed_length : (c.prescribed given).length = max (c.least given) (c.columns given).natAbs := by
  rw [prescribed_field]
  unfold pad least
  split
  · simp only [List.length_append, List.length_replicate]
    omega
  · split
    · simp only [List.length_append, List.length_replicate]
      omega
    · simp only [List.length_append, List.length_replicate]
      omega

/-! ## The number -/

variable {c given}

theorem inner_figure (member : ch ∈ c.inner given) : Figure ch := by
  rcases List.mem_append.mp member with zero | digit
  · rw [List.eq_of_mem_replicate zero]
    decide
  · exact numeral_figure c.letter digit

theorem significant_figure (member : ch ∈ c.significant given) : Figure ch := by
  unfold significant at member
  split at member
  · cases member
  · exact numeral_figure c.letter member

theorem figures_figure (member : ch ∈ c.figures given) : Figure ch := by
  obtain ⟨k, whole⟩ := figures_split c given
  rw [whole] at member
  rcases List.mem_append.mp member with zero | digit
  · rw [List.eq_of_mem_replicate zero]
    decide
  · exact significant_figure digit

/-- A character that is in none of the digits and the prefixes. -/
theorem sign_count (c : Conversion) (given : Given) (sign : ch = 32 ∨ ch = 43 ∨ ch = 45) : (c.text given).count ch = (c.front given).count ch ∧
    (c.marks given).count ch = 0 ∧ (c.figures given).count ch = 0 := by
  have digit : ¬Figure ch := by
    unfold Figure
    omega
  have middle : ch ∉ c.middle given := by
    intro member
    have mark := middle_mem member
    omega
  have marks : ch ∉ c.marks given := by
    intro member
    have mark := marks_mem member
    omega
  refine ⟨?_, List.count_eq_zero_of_not_mem marks, List.count_eq_zero_of_not_mem fun member => digit (figures_figure member)⟩
  rw [text, List.count_append, List.count_append, List.count_eq_zero_of_not_mem middle,
    List.count_eq_zero_of_not_mem fun member => digit (inner_figure member)]
  rfl

theorem fill_count {n : Nat} {f : Int} (fill : f = 48 ∨ f = 32) (other : ch = 43 ∨ ch = 45) : (List.replicate n f).count ch = 0 := by
  apply List.count_eq_zero_of_not_mem
  intro member
  have same := List.eq_of_mem_replicate member
  omega

theorem filler_cases (c : Conversion) (given : Given) : c.filler given = 48 ∨ c.filler given = 32 := by
  unfold filler
  split
  · exact .inl rfl
  · exact .inr rfl

/-- The signs that are put and those that are prescribed. -/
theorem signs_same {o : Outside} (same : c.printed given o = c.prescribed given) (sign : ch = 43 ∨ ch = 45) :
    (c.front given).count ch = (c.signs given).count ch := by
  have put := printed_count c given o ch
  have asked := prescribed_count c given ch
  obtain ⟨text, marks, figures⟩ := sign_count c given (.inr sign)
  have fill : (if c.columnsRead given < 0 then 32 else c.fillRead) = 48 ∨ (if c.columnsRead given < 0 then 32 else c.fillRead) = 32 := by
    split
    · exact .inr rfl
    · exact fillRead_cases c
  rw [fill_count fill sign, text] at put
  rw [fill_count (filler_cases c given) sign, marks, figures] at asked
  rw [same] at put
  omega

theorem number_unsigned (given : Given) (unsigned : c.letter.signed = false) : 0 ≤ c.number given := by
  unfold number
  rw [unsigned, if_neg Bool.false_ne_true]
  exact Int.natCast_nonneg _

theorem front_minus : (c.front given).count 45 = if c.value given < 0 then 1 else 0 := by
  have cases := signed_cases c
  unfold front
  split
  · rfl
  · split
    · rw [List.count_singleton]
      exact if_neg (by simp; omega)
    · rfl

theorem signs_minus : (c.signs given).count 45 = if c.number given < 0 then 1 else 0 := by
  unfold signs
  cases signed : c.letter.signed with
  | false =>
    have positive := number_unsigned given signed
    rw [if_neg Bool.false_ne_true, if_neg (by omega)]
    rfl
  | true =>
    rw [if_pos rfl]
    split
    · rfl
    · split
      · rfl
      · split <;> rfl

/-- The number that is put is the one that is to be put. -/
theorem value_same {o : Outside} (same : c.printed given o = c.prescribed given) : c.value given = c.number given := by
  have put := printed_shows c given o
  rw [same] at put
  have magnitude := shows_unique c.letter put (prescribed_shows c given)
  have sign := signs_same same (.inr rfl)
  rw [front_minus, signs_minus] at sign
  split at sign <;> split at sign <;> omega

theorem value_iff : c.value given = c.number given ↔ Held c.letter.signed given.number c.modifier := taken_iff c.letter.signed c.modifier given.number

/-! ## The text that is prescribed -/

theorem signs_unsigned (unsigned : c.letter.signed = false) : c.signs given = [] := by
  unfold signs
  rw [unsigned, if_neg Bool.false_ne_true]

theorem front_signed (same : c.value given = c.number given) (signed : c.letter.signed = true) : c.front given = c.signs given := by
  unfold front signs Conversion.signed
  rw [same, signed, if_pos rfl]
  split
  · rfl
  · split
    · rfl
    · split <;> rfl

theorem front_unsigned (same : c.value given = c.number given) (unsigned : c.letter.signed = false) (plain : .plus ∉ c.flags) :
    c.front given = if c.Blank then [32] else [] := by
  have positive := number_unsigned given unsigned
  have nonneg : ¬c.value given < 0 := by omega
  unfold front Conversion.signed
  rw [if_neg nonneg, if_neg plain]
  by_cases space : Flag.space ∈ c.flags
  · have blank : c.Blank := ⟨unsigned, space⟩
    rw [if_pos space, if_pos blank]
    rfl
  · have none : ¬c.Blank := fun both => space both.2
    rw [if_neg space, if_neg none]
    rfl

/-- A `+` is put in front of an unsigned number. -/
theorem plus_wrong {o : Outside} (same : c.printed given o = c.prescribed given) (unsigned : c.letter.signed = false) : .plus ∉ c.flags := by
  intro plus
  have value := value_same same
  have positive := number_unsigned given unsigned
  have nonneg : ¬c.value given < 0 := by omega
  have front : c.front given = [43] := by
    unfold Conversion.front Conversion.signed
    rw [if_neg nonneg, if_pos plus]
    rfl
  have sign := signs_same same (.inl rfl)
  rw [front, signs_unsigned unsigned] at sign
  exact absurd sign (by decide)

/-- A zero is put with the precision 0. -/
theorem zero_wrong {o : Outside} (same : c.printed given o = c.prescribed given) (least : c.atLeast given = some 0) (zero : c.number given = 0) :
    .hash ∈ c.flags ∧ c.letter.base = 8 := by
  apply Classical.by_contradiction
  intro other
  have value := (value_same same).trans zero
  have figures : c.figures given = [] := by
    have none : c.significant given = [] := if_pos ⟨least, zero⟩
    rw [figures_whole, none, least, if_neg (fun all => other ⟨all.1, all.2.1⟩)]
    rfl
  have marks : c.marks given = [] := if_neg fun all => all.2.2 zero
  have signs : (c.signs given).count 48 = 0 := by
    apply List.count_eq_zero_of_not_mem
    intro member
    have sign := signs_mem member
    omega
  have filler : c.filler given = 32 := by
    unfold Conversion.filler
    rw [least]
    exact if_neg fun all => nomatch all.2.2
  have asked := prescribed_count c given 48
  rw [signs, marks, figures, filler, List.count_eq_zero_of_not_mem (fun member => absurd (List.eq_of_mem_replicate member) (by decide))] at asked
  have put : 0 < (c.printed given o).count 48 := by
    rw [printed_count, text_split, value, List.count_append]
    have one : (c.letter.numeral (0 : Int).natAbs).count 48 = 1 := by
      rw [Int.natAbs_zero, numeral_zero]
      rfl
    omega
  rw [same, asked] at put
  exact absurd put (by decide)

theorem numeral_positive (l : Letter) (v : Nat) : 0 < (l.numeral v).length := List.length_pos_iff.mpr (numeral_ne_nil l.base (digit l.digs) v)

/-- The digits and the prefix, where the buffer has room for the precision. -/
theorem inner_same (same : c.value given = c.number given) (read : c.precision.read given.precision = c.atLeast given)
    (fits : (c.atLeast given).getD 0 ≤ MAXPREC) (shown : c.atLeast given = some 0 → c.number given = 0 → .hash ∈ c.flags ∧ c.letter.base = 8) :
    c.middle given ++ c.inner given = c.marks given ++ c.figures given := by
  have positive := numeral_positive c.letter (c.number given).natAbs
  have inner : c.inner given = List.replicate (min ((c.atLeast given).getD 0) MAXPREC - (c.letter.numeral (c.number given).natAbs).length) 48 ++
      c.letter.numeral (c.number given).natAbs := by
    rw [← same, ← read]
    rfl
  by_cases none : c.atLeast given = some 0 ∧ c.number given = 0
  · obtain ⟨hash, octal⟩ := shown none.1 none.2
    have figures : c.figures given = [48] := by
      have empty : c.significant given = [] := if_pos none
      rw [figures_whole, empty, none.1, if_pos ⟨hash, octal, nofun⟩]
      rfl
    have digit : c.inner given = [48] := by
      rw [inner, none.1, none.2, Int.natAbs_zero, numeral_zero]
      rfl
    have middle : c.middle given = [] := by
      unfold Conversion.middle
      rw [digit, if_pos hash, if_neg (fun both => both.2 rfl), if_neg (by omega)]
    have marks : c.marks given = [] := if_neg (by omega)
    rw [figures, digit, middle, marks]
  · have significant : c.significant given = c.letter.numeral (c.number given).natAbs := if_neg none
    have zeros : (c.atLeast given).getD 1 - (c.letter.numeral (c.number given).natAbs).length =
        min ((c.atLeast given).getD 0) MAXPREC - (c.letter.numeral (c.number given).natAbs).length := by
      cases least : c.atLeast given with
      | none =>
        change 1 - _ = min 0 MAXPREC - _
        omega
      | some n =>
        rw [least] at fits
        change n ≤ MAXPREC at fits
        change n - _ = min n MAXPREC - _
        omega
    rw [figures_whole, significant, zeros, ← inner]
    unfold Conversion.middle Conversion.marks
    rw [same]
    by_cases hash : Flag.hash ∈ c.flags
    · rw [if_pos hash]
      by_cases octal : c.letter.base = 8
      · have other : ¬(c.letter.base = 16 ∧ c.number given ≠ 0) := by omega
        have other' : ¬(.hash ∈ c.flags ∧ c.letter.base = 16 ∧ c.number given ≠ 0) := fun all => other all.2
        rw [if_neg other, if_neg other']
        by_cases head : (c.inner given).head? = some 48
        · rw [if_neg (fun both => both.2 head), if_neg (fun all => all.2.2 head)]
        · rw [if_pos ⟨octal, head⟩, if_pos ⟨hash, octal, head⟩]
          rfl
      · have other : ¬(c.letter.base = 8 ∧ (c.inner given).head? ≠ some 48) := fun both => octal both.1
        have other' : ¬(.hash ∈ c.flags ∧ c.letter.base = 8 ∧ (c.inner given).head? ≠ some 48) := fun all => octal all.2.1
        dsimp only
        rw [if_neg other, if_neg other']
        by_cases marked : c.letter.base = 16 ∧ c.number given ≠ 0
        · rw [if_pos marked, if_pos ⟨hash, marked⟩]
        · rw [if_neg marked, if_neg (fun all => marked all.2)]
    · rw [if_neg hash, if_neg (fun all => hash all.1), if_neg (fun all => hash all.1)]

end Conversion

end Scc.Libc.Stdio.Printf
