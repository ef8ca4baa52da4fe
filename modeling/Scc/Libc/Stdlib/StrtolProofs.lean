import Scc.Libc.Stdlib.Strtol
import Mathlib.Data.List.TakeWhile

set_option linter.all false

/-! Which strings `strtol` and `strtoull` convert as they should. -/
namespace Scc.Libc.Stdlib
open Text

variable {o : Outside} {b base v : Nat} {c : Int} {s text form rest ptr : List Int}

/-! ## Digits -/

theorem toupper_cases (o : Outside) (c : Int) :
    (97 ≤ c ∧ c ≤ 122) ∧ toupper o c = c - 32 ∨ ¬(97 ≤ c ∧ c ≤ 122) ∧ (toupper o c = c ∨ (c < -1 ∨ 255 < c) ∧ toupper o c = c - 32) := by
  unfold toupper islower
  by_cases inside : -1 ≤ c ∧ c ≤ 255
  · rw [if_pos inside]
    by_cases lower : 97 ≤ c ∧ c ≤ 122
    · left
      exact ⟨lower, if_pos ⟨decide_eq_true lower, by omega⟩⟩
    · right
      refine ⟨lower, .inl (if_neg ?_)⟩
      rintro ⟨low, -⟩
      exact lower (of_decide_eq_true low)
  · right
    rw [if_neg inside]
    refine ⟨by omega, ?_⟩
    split
    · exact .inr ⟨by omega, rfl⟩
    · exact .inl rfl

theorem toupper_mark (o : Outside) (c : Int) : toupper o c = 88 ↔ c = 88 ∨ c = 120 := by
  rcases toupper_cases o c with ⟨lower, upper⟩ | ⟨other, same | ⟨outside, upper⟩⟩ <;> omega

theorem dtoi_cases (o : Outside) (c : Int) :
    (∃ d, digitValue c = some d ∧ dtoi o c = d) ∨ digitValue c = none ∧ 36 ≤ dtoi o c := by
  have top : (36 : Int) ≤ INT_MAX := by decide
  obtain ⟨u, upper⟩ : ∃ u, u = toupper o c := ⟨_, rfl⟩
  have cases := toupper_cases o c
  rw [← upper] at cases
  unfold dtoi digitValue
  dsimp only
  rw [← upper]
  by_cases number : 48 ≤ u ∧ u ≤ 57
  · left
    rw [if_pos number, if_pos (by omega)]
    exact ⟨_, rfl, by omega⟩
  rw [if_neg number]
  by_cases letter : 65 ≤ u ∧ u ≤ 90
  · left
    rw [if_pos letter, if_neg (by omega)]
    rcases cases with ⟨lower, same⟩ | other
    · rw [if_neg (by omega), if_pos lower]
      exact ⟨_, rfl, by omega⟩
    · rw [if_pos (by omega)]
      exact ⟨_, rfl, by omega⟩
  · right
    rw [if_neg letter, if_neg (by omega), if_neg (by omega), if_neg (by omega)]
    refine ⟨rfl, ?_⟩
    split
    · exact Int.le_refl 36
    · exact top

theorem dtoi_digit (small : b ≤ 36) : dtoi o c < b ↔ IsDigit b c := by
  rcases dtoi_cases o c with ⟨d, value, same⟩ | ⟨none, large⟩
  · rw [same]
    constructor
    · exact fun less => ⟨d, value, Int.ofNat_lt.mp less⟩
    · rintro ⟨e, value', less⟩
      cases value.symm.trans value'
      exact Int.ofNat_lt.mpr less
  · constructor
    · intro less
      omega
    · rintro ⟨d, value, -⟩
      cases none.symm.trans value

theorem dtoi_value (digit : IsDigit b c) : dtoi o c = valueOf c := by
  obtain ⟨d, value, -⟩ := digit
  rcases dtoi_cases o c with ⟨e, value', same⟩ | ⟨none, -⟩
  · rw [same, valueOf, value']
    rfl
  · cases none.symm.trans value

/-! ## The loops -/

/-- The value of more digits, after those with the value `v`. -/
def extend (b v : Nat) (ds : List Int) : Nat := ds.foldl (fun v c => v * b + valueOf c) v

theorem extend_ge (b v : Nat) (positive : 0 < b) (ds : List Int) : v ≤ extend b v ds := by
  induction ds generalizing v with
  | nil => exact Nat.le_refl v
  | cons c ds ih =>
    have more : v ≤ v * b := Nat.le_mul_of_pos_right v positive
    have later := ih (v * b + valueOf c)
    exact (more.trans (Nat.le_add_right _ _)).trans later

/-- The digits at the beginning, and what follows them. -/
def digitsOf (o : Outside) (b : Nat) (s : List Int) : List Int := s.takeWhile fun c => dtoi o c < b

def afterDigits (o : Outside) (b : Nat) (s : List Int) : List Int := s.dropWhile fun c => dtoi o c < b

/-- The loop has run over all digits and has their value, if it is no more than the largest one; and else it has
stopped at one of them. -/
def Runs (o : Outside) (b most : Nat) (number : Nat → Int) (v : Nat) (s : List Int) (stopped : Stopped) : Prop :=
  if extend b v (digitsOf o b s) ≤ most then stopped = .done (number (extend b v (digitsOf o b s))) (afterDigits o b s)
  else ∃ t, stopped = .overflow t ∧ (afterDigits o b s).length < t.length

theorem Runs.stop {number : Nat → Int} {most : Nat} (fits : v ≤ most) (ends : digitsOf o b s = []) :
    Runs o b most number v s (.done (number v) s) := by
  have all : afterDigits o b s = s := by
    have split := List.takeWhile_append_dropWhile (p := fun c => decide (dtoi o c < b)) (l := s)
    rw [show s.takeWhile _ = [] from ends] at split
    exact split
  rw [Runs, ends, all]
  exact (if_pos fits).mpr rfl

theorem Runs.above (number : Nat → Int) (most : Nat) (positive : 0 < b) (digit : dtoi o c < b)
    (above : most < v * b + valueOf c) : Runs o b most number v (c :: s) (.overflow (c :: s)) := by
  have first : digitsOf o b (c :: s) = c :: digitsOf o b s := List.takeWhile_cons_of_pos (decide_eq_true digit)
  have after : afterDigits o b (c :: s) = afterDigits o b s := List.dropWhile_cons_of_pos (decide_eq_true digit)
  have more := extend_ge b (v * b + valueOf c) positive (digitsOf o b s)
  rw [Runs, first, after]
  refine (if_neg (Nat.not_le.mpr (Nat.lt_of_lt_of_le above more))).mpr ⟨_, rfl, ?_⟩
  exact Nat.lt_succ_of_le (List.dropWhile_suffix _).length_le

theorem Runs.next {number : Nat → Int} {most : Nat} {stopped : Stopped} (digit : dtoi o c < b)
    (rest : Runs o b most number (v * b + valueOf c) s stopped) : Runs o b most number v (c :: s) stopped := by
  have first : digitsOf o b (c :: s) = c :: digitsOf o b s := List.takeWhile_cons_of_pos (decide_eq_true digit)
  have after : afterDigits o b (c :: s) = afterDigits o b s := List.dropWhile_cons_of_pos (decide_eq_true digit)
  rw [Runs, first, after]
  exact rest

/-- The largest value of `strtol` with a sign. -/
def most (minus : Bool) : Nat := if minus then 2 ^ 63 else 2 ^ 63 - 1

/-- A division that guards a product. -/
theorem guard (positive : 0 < b) (n v : Nat) : n / b < v ↔ n < v * b := Nat.div_lt_iff_lt_mul positive

theorem strtolLoop_runs (positive : 0 < b) (small : b ≤ 36) (minus : Bool) (fits : v ≤ most minus) :
    Runs o b (most minus) (fun v => -v) v s (strtolLoop o minus b s (-v)) := by
  induction s generalizing v with
  | nil => exact .stop fits rfl
  | cons c s ih =>
    unfold strtolLoop
    dsimp only
    by_cases digit : dtoi o c < b
    · have above := Runs.above (s := s) (v := v) (fun v => -v) (most minus) positive digit
      rw [if_pos digit, dtoi_value ((dtoi_digit small).mp digit)]
      have bound : LONG_MIN.tdiv b = -((2 ^ 63 / b : Nat) : Int) := Int.neg_tdiv _ _
      have times : (-v : Int) * b = -((v * b : Nat) : Int) := by rw [Int.neg_mul, Int.natCast_mul]
      have divides := guard positive (2 ^ 63) v
      have least : LONG_MIN = -2 ^ 63 := rfl
      have largest : most minus = 2 ^ 63 ∧ minus = true ∨ most minus = 2 ^ 63 - 1 ∧ minus = false := by
        cases minus
        · exact .inr ⟨rfl, rfl⟩
        · exact .inl ⟨rfl, rfl⟩
      have sum : -((v * b : Nat) : Int) - valueOf c = -((v * b + valueOf c : Nat) : Int) := by omega
      obtain ⟨p, product⟩ : ∃ p, p = v * b := ⟨_, rfl⟩
      obtain ⟨q, quotient⟩ : ∃ q, q = 2 ^ 63 / b := ⟨_, rfl⟩
      rw [bound, times, least, sum, ← product, ← quotient]
      rw [← product, ← quotient] at divides
      rw [← product] at above
      split
      · exact above (by omega)
      split
      · exact above (by omega)
      split
      · rename_i last
        obtain ⟨all, plus⟩ := last
        have plus : minus = false := by simpa using plus
        have largest : most minus = 2 ^ 63 - 1 := by
          rw [plus]
          rfl
        exact above (by omega)
      · rename_i last
        have upto : p + valueOf c ≤ most minus := by
          rcases largest with ⟨large, -⟩ | ⟨large, plus⟩
          · omega
          · have apart : -((p + valueOf c : Nat) : Int) ≠ -2 ^ 63 := fun all => last ⟨all, by simp [plus]⟩
            omega
        rw [product] at upto ⊢
        exact .next digit (ih upto)
    · rw [if_neg digit]
      refine .stop fits ?_
      exact List.takeWhile_cons_of_neg (by simp [digit])

theorem strtoullLoop_runs (positive : 0 < b) (small : b ≤ 36) (fits : v ≤ 2 ^ 64 - 1) :
    Runs o b (2 ^ 64 - 1) (fun v => v) v s (strtoullLoop o b s v) := by
  induction s generalizing v with
  | nil => exact .stop fits rfl
  | cons c s ih =>
    unfold strtoullLoop
    dsimp only
    by_cases digit : dtoi o c < b
    · have above := Runs.above (s := s) (v := v) (fun v => v) (2 ^ 64 - 1) positive digit
      rw [if_pos digit, dtoi_value ((dtoi_digit small).mp digit)]
      have bound : ULLONG_MAX / b = ((2 ^ 64 - 1) / b : Nat) := rfl
      have times : (v : Int) * b = (v * b : Nat) := (Int.natCast_mul v b).symm
      have divides := guard positive (2 ^ 64 - 1) v
      have largest : ULLONG_MAX = 2 ^ 64 - 1 := rfl
      have sum : ((v * b : Nat) : Int) + valueOf c = (v * b + valueOf c : Nat) := (Int.natCast_add _ _).symm
      rw [bound, times, largest, sum]
      split
      · exact above (by omega)
      split
      · exact above (by omega)
      · exact .next digit (ih (by omega))
    · rw [if_neg digit]
      refine .stop fits ?_
      exact List.takeWhile_cons_of_neg (by simp [digit])

/-! ## The forms -/

theorem digitsOf_digits (small : b ≤ 36) (s : List Int) : ∀ c ∈ digitsOf o b s, IsDigit b c := by
  intro c mem
  rw [digitsOf] at mem
  have digit := List.mem_takeWhile_imp mem
  exact (dtoi_digit small).mp (of_decide_eq_true digit)

theorem digitsOf_append (o : Outside) (b : Nat) (s : List Int) : s = digitsOf o b s ++ afterDigits o b s :=
  List.takeWhile_append_dropWhile.symm

/-- The digits at the beginning are the longest ones. -/
theorem digitsOf_longest (o : Outside) (small : b ≤ 36) (split : text = form ++ rest) (all : ∀ c ∈ form, IsDigit b c) :
    form.length ≤ (digitsOf o b text).length := by
  subst split
  have every : ∀ c ∈ form, decide (dtoi o c < b) = true := fun c mem => decide_eq_true ((dtoi_digit small).mpr (all c mem))
  rw [digitsOf, List.takeWhile_append_of_pos every, List.length_append]
  exact Nat.le_add_right _ _

/-- The text has a prefix of the base 16. -/
def Mark (base : Nat) (text : List Int) : Prop := (base = 0 ∨ base = 16) ∧ ∃ x rest, (x = 88 ∨ x = 120) ∧ text = 48 :: x :: rest

theorem mark_iff (o : Outside) (base : Nat) (text : List Int) :
    radix o base text = 16 ∧ char text = 48 ∧ toupper o (char text.tail) = 88 ↔ Mark base text := by
  constructor
  · rintro ⟨sixteen, first, second⟩
    have given : base = 0 ∨ base = 16 := by
      unfold radix at sixteen
      split at sixteen <;> omega
    have mark := (toupper_mark o _).mp second
    match text, first, mark with
    | [], first, _ => cases first
    | [_], _, mark => rcases mark with mark | mark <;> cases mark
    | _ :: x :: rest, first, mark =>
      cases first
      exact ⟨given, x, rest, mark, rfl⟩
  · rintro ⟨given, x, rest, mark, rfl⟩
    have second := (toupper_mark o x).mpr mark
    refine ⟨?_, rfl, second⟩
    unfold radix
    rcases given with rfl | rfl
    · exact (if_pos rfl).trans ((if_pos rfl).trans (if_pos second))
    · rfl

/-- The base is one of those that are allowed. -/
def Allowed (base : Nat) : Prop := base = 0 ∨ 2 ≤ base ∧ base ≤ 36

theorem radix_allowed (o : Outside) (allowed : Allowed base) (text : List Int) :
    ∃ b : Nat, radix o base text = b ∧ 2 ≤ b ∧ b ≤ 36 ∧ (base ≠ 0 → b = base) ∧
      (base = 0 → ¬Mark base text → b = if char text = 48 then 8 else 10) := by
  rcases allowed with rfl | ⟨low, high⟩
  · by_cases first : char text = 48
    · by_cases second : toupper o (char text.tail) = 88
      · have sixteen : radix o (0 : Nat) text = (16 : Nat) := (if_pos rfl).trans ((if_pos first).trans (if_pos second))
        refine ⟨16, sixteen, by decide, by decide, fun other => absurd rfl other, fun _ none => ?_⟩
        exact absurd ((mark_iff o 0 text).mp ⟨sixteen, first, second⟩) none
      · have eight : radix o (0 : Nat) text = (8 : Nat) := (if_pos rfl).trans ((if_pos first).trans (if_neg second))
        exact ⟨8, eight, by decide, by decide, fun other => absurd rfl other, fun _ _ => (if_pos first).symm⟩
    · have ten : radix o (0 : Nat) text = (10 : Nat) := (if_pos rfl).trans (if_neg first)
      exact ⟨10, ten, by decide, by decide, fun other => absurd rfl other, fun _ _ => (if_neg first).symm⟩
  · have given : radix o base text = base := if_neg (by omega)
    exact ⟨base, given, low, high, fun _ => rfl, fun zero => absurd zero (by omega)⟩

theorem char_append (some : form ≠ []) (rest : List Int) : char (form ++ rest) = char form := by
  cases form with
  | nil => exact absurd rfl some
  | cons c form => rfl

/-- Without a prefix the forms are digits of the base. -/
theorem form_iff (split : text = form ++ rest) (none : ¬Mark base text) (given : base ≠ 0 → b = base)
    (found : base = 0 → b = if char text = 48 then 8 else 10) :
    Form base form v ↔ Digits b form ∧ v = readDigits b valueOf form := by
  constructor
  · intro derived
    cases derived with
    | digits other all =>
      rw [given other]
      exact ⟨all, rfl⟩
    | hexadecimal given mark all => exact absurd ⟨given, _, _, mark, split⟩ none
    | octal first all =>
      have eight : b = 8 := by
        rw [found rfl, split, char_append all.1 rest]
        exact if_pos first
      rw [eight]
      exact ⟨all, rfl⟩
    | decimal first all =>
      have ten : b = 10 := by
        rw [found rfl, split, char_append all.1 rest]
        exact if_neg first
      rw [ten]
      exact ⟨all, rfl⟩
  · rintro ⟨all, rfl⟩
    by_cases zero : base = 0
    · have base' := found zero
      subst zero
      rw [split, char_append all.1 rest] at base'
      split at base'
      · rename_i first
        subst base'
        exact .octal first all
      · rename_i first
        subst base'
        exact .decimal first all
    · cases given zero
      exact .digits zero all

theorem mark_digit {x : Int} (mark : x = 88 ∨ x = 120) : ¬IsDigit 16 x := by
  rintro ⟨d, value, less⟩
  have thirtythree : digitValue x = some 33 := by rcases mark with rfl | rfl <;> rfl
  cases thirtythree.symm.trans value
  exact absurd less (by decide)

/-- With a prefix they are a zero or digits of the base 16. -/
theorem mark_forms {x : Int} (mark : x = 88 ∨ x = 120) (given : base = 0 ∨ base = 16) (split : 48 :: x :: s = form ++ rest)
    (derived : Form base form v) : form = [48] ∨ ∃ ds, form = 48 :: x :: ds ∧ Digits 16 ds ∧ v = readDigits 16 valueOf ds := by
  -- a form of digits ends before the mark
  have short : ∀ {b : Nat}, b ≤ 16 → Digits b form → form = [48] := by
    rintro b small ⟨some, all⟩
    match form, some, split with
    | [c], _, split => cases split; rfl
    | _ :: y :: ds, _, split =>
      cases split
      obtain ⟨d, value, less⟩ := all _ (List.mem_cons_of_mem _ List.mem_cons_self)
      exact absurd ⟨d, value, Nat.lt_of_lt_of_le less small⟩ (mark_digit mark)
  cases derived with
  | digits other all =>
    rcases given with rfl | rfl
    · exact absurd rfl other
    · exact .inl (short (Nat.le_refl 16) all)
  | hexadecimal given' mark' all =>
    cases split
    exact .inr ⟨_, rfl, all, rfl⟩
  | octal first all => exact .inl (short (by decide) all)
  | decimal first all => exact .inl (short (by decide) all)

theorem Form.nonempty (derived : Form base form v) : form ≠ [] := by
  cases derived with
  | hexadecimal given mark all => exact List.cons_ne_nil _ _
  | digits other all => exact all.1
  | octal first all => exact all.1
  | decimal first all => exact all.1

theorem Form.first (derived : Form base form v) : 48 ≤ char form ∧ char form ≤ 122 := by
  have digit : ∀ {b : Nat}, Digits b form → 48 ≤ char form ∧ char form ≤ 122 := by
    rintro b ⟨some, all⟩
    cases form with
    | nil => exact absurd rfl some
    | cons c form =>
      obtain ⟨d, value, -⟩ := all c List.mem_cons_self
      change 48 ≤ c ∧ c ≤ 122
      unfold digitValue at value
      split at value
      · omega
      split at value
      · omega
      split at value
      · omega
      · cases value
  cases derived with
  | hexadecimal given mark all =>
    change (48 : Int) ≤ 48 ∧ (48 : Int) ≤ 122
    omega
  | digits other all => exact digit all
  | octal first all => exact digit all
  | decimal first all => exact digit all

/-- The longest form, where digits follow what the functions skip. -/
theorem longest_digits (o : Outside) (allowed : Allowed base) {b : Nat} (found : radix o base text = b)
    (some : digitsOf o b (unmarked o b text) ≠ []) :
    ∃ form, Longest base text form (afterDigits o b (unmarked o b text)) (readDigits b valueOf (digitsOf o b (unmarked o b text))) := by
  obtain ⟨b', found', low, small, given, none⟩ := radix_allowed o allowed text
  obtain rfl : b = b' := Int.ofNat_inj.mp (found.symm.trans found')
  by_cases marked : Mark base text
  · obtain ⟨sixteen, first, second⟩ := (mark_iff o base text).mpr marked
    rw [found] at sixteen
    obtain ⟨either, x, rest, mark, rfl⟩ := marked
    have skips : unmarked o b (48 :: x :: rest) = rest := if_pos ⟨sixteen, first, second⟩
    rw [skips] at some ⊢
    have all := digitsOf_digits (o := o) small rest
    cases Int.ofNat_inj.mp sixteen
    refine ⟨_, ?_, .hexadecimal either mark ⟨some, all⟩, ?_⟩
    · exact congrArg (48 :: x :: ·) (digitsOf_append o 16 rest)
    · intro form' rest' v' split derived
      rcases mark_forms mark either split derived with rfl | ⟨ds, rfl, digits, -⟩
      · exact Nat.succ_le_succ (Nat.zero_le _)
      · have inner : rest = ds ++ rest' := (List.cons.inj (List.cons.inj split).2).2
        have longest := digitsOf_longest o small inner digits.2
        exact Nat.succ_le_succ (Nat.succ_le_succ longest)
  · have stays : unmarked o b text = text := if_neg fun mark => marked ((mark_iff o base text).mp (found ▸ mark))
    rw [stays] at some ⊢
    have forms {form rest : List Int} {v : Nat} (split : text = form ++ rest) := @form_iff b base v text form rest split marked given fun zero => none zero marked
    have split := digitsOf_append o b text
    refine ⟨_, split, (forms split).mpr ⟨⟨some, digitsOf_digits small text⟩, rfl⟩, ?_⟩
    intro form' rest' v' split' derived
    exact digitsOf_longest o small split' ((forms split').mp derived).1.2

/-- Without digits there is a form only where there is a prefix. -/
theorem form_none (o : Outside) (allowed : Allowed base) {b : Nat} (found : radix o base text = b)
    (empty : digitsOf o b (unmarked o b text) = []) (none : ¬Mark base text) (split : text = form ++ rest) : ¬Form base form v := by
  intro derived
  obtain ⟨b', found', low, small, given, none'⟩ := radix_allowed o allowed text
  obtain rfl : b = b' := Int.ofNat_inj.mp (found.symm.trans found')
  have stays : unmarked o b text = text := if_neg fun mark => none ((mark_iff o base text).mp (found ▸ mark))
  rw [stays] at empty
  obtain ⟨⟨some, all⟩, -⟩ := (form_iff split none given fun zero => none' zero none).mp derived
  have longest := digitsOf_longest o small split all
  rw [empty] at longest
  exact some (List.eq_nil_of_length_eq_zero (Nat.le_zero.mp longest))

theorem Longest.rest_length {form' rest' : List Int} {v' : Nat} (first : Longest base text form rest v)
    (second : Longest base text form' rest' v') : rest.length = rest'.length := by
  have one := first.longest _ _ _ second.split second.derived
  have two := second.longest _ _ _ first.split first.derived
  have split := congrArg List.length (first.split.symm.trans second.split)
  rw [List.length_append, List.length_append] at split
  omega

/-! ## Before the loops -/

theorem dropWhile_white (o : Outside) (s : List Int) : ∃ more, s.dropWhile (isspace o) = (behind s).dropWhile (isspace o) ∧ s = more ++ behind s := by
  induction s with
  | nil => exact ⟨[], rfl, rfl⟩
  | cons c s ih =>
    by_cases white : White c
    · obtain ⟨more, same, split⟩ := ih
      have behind' : behind (c :: s) = behind s := List.dropWhile_cons_of_pos (decide_eq_true white)
      rw [behind', List.dropWhile_cons_of_pos (isspace_white white)]
      exact ⟨c :: more, same, congrArg (c :: ·) split⟩
    · have behind' : behind (c :: s) = c :: s := List.dropWhile_cons_of_neg (by simp [white])
      rw [behind']
      exact ⟨[], rfl, rfl⟩

/-- Only white space is skipped. -/
theorem start_plain (plain : Plain o ptr) :
    start o base ptr =
      ⟨char (behind ptr) = 45, radix o base (signed (behind ptr)), unmarked o (radix o base (signed (behind ptr))) (signed (behind ptr))⟩ := by
  obtain ⟨more, same, -⟩ := dropWhile_white o ptr
  have stops : ptr.dropWhile (isspace o) = behind ptr := by
    rw [same]
    unfold Plain at plain
    cases starts : behind ptr with
    | nil => rfl
    | cons c s =>
      rw [starts] at plain
      exact List.dropWhile_cons_of_neg (by simp [show isspace o c = false from plain])
  unfold start
  rw [stops]

theorem signed_suffix (s : List Int) : signed s <:+ s := by
  unfold signed
  split
  · exact List.tail_suffix s
  · exact List.suffix_refl s

theorem unmarked_suffix (o : Outside) (b : Int) (s : List Int) : unmarked o b s <:+ s := by
  unfold unmarked
  split
  · exact List.drop_suffix 2 s
  · exact List.suffix_refl s

theorem start_suffix (o : Outside) (base : Nat) (ptr : List Int) : (start o base ptr).s <:+ ptr :=
  (unmarked_suffix o _ _).trans ((signed_suffix _).trans (List.dropWhile_suffix _))

theorem start_base (o : Outside) (allowed : Allowed base) (ptr : List Int) :
    ∃ b : Nat, (start o base ptr).base = b ∧ 2 ≤ b ∧ b ≤ 36 := by
  obtain ⟨b, found, low, small, -⟩ := radix_allowed o allowed (signed (ptr.dropWhile (isspace o)))
  exact ⟨b, found, low, small⟩

/-- A character that is wrongly taken for white space begins no form. -/
theorem form_plain (plain : ¬Plain o ptr) (split : signed (behind ptr) = form ++ rest) : ¬Form base form v := by
  intro derived
  have outside : ¬(-1 ≤ char (behind ptr) ∧ char (behind ptr) ≤ 255) := by
    intro inside
    have white : isspace o (char (behind ptr)) = true := Bool.not_eq_false _ |>.mp plain
    have white := (isspace_inside inside).mp white
    cases starts : behind ptr with
    | nil =>
      rw [starts] at white
      unfold White char at white
      simp at white
    | cons c s =>
      have other := List.head?_dropWhile_not (fun c => decide (White c)) ptr
      rw [show ptr.dropWhile _ = behind ptr from rfl, starts] at other
      rw [starts] at white
      simp at other
      exact other white
  have same : signed (behind ptr) = behind ptr := if_neg (by omega)
  have bounds := derived.first
  rw [← char_append derived.nonempty rest, ← split, same] at bounds
  omega

/-! ## The conversion -/

/-- The values of the type that the functions can compute. -/
structure Target.Sane (target : Target) : Prop where
  fits : ∀ minus, target.fits minus 0
  value : ∀ minus, target.value minus 0 = 0

/-- What a function does with the digits. -/
structure Converts (o : Outside) (target : Target) (base : Nat) (ptr : List Int) (r : Conversion) : Prop where
  exact : target.fits (start o base ptr).minus (readDigits (start o base ptr).base.toNat valueOf (run o base ptr)) →
    r = ⟨target.value (start o base ptr).minus (readDigits (start o base ptr).base.toNat valueOf (run o base ptr)), false,
      if run o base ptr = [] then ptr else afterDigits o (start o base ptr).base.toNat (start o base ptr).s⟩
  above : ¬target.fits (start o base ptr).minus (readDigits (start o base ptr).base.toNat valueOf (run o base ptr)) →
    ∃ t, r = ⟨target.clamp (start o base ptr).minus, true, t⟩ ∧
      (afterDigits o (start o base ptr).base.toNat (start o base ptr).s).length < t.length

theorem Prescribed.of_none {target : Target} {r : Conversion} (empty : ∀ form rest v, signed (behind ptr) = form ++ rest → ¬Form base form v)
    (prescribed : Prescribed target base ptr r) : r = ⟨0, false, ptr⟩ := by
  cases prescribed with
  | exact longest fits => exact absurd longest.derived (empty _ _ _ longest.split)
  | clamped longest above => exact absurd longest.derived (empty _ _ _ longest.split)
  | none _ => rfl

theorem run_eq (o : Outside) {b : Nat} (found : (start o base ptr).base = b) : run o base ptr = digitsOf o b (start o base ptr).s := by
  rw [run, found]
  rfl

theorem Converts.empty {target : Target} {r : Conversion} (converts : Converts o target base ptr r) (sane : target.Sane)
    (empty : run o base ptr = []) : r = ⟨0, false, ptr⟩ := by
  have exact_ := converts.exact
  rw [empty] at exact_
  have same := exact_ (sane.fits _)
  rw [if_pos rfl] at same
  rw [same]
  exact congrArg (Conversion.mk · false ptr) (sane.value _)

theorem Converts.not_plain {target : Target} {r : Conversion} (converts : Converts o target base ptr r) (allowed : Allowed base)
    (plain : ¬Plain o ptr) (some : run o base ptr ≠ []) : ¬Prescribed target base ptr r := by
  intro prescribed
  have nothing := prescribed.of_none fun form rest v split => form_plain plain split
  obtain ⟨b, found, -⟩ := start_base o allowed ptr
  by_cases fits : target.fits (start o base ptr).minus (readDigits (start o base ptr).base.toNat valueOf (run o base ptr))
  · have same := converts.exact fits
    rw [if_neg some, nothing] at same
    have ends := congrArg (List.length ∘ Conversion.end_) same
    dsimp only [Function.comp] at ends
    have suffix := (start_suffix o base ptr).length_le
    have split := congrArg List.length (digitsOf_append o b (start o base ptr).s)
    rw [← run_eq o found, List.length_append] at split
    have positive := List.length_pos_of_ne_nil some
    rw [found, Int.toNat_natCast] at ends
    omega
  · obtain ⟨t, same, -⟩ := converts.above fits
    rw [nothing] at same
    cases congrArg Conversion.erange same

/-- The prefix without a digit is not what is prescribed. -/
theorem not_marked {target : Target} (marked : Marked base ptr) : ¬Prescribed target base ptr ⟨0, false, ptr⟩ := by
  obtain ⟨either, x, rest, mark, text⟩ := marked
  have zero : Form base [48] 0 := by
    have digit : Digits 8 [48] := by
      refine ⟨List.cons_ne_nil _ _, ?_⟩
      intro c mem
      cases List.mem_singleton.mp mem
      exact ⟨0, rfl, by decide⟩
    rcases either with rfl | rfl
    · exact .octal rfl digit
    · refine .digits (by decide) ⟨digit.1, fun c mem => ?_⟩
      obtain ⟨d, value, less⟩ := digit.2 c mem
      exact ⟨d, value, Nat.lt_trans less (by decide)⟩
  intro prescribed
  generalize result : (⟨0, false, ptr⟩ : Conversion) = r at prescribed
  cases prescribed with
  | exact longest fits =>
    obtain ⟨-, -, ends⟩ := Conversion.mk.inj result
    have suffix := ((signed_suffix (behind ptr)).trans (List.dropWhile_suffix _)).length_le
    have some := List.length_pos_of_ne_nil longest.derived.nonempty
    rw [longest.split, List.length_append, ← ends] at suffix
    omega
  | clamped longest above => cases congrArg Conversion.erange result
  | none empty => exact empty [48] (x :: rest) 0 text zero

theorem Converts.iff {target : Target} {r : Conversion} (converts : Converts o target base ptr r) (sane : target.Sane)
    (allowed : Allowed base) : Prescribed target base ptr r ↔ Convertible o target base ptr := by
  unfold Convertible
  by_cases plain : Plain o ptr
  · have starts := @start_plain o base ptr plain
    obtain ⟨b, found, -⟩ := radix_allowed o allowed (signed (behind ptr))
    have base' : (start o base ptr).base = b := by rw [starts, found]
    have text : (start o base ptr).s = unmarked o b (signed (behind ptr)) := by rw [starts, found]
    have minus : (start o base ptr).minus = decide (char (behind ptr) = 45) := by rw [starts]
    have digits : run o base ptr = digitsOf o b (unmarked o b (signed (behind ptr))) := by rw [run_eq o base', text]
    split
    · rename_i empty
      rw [converts.empty sane empty]
      constructor
      · exact fun prescribed both => not_marked both.2 prescribed
      · intro neither
        refine .none fun form rest v split => ?_
        exact form_none o allowed found (digits ▸ empty) (fun mark => neither ⟨plain, mark⟩) split
    · rename_i some
      obtain ⟨form, longest⟩ := longest_digits o allowed found (digits ▸ some)
      have exact_ := converts.exact
      have above := converts.above
      rw [if_neg some] at exact_
      rw [base', Int.toNat_natCast, minus, digits] at exact_ above ⊢
      rw [text] at exact_ above
      constructor
      · intro prescribed
        refine ⟨plain, Classical.byContradiction fun wide => ?_⟩
        obtain ⟨t, same, longer⟩ := above wide
        generalize result : r = r' at prescribed
        cases prescribed with
        | exact longest' fits' =>
          rw [same] at result
          cases congrArg Conversion.erange result
        | clamped longest' above' =>
          rw [same] at result
          obtain ⟨-, -, ends⟩ := Conversion.mk.inj result
          rw [ends] at longer
          exact absurd (longest'.rest_length longest) (Nat.ne_of_gt longer)
        | none empty => exact empty _ _ _ longest.split longest.derived
      · rintro ⟨-, fits⟩
        rw [exact_ fits]
        exact .exact longest fits
  · split
    · rename_i empty
      rw [converts.empty sane empty]
      refine ⟨fun _ both => plain both.1, fun _ => .none ?_⟩
      exact fun form rest v split => form_plain plain split
    · rename_i some
      exact ⟨fun prescribed => absurd prescribed (converts.not_plain allowed plain some), fun both => absurd both.1 plain⟩

theorem done_end (o : Outside) {b : Nat} (found : (start o base ptr).base = b) :
    (if afterDigits o b (start o base ptr).s = (start o base ptr).s then ptr else afterDigits o b (start o base ptr).s) =
      if run o base ptr = [] then ptr else afterDigits o b (start o base ptr).s := by
  have split := digitsOf_append o b (start o base ptr).s
  rw [run_eq o found]
  by_cases empty : digitsOf o b (start o base ptr).s = []
  · rw [empty, List.nil_append] at split
    rw [if_pos empty, if_pos split.symm]
  · have apart : afterDigits o b (start o base ptr).s ≠ (start o base ptr).s := by
      intro same
      have length := congrArg List.length split
      rw [List.length_append, same] at length
      have some := List.length_pos_of_ne_nil empty
      omega
    rw [if_neg empty, if_neg apart]

theorem long_sane : long.Sane := by
  constructor
  · exact fun _ => Nat.zero_le _
  · intro minus
    cases minus <;> rfl

theorem unsignedLongLong_sane : unsignedLongLong.Sane := by
  constructor
  · exact fun _ => Nat.zero_le _
  · intro minus
    cases minus <;> rfl

theorem strtol_converts (o : Outside) (allowed : Allowed base) (ptr : List Int) : Converts o long base ptr (strtol o ptr base) := by
  obtain ⟨b, found, low, small⟩ := start_base o allowed ptr
  have runs := strtolLoop_runs (o := o) (v := 0) (s := (start o base ptr).s) (Nat.lt_of_lt_of_le (by decide) low) small
    (start o base ptr).minus (Nat.zero_le _)
  unfold Runs at runs
  have digits := run_eq o found
  have value : extend b 0 (digitsOf o b (start o base ptr).s) = readDigits b valueOf (run o base ptr) := by
    rw [digits]
    rfl
  unfold strtol
  dsimp only
  rw [value] at runs
  constructor
  · intro fits
    rw [found, Int.toNat_natCast] at fits ⊢
    have fits : readDigits b valueOf (run o base ptr) ≤ most (start o base ptr).minus := fits
    rw [if_pos fits] at runs
    rw [show (0 : Int) = -((0 : Nat) : Int) from rfl, runs]
    dsimp only
    rw [done_end o found]
    cases (start o base ptr).minus
    · exact congrArg (Conversion.mk · _ _) (Int.neg_neg _)
    · rfl
  · intro above
    rw [found, Int.toNat_natCast] at above ⊢
    have above : ¬readDigits b valueOf (run o base ptr) ≤ most (start o base ptr).minus := above
    rw [if_neg above] at runs
    obtain ⟨t, stopped, longer⟩ := runs
    rw [show (0 : Int) = -((0 : Nat) : Int) from rfl, stopped]
    exact ⟨t, rfl, longer⟩

theorem strtoull_converts (o : Outside) (allowed : Allowed base) (ptr : List Int) :
    Converts o unsignedLongLong base ptr (strtoull o ptr base) := by
  obtain ⟨b, found, low, small⟩ := start_base o allowed ptr
  have runs := strtoullLoop_runs (o := o) (v := 0) (s := (start o base ptr).s) (Nat.lt_of_lt_of_le (by decide) low) small
    (Nat.zero_le _)
  unfold Runs at runs
  have digits := run_eq o found
  have value : extend b 0 (digitsOf o b (start o base ptr).s) = readDigits b valueOf (run o base ptr) := by
    rw [digits]
    rfl
  unfold strtoull
  dsimp only
  rw [value] at runs
  constructor
  · intro fits
    rw [found, Int.toNat_natCast] at fits ⊢
    have fits : readDigits b valueOf (run o base ptr) ≤ 2 ^ 64 - 1 := fits
    rw [if_pos fits] at runs
    rw [show (0 : Int) = ((0 : Nat) : Int) from rfl, runs]
    dsimp only
    rw [done_end o found]
    have largest : ULLONG_MAX + 1 = 2 ^ 64 := rfl
    rw [largest]
    cases (start o base ptr).minus
    · refine congrArg (Conversion.mk · _ _) ?_
      exact Int.emod_eq_of_lt (Int.natCast_nonneg _) (by omega)
    · refine congrArg (Conversion.mk · _ _) ?_
      exact (Int.add_emod_left _ _).symm
  · intro above
    rw [found, Int.toNat_natCast] at above ⊢
    have above : ¬readDigits b valueOf (run o base ptr) ≤ 2 ^ 64 - 1 := above
    rw [if_neg above] at runs
    obtain ⟨t, stopped, longer⟩ := runs
    rw [show (0 : Int) = ((0 : Nat) : Int) from rfl, stopped]
    exact ⟨t, rfl, longer⟩

/-- The conversions are those that are prescribed exactly where there are digits behind white space and their value is
represented, or no digits and no prefix `0x` either. -/
theorem conversions_iff (o : Outside) (allowed : Allowed base) (ptr : List Int) :
    (Prescribed long base ptr (strtol o ptr base) ↔ Convertible o long base ptr) ∧
      (Prescribed unsignedLongLong base ptr (strtoull o ptr base) ↔ Convertible o unsignedLongLong base ptr) :=
  ⟨(strtol_converts o allowed ptr).iff long_sane allowed, (strtoull_converts o allowed ptr).iff unsignedLongLong_sane allowed⟩

/-- Memory around the table that marks nothing. -/
def bare : Outside := ⟨fun _ => false, fun _ => false, fun _ => false⟩

theorem conversion_minus_twelve : Prescribed long 10 [45, 49, 50, 59] (strtol bare [45, 49, 50, 59] 10) ∧
    strtol bare [45, 49, 50, 59] 10 = ⟨-12, false, [59]⟩ := by
  have allowed : Allowed 10 := .inr ⟨by decide, by decide⟩
  have digits : run bare 10 [45, 49, 50, 59] = [49, 50] := rfl
  have convertible : Convertible bare long 10 [45, 49, 50, 59] := by
    unfold Convertible
    rw [digits, if_neg (List.cons_ne_nil _ _)]
    exact ⟨rfl, show 12 ≤ 2 ^ 63 by decide⟩
  exact ⟨(conversions_iff bare allowed _).1.mpr convertible, rfl⟩

/-- The prefix `0x` alone, and a number that is too large with digits left. -/
theorem not_converted :
    ¬Prescribed long 16 [48, 120] (strtol bare [48, 120] 16) ∧
      ¬Prescribed unsignedLongLong 10 (List.replicate 25 57) (strtoull bare (List.replicate 25 57) 10) := by
  constructor
  · exact not_marked ⟨.inr rfl, 120, [], .inr rfl, rfl⟩
  · have allowed : Allowed 10 := .inr ⟨by decide, by decide⟩
    intro prescribed
    have convertible := ((strtoull_converts bare allowed _).iff unsignedLongLong_sane allowed).mp prescribed
    have digits : run bare 10 (List.replicate 25 57) = List.replicate 25 57 := rfl
    unfold Convertible at convertible
    rw [digits, if_neg (by simp)] at convertible
    have large : ¬readDigits 10 valueOf (List.replicate 25 57) ≤ 2 ^ 64 - 1 := by decide
    exact large convertible.2

end Scc.Libc.Stdlib
