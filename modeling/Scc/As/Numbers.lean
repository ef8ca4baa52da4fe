import Scc.As.Symbol
import Scc.Text.Numeral

set_option linter.all false

/-! Numbers in the assembler (`number` and `tok2str` in as/parser.c), and for which literals it gives the right
value or an error. `TUINT` has 64 bits. -/
namespace Scc.As.Numbers
open Text

def TUINT_MAX : Nat := 18446744073709551615

def digits : List Char := ['0', '1', '2', '3', '4', '5', '6', '7', '8', '9', 'A', 'B', 'C', 'D', 'E', 'F']

def isxdigit (c : Char) : Bool := digits.contains c.toUpper

/-- `p - digits` -/
def digit (c : Char) : Nat := digits.idxOf c.toUpper

/-- The characters from `textp` to `endp`. -/
def tok2str (textp endp : List Char) : M Name :=
  if textp.length - endp.length > INTIDENTSIZ then error "token too big"
  else return textp.take (textp.length - endp.length)

/-- The base, and where the digits start. -/
def radix : List Char → Nat × List Char
  | '0' :: 'x' :: endp => (16, endp)
  | '0' :: endp => (8, endp)
  | endp => (10, endp)

/-- The loop of `number`. -/
def digitLoop (base : Nat) : List Char → Nat → M (Nat × List Char)
  | [], n => return (n, [])
  | c :: endp, n =>
    if isxdigit c then
      if digit c > base then error "invalid digit in number"
      else if n ≥ TUINT_MAX / base - digit c then error "overflow in number"
      else digitLoop base endp ((n * base + digit c) % (TUINT_MAX + 1))
    else return (n, c :: endp)

/-- The value, and what follows the number. -/
def number (textp : List Char) : M (Nat × List Char) := do
  let (n, endp) ← digitLoop (radix textp).1 (radix textp).2 0
  let _ ← tok2str textp endp
  return (n, endp)

/-- The literals: a base with its mark, and the digits. -/
inductive Literal : Nat → List Char → List Char → Prop
  | decimal {c : Char} {ds : List Char} (first : c.isDigit) (nonzero : c ≠ '0') (all : ∀ d ∈ c :: ds, isxdigit d) :
      Literal 10 [] (c :: ds)
  | octal {ds : List Char} (all : ∀ d ∈ ds, isxdigit d) : Literal 8 ['0'] ds
  | hexadecimal {ds : List Char} (some_ : ds ≠ []) (all : ∀ d ∈ ds, isxdigit d) : Literal 16 ['0', 'x'] ds

/-- The literal ends here. -/
def Ended (mark ds rest : List Char) : Prop :=
  (∀ c, rest.head? = some c → isxdigit c = false) ∧ (mark ++ ds = ['0'] → rest.head? ≠ some 'x')

/-- The digits are digits of the base, and the value fits. -/
def Representable (base : Nat) (ds : List Char) : Prop := (∀ c ∈ ds, digit c < base) ∧ readDigits base digit ds ≤ TUINT_MAX

/-- A literal with a value gives this value, and each other one an error. -/
def Right (base : Nat) (mark ds rest : List Char) : Prop :=
  (Representable base ds → number (mark ++ ds ++ rest) = .ok (readDigits base digit ds, rest)) ∧
    (¬ Representable base ds → ∃ msg, number (mark ++ ds ++ rest) = .error (.error msg))

/-- The literal fits in a token, and the last digit and the value of the digits before it are together less
than `TUINT_MAX/base`. -/
def Narrow (base : Nat) (mark ds : List Char) : Prop :=
  (mark ++ ds).length ≤ INTIDENTSIZ ∧
    ∀ es c, ds = es ++ [c] → readDigits base digit es + digit c < TUINT_MAX / base

/-! The loop. -/

/-- No digit is an error. -/
def Passes (base : Nat) : Nat → List Char → Prop
  | _, [] => True
  | n, c :: ds => digit c ≤ base ∧ n + digit c < TUINT_MAX / base ∧ Passes base (n * base + digit c) ds

/-- The value of more digits after those that have the value `n`. -/
def extend (base n : Nat) (ds : List Char) : Nat := ds.foldl (fun v c => v * base + digit c) n

section
attribute [local simp] radix digitLoop number Passes extend tok2str
end

variable {base n : Nat} {mark ds rest : List Char}

theorem no_wrap {d : Nat} (below : n + d < TUINT_MAX / base) : n * base + d ≤ TUINT_MAX := by
  have most := Nat.div_mul_le_self TUINT_MAX base
  have less : (n + d) * base + base ≤ TUINT_MAX / base * base := by
    rw [← Nat.succ_mul]
    exact Nat.mul_le_mul_right base below
  rw [Nat.add_mul] at less
  rcases Nat.eq_zero_or_pos base with rfl | positive
  · rw [Nat.div_zero] at below
    cases below
  · have := Nat.le_mul_of_pos_right d positive
    omega

theorem digitLoop_rest (ended : ∀ c, rest.head? = some c → isxdigit c = false) : digitLoop base rest n = .ok (n, rest) := by
  cases rest with
  | nil => rfl
  | cons c rest =>
    have other := ended c rfl
    unfold digitLoop
    rw [other]
    rfl

theorem digitLoop_passes (all : ∀ c ∈ ds, isxdigit c) (ended : ∀ c, rest.head? = some c → isxdigit c = false)
    (passes : Passes base n ds) : digitLoop base (ds ++ rest) n = .ok (extend base n ds, rest) := by
  induction ds generalizing n with
  | nil => exact digitLoop_rest ended
  | cons c ds ih =>
    obtain ⟨valid, below, later⟩ := passes
    have fits := no_wrap below
    rw [List.cons_append, digitLoop, if_pos (all c List.mem_cons_self), if_neg (by omega), if_neg (by omega),
      Nat.mod_eq_of_lt (Nat.lt_succ_of_le fits)]
    exact ih (fun d member => all d (List.mem_cons_of_mem c member)) later

theorem digitLoop_error (rest : List Char) (all : ∀ c ∈ ds, isxdigit c) (fails : ¬ Passes base n ds) :
    ∃ msg, digitLoop base (ds ++ rest) n = .error (.error msg) := by
  induction ds generalizing n with
  | nil => exact absurd trivial fails
  | cons c ds ih =>
    rw [List.cons_append, digitLoop, if_pos (all c List.mem_cons_self)]
    by_cases invalid : digit c > base
    · rw [if_pos invalid]
      exact ⟨_, rfl⟩
    rw [if_neg invalid]
    by_cases large : n ≥ TUINT_MAX / base - digit c
    · rw [if_pos large]
      exact ⟨_, rfl⟩
    have below : n + digit c < TUINT_MAX / base := by omega
    rw [if_neg large, Nat.mod_eq_of_lt (Nat.lt_succ_of_le (no_wrap below))]
    refine ih (fun d member => all d (List.mem_cons_of_mem c member)) fun later => fails ⟨Nat.not_lt.mp invalid, below, later⟩

theorem passes_snoc {es : List Char} {c : Char} :
    Passes base n (es ++ [c]) ↔ Passes base n es ∧ digit c ≤ base ∧ extend base n es + digit c < TUINT_MAX / base := by
  induction es generalizing n with
  | nil => simp [Passes, extend]
  | cons d es ih =>
    simp only [List.cons_append, Passes, ih, extend, List.foldl_cons, and_assoc]

theorem extend_snoc {es : List Char} {c : Char} : extend base n (es ++ [c]) = extend base n es * base + digit c := by
  simp [extend]

/-- The test of the last digit is the strictest one. -/
theorem passes_iff (ds : List Char) (positive : 0 < base) :
    Passes base 0 ds ↔ (∀ c ∈ ds, digit c ≤ base) ∧ ∀ es c, ds = es ++ [c] → extend base 0 es + digit c < TUINT_MAX / base := by
  induction ds using List.reverseRecOn with
  | nil => simp [Passes]
  | append_singleton es c ih =>
    have last : (∀ es' c', es ++ [c] = es' ++ [c'] → extend base 0 es' + digit c' < TUINT_MAX / base) ↔
        extend base 0 es + digit c < TUINT_MAX / base := by
      constructor
      · exact fun every => every es c rfl
      · intro below es' c' same
        obtain ⟨rfl, one⟩ := List.append_inj' same rfl
        exact (List.cons.inj one).1 ▸ below
    rw [passes_snoc, last, ih]
    constructor
    · rintro ⟨⟨valid, -⟩, here, below⟩
      refine ⟨fun d member => ?_, below⟩
      rcases List.mem_append.mp member with before | same
      · exact valid d before
      · exact List.mem_singleton.mp same ▸ here
    · rintro ⟨valid, below⟩
      refine ⟨⟨fun d member => valid d (List.mem_append_left _ member), ?_⟩, valid c (by simp), below⟩
      rintro es' d rfl
      rw [extend_snoc] at below
      have := Nat.le_mul_of_pos_right (extend base 0 es') positive
      omega

theorem Literal.radix (literal : Literal base mark ds) (ended : Ended mark ds rest) :
    Numbers.radix (mark ++ ds ++ rest) = (base, ds ++ rest) := by
  cases literal with
  | @decimal c ds first nonzero all =>
    simp only [List.nil_append, List.cons_append]
    unfold Numbers.radix
    split
    · rename_i same
      exact absurd (List.cons.inj same).1 nonzero
    · rename_i same
      exact absurd (List.cons.inj same).1 nonzero
    · rfl
  | octal all =>
    simp only [List.cons_append, List.nil_append]
    unfold Numbers.radix
    split
    · rename_i endp same
      have same := (List.cons.inj same).2
      cases ds with
      | nil =>
        rw [List.nil_append] at same
        exact absurd (congrArg List.head? same) (ended.2 rfl)
      | cons d ds =>
        have here : d = 'x' := (List.cons.inj same).1
        have digit := all d List.mem_cons_self
        rw [here] at digit
        exact absurd digit (by decide)
    · rename_i endp other same
      rw [(List.cons.inj same).2]
    · rename_i none
      exact absurd rfl (none _)
  | hexadecimal some_ all => rfl

theorem Literal.positive (literal : Literal base mark ds) : 0 < base := by
  cases literal <;> decide

theorem Literal.all (literal : Literal base mark ds) : ∀ c ∈ ds, isxdigit c := by
  cases literal <;> assumption

/-- Without an error in the loop, the length decides. -/
theorem number_passes (literal : Literal base mark ds) (ended : Ended mark ds rest) (passes : Passes base 0 ds) :
    number (mark ++ ds ++ rest) =
      if (mark ++ ds).length > INTIDENTSIZ then .error (.error "token too big") else .ok (readDigits base digit ds, rest) := by
  have loop := digitLoop_passes literal.all ended.1 passes
  have length : (mark ++ ds ++ rest).length - rest.length = (mark ++ ds).length := by
    rw [List.length_append, Nat.add_sub_cancel]
  unfold number
  simp only [literal.radix ended, loop, tok2str, bind, Except.bind, length]
  by_cases long : (mark ++ ds).length > INTIDENTSIZ
  · rw [if_pos long, if_pos long]
    rfl
  · rw [if_neg long, if_neg long]
    rfl

theorem number_error (literal : Literal base mark ds) (ended : Ended mark ds rest) (fails : ¬ Passes base 0 ds) :
    ∃ msg, number (mark ++ ds ++ rest) = .error (.error msg) := by
  obtain ⟨msg, loop⟩ := digitLoop_error rest literal.all fails
  refine ⟨msg, ?_⟩
  unfold number
  simp only [literal.radix ended, loop]
  rfl

theorem Passes.fits (passes : Passes base 0 ds) : readDigits base digit ds ≤ TUINT_MAX := by
  induction ds using List.reverseRecOn with
  | nil => exact Nat.zero_le _
  | append_singleton es c ih =>
    have value : readDigits base digit (es ++ [c]) = extend base 0 es * base + digit c := extend_snoc
    rw [value]
    exact no_wrap (passes_snoc.mp passes).2.2

/-- The number is read right if and only if its last digit does not come near the largest value, or it does not
fit; and an invalid digit is found unless it is the base itself and nothing else is wrong. -/
theorem number_right (literal : Literal base mark ds) (ended : Ended mark ds rest) :
    Right base mark ds rest ↔
      ((∀ c ∈ ds, digit c < base) → TUINT_MAX < readDigits base digit ds ∨ Narrow base mark ds) ∧
        (¬ (∀ c ∈ ds, digit c < base) → (∃ c ∈ ds, base < digit c) ∨ ¬ Narrow base mark ds) := by
  have strict := passes_iff ds literal.positive
  by_cases passes : Passes base 0 ds
  · obtain ⟨valid, below⟩ := strict.mp passes
    have narrow : Narrow base mark ds ↔ (mark ++ ds).length ≤ INTIDENTSIZ := and_iff_left below
    have small : ¬ ∃ c ∈ ds, base < digit c := fun ⟨c, member, large⟩ => absurd (valid c member) (Nat.not_le.mpr large)
    have represents : Representable base ds ↔ ∀ c ∈ ds, digit c < base := and_iff_left passes.fits
    have read := number_passes literal ended passes
    rw [Right, read, represents, narrow, or_iff_right (Nat.not_lt.mpr passes.fits), or_iff_right small]
    by_cases long : (mark ++ ds).length > INTIDENTSIZ
    · rw [if_pos long]
      refine and_congr (imp_congr_right fun _ => iff_of_false nofun (Nat.not_le.mpr long)) (imp_congr_right fun _ => ?_)
      exact iff_of_true ⟨_, rfl⟩ (Nat.not_le.mpr long)
    · rw [if_neg long]
      refine and_congr (imp_congr_right fun _ => iff_of_true rfl (Nat.not_lt.mp long)) (imp_congr_right fun _ => ?_)
      exact iff_of_false nofun (not_not_intro (Nat.not_lt.mp long))
  · obtain ⟨msg, failed⟩ := number_error literal ended passes
    have narrow : (∀ c ∈ ds, digit c ≤ base) → ¬ Narrow base mark ds := fun valid both => passes (strict.mpr ⟨valid, both.2⟩)
    rw [Right, failed]
    have found : ¬ Representable base ds → ∃ msg', (.error (.error msg) : M (Nat × List Char)) = .error (.error msg') :=
      fun _ => ⟨msg, rfl⟩
    have marked : (∃ c ∈ ds, base < digit c) ∨ ¬ Narrow base mark ds := by
      by_cases large : ∃ c ∈ ds, base < digit c
      · exact .inl large
      · exact .inr (narrow fun c member => Nat.not_lt.mp fun less => large ⟨c, member, less⟩)
    rw [and_iff_left found, and_iff_left fun _ => marked]
    constructor
    · intro wrong valid
      exact .inl (Nat.not_le.mp fun fits => nomatch wrong ⟨valid, fits⟩)
    · rintro right ⟨valid, fits⟩
      rcases right valid with large | both
      · exact absurd fits (Nat.not_le.mpr large)
      · exact absurd both (narrow fun c member => Nat.le_of_lt (valid c member))

theorem octal_seven : Literal 8 ['0'] ['7'] ∧ Ended ['0'] ['7'] [] ∧ Right 8 ['0'] ['7'] [] := by
  have literal : Literal 8 ['0'] ['7'] := .octal (List.forall_mem_singleton.mpr rfl)
  have ended : Ended ['0'] ['7'] [] := ⟨nofun, nofun⟩
  have valid : ∀ c ∈ ['7'], digit c < 8 := List.forall_mem_singleton.mpr (by decide)
  refine ⟨literal, ended, (number_right literal ended).mpr ⟨fun _ => .inr ⟨by decide, ?_⟩, fun invalid => absurd valid invalid⟩⟩
  intro es c same
  cases es with
  | nil =>
    cases same
    decide
  | cons d es => exact absurd (congrArg List.length same) (by simp)

/-- `08` is 8. -/
theorem octal_eight : Literal 8 ['0'] ['8'] ∧ Ended ['0'] ['8'] [] ∧ ¬ Right 8 ['0'] ['8'] [] := by
  refine ⟨.octal (List.forall_mem_singleton.mpr rfl), ⟨nofun, nofun⟩, ?_⟩
  rintro ⟨-, reported⟩
  obtain ⟨msg, failed⟩ := reported fun represents => absurd (List.forall_mem_singleton.mp represents.1) (by decide)
  have read : number ['0', '8'] = .ok (8, []) := rfl
  rw [List.cons_append, List.append_nil, List.nil_append, read] at failed
  cases failed

end Scc.As.Numbers
