import Scc.Libc.Stdio.Conversion

set_option linter.all false

/-! What `vfprintf` reads of a conversion before its letter. -/
namespace Scc.Libc.Stdio.Printf
open Text Transition

/-! ## Decimal numbers -/

theorem int_spec (v : Int) : ∃ k : Int, int v = v + 4294967296 * k ∧ -2147483648 ≤ int v ∧ int v < 2147483648 := by
  have least : -((2 ^ 32 : Nat) / 2 : Int) ≤ v.bmod (2 ^ 32) := Int.le_bmod (by decide)
  have most : v.bmod (2 ^ 32) < (((2 ^ 32 : Nat) : Int) + 1) / 2 := Int.bmod_lt (by decide)
  obtain ⟨k, same⟩ : ((2 ^ 32 : Nat) : Int) ∣ v.bmod (2 ^ 32) - v := Int.dvd_bmod_sub_self
  refine ⟨k, ?_, ?_, ?_⟩
  · unfold int
    omega
  · unfold int
    omega
  · unfold int
    omega

theorem int_of_small {v : Int} (least : -2147483648 ≤ v) (most : v < 2147483648) : int v = v := by
  obtain ⟨k, same, low, high⟩ := int_spec v
  omega

/-- A number with one more digit wraps as the number that wraps already. -/
theorem int_digit (a d : Int) : int (int a * 10 + (48 + d) - 48) = int (a * 10 + d) := by
  obtain ⟨k, same, low, high⟩ := int_spec a
  obtain ⟨l, same', low', high'⟩ := int_spec (int a * 10 + (48 + d) - 48)
  obtain ⟨m, same'', low'', high''⟩ := int_spec (a * 10 + d)
  omega

/-- No digit follows. -/
def Stops (o : Outside) (tail : List Int) : Prop := ∀ c rest, tail = c :: rest → isdigit o c = false

variable {o : Outside} {tail : List Int}

theorem decimal_stops (stops : Stops o tail) (n : Int) : decimal o tail n = (n, tail) := by
  cases tail with
  | nil => rfl
  | cons c rest =>
    have other := stops c rest rfl
    unfold decimal
    rw [other, if_neg Bool.false_ne_true]

theorem isdigit_digitChar (o : Outside) (d : Fin 10) : isdigit o (digitChar d) = true := by
  apply isdigit_digit
  unfold digitChar
  omega

theorem decimal_digits (stops : Stops o tail) (ds : List (Fin 10)) (a : Nat) :
    decimal o (ds.map digitChar ++ tail) (int a) = (int (ds.foldl (fun v d => v * 10 + d.val) a : Nat), tail) := by
  induction ds generalizing a with
  | nil => exact decimal_stops stops _
  | cons d ds ih =>
    change decimal o (digitChar d :: (ds.map digitChar ++ tail)) (int a) = _
    have next : int (int a * 10 + digitChar d - 48) = int ((a * 10 + d.val : Nat) : Int) := by
      rw [digitChar, int_digit, Int.natCast_add, Int.natCast_mul]
      rfl
    unfold decimal
    rw [if_pos (isdigit_digitChar o d), next, ih]
    rfl

theorem decimal_number (stops : Stops o tail) (ds : List (Fin 10)) :
    decimal o (ds.map digitChar ++ tail) 0 = (int (decimalValue ds), tail) := decimal_digits stops ds 0

/-! ## Flags and width -/

/-- A zero is a flag, and it is not read as a digit behind a `-`. -/
def zeroed (behind : Bool) : List Flag → Bool
  | [] => false
  | .zero :: fs => !behind || zeroed behind fs
  | .minus :: fs => zeroed true fs
  | _ :: fs => zeroed false fs

/-- The width that is read, where there are digits for it. -/
def Width.read (left : Bool) (given : BitVec 64) : Width → Int
  | .omitted => 0
  | .number lead rest => if left then int (-int (decimalValue (lead.succ :: rest))) else int (decimalValue (lead.succ :: rest))
  | .star => (given.setWidth 32).toInt

/-- The directive after the flags and the width. -/
def settled (behind : Bool) (fs : List Flag) (w : Width) (given : BitVec 64) (d : Directive) : Directive where
  fill := bif zeroed behind fs then 48 else d.fill
  prec := d.prec
  left := d.left || fs.contains .minus
  flags := if .hash ∈ fs then d.flags ||| ALTFORM else d.flags
  width := w.read (d.left || fs.contains .minus) given
  conv := { d.conv with sign := if .plus ∈ fs then 43 else if .space ∈ fs ∧ d.conv.sign = 0 then 32 else d.conv.sign }

variable {args : List Arg} {cnt inc : Nat} {given : BitVec 64} {control : Control} {d : Directive}

/-- The digits of a width are read. -/
theorem width_digits (o : Outside) {fmt : List Int} {n : Int} (read : decimal o fmt 0 = (n, tail)) (d : Directive) :
    Machine.width o ⟨fmt, args, cnt, inc, control⟩ d =
      .more [] ⟨tail, args, cnt, inc, .flags { d with width := if d.left then int (-n) else n }⟩ := by
  unfold Machine.width
  dsimp only
  rw [read]
  rfl

theorem settled_nil (w : Width) (behind : Bool) :
    settled behind [] w given d = { d with width := w.read d.left given } := by
  unfold settled
  simp [zeroed]

theorem switch_digit (o : Outside) (m : Machine) (d : Directive) (lead : Fin 9) :
    m.switch o d (digitChar lead.succ) = { m with fmt := digitChar lead.succ :: m.fmt }.width o d := by
  match lead with
  | 0 => rfl
  | 1 => rfl
  | 2 => rfl
  | 3 => rfl
  | 4 => rfl
  | 5 => rfl
  | 6 => rfl
  | 7 => rfl
  | 8 => rfl

/-- A width after the flags, where no width has been read. -/
theorem width_run (w : Width) (stops : Stops o tail) (fresh : d.width = 0) :
    ∃ n, Runs (Machine.step o) n ⟨w.chars ++ tail, w.args given ++ args, cnt, inc, .flags d⟩ []
      ⟨tail, args, cnt, inc, .flags (settled false [] w given d)⟩ := by
  rw [settled_nil]
  cases w with
  | omitted =>
    have same : { d with width := Width.omitted.read d.left given } = d := by
      rw [Width.read, ← fresh]
    rw [same]
    exact ⟨0, .refl _⟩
  | number lead rest =>
    refine ⟨1, .one ?_⟩
    change Machine.switch o _ d (digitChar lead.succ) = _
    rw [switch_digit]
    have read := decimal_number stops (lead.succ :: rest)
    exact width_digits o read d
  | star => exact ⟨1, .one rfl⟩

theorem isdigit_other {c : Int} (inside : -1 ≤ c ∧ c ≤ 255) (other : ¬(48 ≤ c ∧ c ≤ 57)) : isdigit o c = false := by
  unfold isdigit
  rw [if_pos inside]
  exact decide_eq_false other

theorem stops_other {c : Int} (inside : -1 ≤ c ∧ c ≤ 255) (other : ¬(48 ≤ c ∧ c ≤ 57)) (rest : List Int) : Stops o (c :: rest) := by
  intro c' rest' same
  cases same
  exact isdigit_other inside other

theorem stops_flag {f : Flag} (other : f ≠ .zero) (rest : List Int) : Stops o (f.char :: rest) := by
  cases f with
  | minus => exact stops_other (by decide) (by decide) rest
  | plus => exact stops_other (by decide) (by decide) rest
  | space => exact stops_other (by decide) (by decide) rest
  | hash => exact stops_other (by decide) (by decide) rest
  | zero => exact absurd rfl other

/-- What is read behind a `-`. -/
def Minus (o : Outside) (fs : List Flag) (w : Width) (given : BitVec 64) (tail : List Int) (args : List Arg) (cnt inc : Nat) : Prop :=
  ∀ d control, d.width = 0 → d.left = true → ∃ next n,
    Machine.width o ⟨fs.map Flag.char ++ (w.chars ++ tail), w.args given ++ args, cnt, inc, control⟩ d = .more [] next ∧
      Runs (Machine.step o) n next [] ⟨tail, args, cnt, inc, .flags (settled true fs w given d)⟩

/-- What is read at the first flag. -/
def Flags (o : Outside) (fs : List Flag) (w : Width) (given : BitVec 64) (tail : List Int) (args : List Arg) (cnt inc : Nat) : Prop :=
  ∀ d, d.width = 0 → ∃ n,
    Runs (Machine.step o) n ⟨fs.map Flag.char ++ (w.chars ++ tail), w.args given ++ args, cnt, inc, .flags d⟩ []
      ⟨tail, args, cnt, inc, .flags (settled false fs w given d)⟩

theorem minus_nil (w : Width) (stops : Stops o tail) : Minus o [] w given tail args cnt inc := by
  intro d control fresh left
  rw [settled_nil]
  cases w with
  | omitted =>
    refine ⟨_, 0, width_digits o (decimal_stops stops 0) d, ?_⟩
    rw [left]
    exact .refl _
  | number lead rest =>
    have read := decimal_number stops (lead.succ :: rest)
    refine ⟨_, 0, width_digits o read d, ?_⟩
    rw [left]
    exact .refl _
  | star =>
    have stops : Stops o (42 :: tail) := stops_other (by decide) (by decide) tail
    exact ⟨_, 1, width_digits o (decimal_stops stops 0) d, .one rfl⟩

theorem minus_zero {fs : List Flag} {w : Width} (later : Minus o fs w given tail args cnt inc) :
    Minus o (.zero :: fs) w given tail args cnt inc := by
  intro d control fresh left
  obtain ⟨next, n, read, run⟩ := later d control fresh left
  have same : settled true (.zero :: fs) w given d = settled true fs w given d := by
    unfold settled
    simp [zeroed]
  rw [same]
  refine ⟨next, n, ?_, run⟩
  rw [← read]
  unfold Machine.width
  dsimp only
  have skipped : decimal o ((Flag.zero :: fs).map Flag.char ++ (w.chars ++ tail)) 0 = decimal o (fs.map Flag.char ++ (w.chars ++ tail)) 0 := by
    change decimal o (48 :: (fs.map Flag.char ++ (w.chars ++ tail))) 0 = _
    rw [decimal, if_pos (isdigit_digit (by decide))]
    rfl
  rw [skipped]

theorem minus_flags {fs : List Flag} {f : Flag} {w : Width} (other : f ≠ .zero) (at_flag : Flags o (f :: fs) w given tail args cnt inc) :
    Minus o (f :: fs) w given tail args cnt inc := by
  intro d control fresh left
  have same : settled true (f :: fs) w given d = settled false (f :: fs) w given { d with width := if d.left then int (-0) else 0 } := by
    unfold settled
    cases f with
    | zero => exact absurd rfl other
    | minus => rfl
    | plus => rfl
    | space => rfl
    | hash => rfl
  obtain ⟨n, run⟩ := at_flag { d with width := if d.left then int (-0) else 0 } (by rw [left]; rfl)
  rw [same]
  exact ⟨_, n, width_digits o (decimal_stops (stops_flag other _) 0) d, run⟩

/-- The flags and the width are read up to what stands behind them. -/
theorem flags_run (fs : List Flag) (w : Width) (given : BitVec 64) (args : List Arg) (cnt inc : Nat) (stops : Stops o tail) :
    Flags o fs w given tail args cnt inc ∧ Minus o fs w given tail args cnt inc := by
  induction fs with
  | nil =>
    refine ⟨?_, minus_nil w stops⟩
    intro d fresh
    exact width_run w stops fresh
  | cons f fs ih =>
    obtain ⟨at_flag, behind_minus⟩ := ih
    -- a flag sets one variable, and the others are read as if it were set before
    have single : ∀ e : Directive → Directive, (∀ d, (e d).width = d.width) →
        (∀ (m : Machine) d, m.switch o d f.char = m.goto (e d)) →
        (∀ d, settled false fs w given (e d) = settled false (f :: fs) w given d) → Flags o (f :: fs) w given tail args cnt inc := by
      intro e keeps goes same d fresh
      obtain ⟨n, run⟩ := at_flag (e d) ((keeps d).trans fresh)
      rw [same] at run
      exact ⟨n + 1, .silent (goes _ d) run⟩
    cases f with
    | plus =>
      have first : Flags o (.plus :: fs) w given tail args cnt inc := by
        refine single (fun d => { d with conv := { d.conv with sign := 43 } }) (fun _ => rfl) (fun _ _ => rfl) ?_
        intro d
        simp [settled, zeroed]
      exact ⟨first, minus_flags nofun first⟩
    | space =>
      have first : Flags o (.space :: fs) w given tail args cnt inc := by
        refine single (fun d => { d with conv := { d.conv with sign := if d.conv.sign = 0 then 32 else d.conv.sign } })
          (fun _ => rfl) (fun _ _ => rfl) ?_
        intro d
        by_cases none : d.conv.sign = 0
        · simp [settled, zeroed, none]
        · simp [settled, zeroed, none]
      exact ⟨first, minus_flags nofun first⟩
    | hash =>
      have first : Flags o (.hash :: fs) w given tail args cnt inc := by
        refine single (fun d => { d with flags := d.flags ||| ALTFORM }) (fun _ => rfl) (fun _ _ => rfl) ?_
        intro d
        simp [settled, zeroed, Nat.or_assoc]
      exact ⟨first, minus_flags nofun first⟩
    | zero =>
      refine ⟨?_, minus_zero behind_minus⟩
      refine single (fun d => { d with fill := 48 }) (fun _ => rfl) (fun _ _ => rfl) ?_
      intro d
      simp [settled, zeroed]
    | minus =>
      have first : Flags o (.minus :: fs) w given tail args cnt inc := by
        intro d fresh
        obtain ⟨next, n, read, run⟩ := behind_minus { d with left := true } (.flags d) fresh rfl
        have same : settled true fs w given { d with left := true } = settled false (.minus :: fs) w given d := by
          simp [settled, zeroed]
        rw [same] at run
        exact ⟨n + 1, .silent read run⟩
      exact ⟨first, minus_flags nofun first⟩

/-! ## Precision and modifier -/

/-- The precision that is read; it is omitted where it is not a value that an `int` holds. -/
def Precision.read (given : BitVec 64) : Precision → Option Nat
  | .omitted => none
  | .number digits => if 0 ≤ int (decimalValue digits) then some (int (decimalValue digits)).toNat else none
  | .star => if 0 ≤ (given.setWidth 32).toInt then some (given.setWidth 32).toInt.toNat else none

def Directive.precise (d : Directive) : Option Nat → Directive
  | none => d
  | some n => { d with prec := true, conv := { d.conv with prec := n } }

theorem precise_given (d : Directive) (n : Int) :
    (if n ≥ 0 then { d with prec := true, conv := { d.conv with prec := n.toNat } } else d) = d.precise (if 0 ≤ n then some n.toNat else none) := by
  by_cases positive : 0 ≤ n
  · rw [if_pos positive, if_pos positive]
    rfl
  · rw [if_neg positive, if_neg positive]
    rfl

theorem precision_digits (o : Outside) {fmt : List Int} {n : Int} (read : decimal o fmt 0 = (n, tail)) (other : fmt.head? ≠ some 42)
    (d : Directive) : Machine.precision o ⟨fmt, args, cnt, inc, control⟩ d =
      .more [] ⟨tail, args, cnt, inc, .flags (d.precise (if 0 ≤ n then some n.toNat else none))⟩ := by
  unfold Machine.precision
  dsimp only
  split
  · rename_i more
    exact absurd rfl other
  · rw [read, ← precise_given]
    rfl

theorem precision_run (p : Precision) (given : BitVec 64) (args : List Arg) (cnt inc : Nat) (stops : Stops o tail) (other : tail.head? ≠ some 42)
    (d : Directive) :
    ∃ n, Runs (Machine.step o) n ⟨p.chars ++ tail, p.args given ++ args, cnt, inc, .flags d⟩ []
      ⟨tail, args, cnt, inc, .flags (d.precise (p.read given))⟩ := by
  cases p with
  | omitted => exact ⟨0, .refl _⟩
  | number digits =>
    refine ⟨1, .one ?_⟩
    change Machine.precision o ⟨digits.map digitChar ++ tail, args, cnt, inc, _⟩ d = _
    apply precision_digits o (decimal_number stops digits)
    cases digits with
    | nil => exact other
    | cons digit digits =>
      intro star
      have same : 48 + (digit.val : Int) = 42 := Option.some.inj star
      omega
  | star =>
    refine ⟨1, .one ?_⟩
    rw [Precision.read, ← precise_given]
    rfl

/-- The bits of `flags` that the modifier sets. -/
def Modifier.flags : Modifier → Nat
  | .none => 0
  | .hh => CHAR
  | .h => SHORT
  | .l => LONG
  | .ll => LLONG
  | .j => INTMAX
  | .z => SIZET
  | .t => PTRDIFF

theorem modifier_run (o : Outside) (m : Modifier) (tail : List Int) (args : List Arg) (cnt inc : Nat) (plain : d.flags = 0 ∨ d.flags = ALTFORM) :
    ∃ n, Runs (Machine.step o) n ⟨m.chars ++ tail, args, cnt, inc, .flags d⟩ []
      ⟨tail, args, cnt, inc, .flags { d with flags := d.flags + m.flags }⟩ := by
  have free : d.flags ||| INTMAX = d.flags + INTMAX ∧ d.flags ||| SIZET = d.flags + SIZET ∧ d.flags ||| PTRDIFF = d.flags + PTRDIFF := by
    rcases plain with none | alternate
    · rw [none]
      decide
    · rw [alternate]
      decide
  obtain ⟨intmax, sizet, ptrdiff⟩ := free
  cases m with
  | none => exact ⟨0, .refl _⟩
  | hh => exact ⟨2, .silent rfl (.one rfl)⟩
  | h => exact ⟨1, .one rfl⟩
  | l => exact ⟨1, .one rfl⟩
  | ll => exact ⟨2, .silent rfl (.one rfl)⟩
  | j =>
    rw [Modifier.flags, ← intmax]
    exact ⟨1, .one rfl⟩
  | z =>
    rw [Modifier.flags, ← sizet]
    exact ⟨1, .one rfl⟩
  | t =>
    rw [Modifier.flags, ← ptrdiff]
    exact ⟨1, .one rfl⟩

/-! ## The whole conversion -/

/-- The directive with which the number is converted. -/
def Letter.directive (l : Letter) (d : Directive) : Directive :=
  { d with
    flags := if l.signed then d.flags else d.flags ||| UNSIGNED
    conv := { d.conv with digs := if l = .x then lowerDigs else d.conv.digs, base := l.base } }

theorem switch_letter (l : Letter) (o : Outside) (m : Machine) (d : Directive) : m.switch o d l.char = m.numeric o (l.directive d) := by
  cases l with
  | d => rfl
  | i => rfl
  | u => rfl
  | o => rfl
  | x => rfl
  | X => rfl

namespace Conversion
variable (c : Conversion) (given : Given)

/-- The directive at the letter. -/
def before : Directive :=
  let d := (settled false c.flags c.width given.width .plain).precise (c.precision.read given.precision)
  { d with flags := d.flags + c.modifier.flags }

def read : Directive := c.letter.directive (c.before given)

end Conversion

theorem stops_letter (l : Letter) (rest : List Int) : Stops o (l.char :: rest) ∧ (l.char :: rest).head? ≠ some 42 := by
  cases l <;> exact ⟨stops_other (by decide) (by decide) rest, by simp [Letter.char]⟩

theorem stops_modifier (m : Modifier) (l : Letter) (rest : List Int) :
    Stops o (m.chars ++ l.char :: rest) ∧ (m.chars ++ l.char :: rest).head? ≠ some 42 := by
  cases m with
  | none => exact stops_letter l rest
  | _ => exact ⟨stops_other (by decide) (by decide) _, by simp [Modifier.chars]⟩

theorem stops_precision (p : Precision) (stops : Stops o tail) : Stops o (p.chars ++ tail) := by
  cases p with
  | omitted => exact stops
  | number digits => exact stops_other (by decide) (by decide) _
  | star => exact stops_other (by decide) (by decide) _

theorem precise_flags (d : Directive) (n : Option Nat) : (d.precise n).flags = d.flags := by
  cases n <;> rfl

namespace Conversion
variable (c : Conversion) (given : Given)

/-- The conversion is read up to its letter. -/
theorem chars_run (o : Outside) (rest : List Int) (args : List Arg) (cnt inc : Nat) :
    ∃ n, Runs (Machine.step o) n ⟨37 :: (c.chars ++ rest), c.args given ++ args, cnt, inc, .text⟩ []
      ⟨c.letter.char :: rest, .word given.number :: args, cnt, inc, .flags (c.before given)⟩ := by
  obtain ⟨stops, no_star⟩ := stops_modifier (o := o) c.modifier c.letter rest
  obtain ⟨first, -⟩ := flags_run c.flags c.width given.width (c.precision.args given.precision ++ .word given.number :: args) cnt inc
    (stops_precision c.precision stops)
  obtain ⟨n, flags⟩ := first .plain rfl
  obtain ⟨m, precision⟩ := precision_run c.precision given.precision (.word given.number :: args) cnt inc stops no_star
    (settled false c.flags c.width given.width .plain)
  have plain : ((settled false c.flags c.width given.width .plain).precise (c.precision.read given.precision)).flags = 0 ∨
      ((settled false c.flags c.width given.width .plain).precise (c.precision.read given.precision)).flags = ALTFORM := by
    rw [precise_flags]
    unfold settled
    by_cases alternate : Flag.hash ∈ c.flags
    · exact .inr (if_pos alternate)
    · exact .inl (if_neg alternate)
  obtain ⟨k, modifier⟩ := modifier_run o c.modifier (c.letter.char :: rest) (.word given.number :: args) cnt inc plain
  have run := (flags.trans precision).trans modifier
  have chars : c.chars ++ rest = c.flags.map Flag.char ++ (c.width.chars ++ (c.precision.chars ++ (c.modifier.chars ++ c.letter.char :: rest))) := by
    simp [Conversion.chars]
  have args : c.args given ++ args = c.width.args given.width ++ (c.precision.args given.precision ++ .word given.number :: args) := by
    simp [Conversion.args]
  rw [chars, args]
  exact ⟨n + m + k + 1, .silent rfl run⟩

end Conversion

end Scc.Libc.Stdio.Printf
