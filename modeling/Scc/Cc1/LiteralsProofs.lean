import Scc.Cc1.Numbers

set_option linter.all false

/-! What C reads in a literal (6.4.4.4 and 6.4.5), and when cc1 reads the same. -/
namespace Scc.Cc1.Literals
open Numbers Text

/-- A string literal, a character constant, and one with the prefix `L`. -/
inductive Kind where
  | string | character | wide
  deriving DecidableEq

namespace Kind

def closing : Kind → UInt8
  | .string => quote
  | _ => apostrophe

def multi : Kind → Bool
  | .wide => true
  | _ => false

end Kind

/-- One character of a literal: a source character with its bytes, or an escape sequence
without its backslash. -/
inductive Piece where
  | plain (c : UInt8) (more : List UInt8)
  | simple (e : Char) (value : Nat)
  | octal (digits : List UInt8)
  | hex (digits : List UInt8)
  deriving DecidableEq

def simples : List (Char × Nat) :=
  [('\'', 39), ('"', 34), ('?', 63), ('\\', 92), ('a', 7), ('b', 8), ('f', 12), ('n', 10), ('r', 13), ('t', 9),
    ('v', 11)]

/-- The first byte and the later ones of a source character that has several. -/
def Utf8 (c : UInt8) (more : List UInt8) : Prop :=
  (∀ d ∈ more, d.toNat / 64 = 2) ∧
    (more.length = 1 ∧ c.toNat / 32 = 6 ∨ more.length = 2 ∧ c.toNat / 16 = 14 ∨ more.length = 3 ∧ c.toNat / 8 = 30)

instance (c : UInt8) (more : List UInt8) : Decidable (Utf8 c more) := inferInstanceAs (Decidable (_ ∧ (_ ∨ _)))

namespace Piece

def spelling : Piece → List UInt8
  | .plain c more => c :: more
  | .simple e _ => [backslash, e.toUInt8]
  | .octal digits => backslash :: digits
  | .hex digits => backslash :: Char.toUInt8 'x' :: digits

def value : Piece → Nat
  | .plain c [] => c.toNat
  | .plain c more => more.foldl (fun v d => v * 64 + d.toNat % 64) (c.toNat % 2 ^ (6 - more.length))
  | .simple _ v => v
  | .octal digits => read 8 digits
  | .hex digits => read 16 digits

/-- The largest value of an escape sequence. -/
def limit : Kind → Nat
  | .wide => 2 ^ 32 - 1
  | _ => 255

def Valid (kind : Kind) : Piece → Prop
  | .plain c more =>
    c ≠ kind.closing ∧ c ≠ backslash ∧ c ≠ 10 ∧ (more = [] ∧ (kind = .wide → c < 128) ∨ kind = .wide ∧ Utf8 c more)
  | .simple e v => (e, v) ∈ simples
  | .octal digits => (1 ≤ digits.length ∧ digits.length ≤ 3) ∧ digits.all (digit 8) ∧ read 8 digits ≤ limit kind
  | .hex digits => digits ≠ [] ∧ digits.all (digit 16) ∧ read 16 digits ≤ limit kind

instance (kind : Kind) : DecidablePred (Valid kind)
  | .plain _ _ => inferInstanceAs (Decidable (_ ∧ _ ∧ _ ∧ (_ ∨ _)))
  | .simple _ _ => inferInstanceAs (Decidable (_ ∈ _))
  | .octal _ | .hex _ => inferInstanceAs (Decidable (_ ∧ _ ∧ _))

/-- An escape sequence has all the digits that it can have. -/
def Munched (following : List UInt8) : Piece → Prop
  | .octal digits => digits.length < 3 → following.head?.all (!digit 8 ·)
  | .hex _ => following.head?.all (!digit 16 ·)
  | _ => True

instance (following : List UInt8) : DecidablePred (Munched following)
  | .octal _ => inferInstanceAs (Decidable (_ → _))
  | .hex _ => inferInstanceAs (Decidable (_ = _))
  | .plain _ _ | .simple _ _ => inferInstanceAs (Decidable True)

end Piece

/-- The text of a literal behind its opening quote. -/
def text (kind : Kind) (pieces : List Piece) (rest : List UInt8) : List UInt8 :=
  pieces.flatMap Piece.spelling ++ kind.closing :: rest

/-- C reads the text of a literal as these characters. -/
def Reads (kind : Kind) (rest : List UInt8) : List Piece → Prop
  | [] => True
  | p :: pieces => p.Valid kind ∧ p.Munched (text kind pieces rest) ∧ Reads kind rest pieces

instance decidableReads (kind : Kind) (rest : List UInt8) : DecidablePred (Reads kind rest)
  | [] => inferInstanceAs (Decidable True)
  | _ :: pieces =>
    have := decidableReads kind rest pieces
    inferInstanceAs (Decidable (_ ∧ _ ∧ _))

/-- A whole literal; only a string may be empty. -/
def Reads.Literal (kind : Kind) (rest : List UInt8) (pieces : List Piece) : Prop :=
  Reads kind rest pieces ∧ (kind = .string ∨ pieces ≠ [])

/-- The variables of the loop in `string` after some turns. -/
def Bytes.turns : Nat → Bytes → Option Bytes
  | 0, s => some s
  | n + 1, s =>
    match s.turn false with
    | some (.inr t) => turns n t
    | _ => none

/-- The variables of the loop in `character` after some turns. -/
def Runes.turns (multi : Bool) : Nat → Runes → Option Runes
  | 0, s => some s
  | n + 1, s => (s.turn multi).bind (turns multi n)

/-- A rune of the loop is the character: a byte, or the value of a wide one. -/
def Denotes (kind : Kind) (r : UInt32) (p : Piece) : Prop :=
  (if kind = .wide then r.toNat else r.toUInt8.toNat) = p.value

instance (kind : Kind) (r : UInt32) (p : Piece) : Decidable (Denotes kind r p) := inferInstanceAs (Decidable (_ = _))

/-- `string` takes the characters of the literal one by one, each whole and no other. -/
def StringRight (rest : List UInt8) (pieces : List Piece) : Prop :=
  (∀ n ≤ pieces.length, ∃ s, Bytes.turns n ⟨text .string pieces rest, [], false⟩ = some s ∧
    s.p = text .string (pieces.drop n) rest ∧ s.bytes.map UInt8.toNat = (pieces.take n).map Piece.value) ∧
  ∃ bytes, string false (text .string pieces rest) = some ⟨bytes, none, some rest⟩ ∧
    bytes.map UInt8.toNat = pieces.map Piece.value

/-- `character` takes the characters of the constant one by one. The value of several is
not prescribed. -/
def CharacterRight (kind : Kind) (rest : List UInt8) (pieces : List Piece) : Prop :=
  (∀ n ≤ pieces.length, ∃ s, Runes.turns kind.multi n ⟨text kind pieces rest, 0, 0, 0, false⟩ = some s ∧
    s.p = text kind (pieces.drop n) rest ∧ s.i = n ∧ s.invalid = false ∧ ∀ p, (pieces.take n).getLast? = some p → Denotes kind s.r p) ∧
  ∃ c, character kind.multi (text kind pieces rest) = some (c, rest) ∧ c.errors = [] ∧
    ∀ p, pieces = [p] → Denotes kind c.i p

def Right : Kind → List UInt8 → List Piece → Prop
  | .string => StringRight
  | kind => CharacterRight kind

/-- Whether `strtoul` finds a number behind white space and a sign. -/
def numbered (base : Nat) (s : List UInt8) : Bool := (sign (s.dropWhile isspace)).2.head?.any (digit base)

/-- cc1 knows the octal escapes that begin with 0, takes more than the three digits, and takes
a number behind `\0` as its digits; a hexadecimal zero may be taken as the prefix `0x`. -/
def Piece.Good (following : List UInt8) : Piece → Prop
  | .octal digits =>
    digits.head?.map Char.ofUInt8 = some '0' ∧ (digits.length = 1 → numbered 8 following = false) ∧
      (digits.length = 3 → following.head?.all (!digit 8 ·))
  | .hex digits => prefixed (digits ++ following) = false
  | _ => True

instance (following : List UInt8) : DecidablePred (Piece.Good following)
  | .octal _ => inferInstanceAs (Decidable (_ ∧ _ ∧ _))
  | .hex _ => inferInstanceAs (Decidable (_ = _))
  | .plain _ _ | .simple _ _ => inferInstanceAs (Decidable True)

def Good (kind : Kind) (rest : List UInt8) : List Piece → Prop
  | [] => True
  | p :: pieces => p.Good (text kind pieces rest) ∧ Good kind rest pieces

instance decidableGood (kind : Kind) (rest : List UInt8) : DecidablePred (Good kind rest)
  | [] => inferInstanceAs (Decidable True)
  | _ :: pieces =>
    have := decidableGood kind rest pieces
    inferInstanceAs (Decidable (_ ∧ _))

section strtoul
variable {base : Nat} {s : List UInt8}

theorem digit_xdigit {c : UInt8} (known : digit base c) : Char.ofUInt8 c ∈ letters ++ ['a', 'b', 'c', 'd', 'e', 'f'] := by
  unfold digit isdigit isxdigit at known
  split at known
  · simp only [decide_eq_true_eq] at known
    simp only [letters, decimals, List.mem_append]
    exact .inl (.inl (.inl known))
  · split at known
    · simp only [decide_eq_true_eq] at known
      simp only [letters, List.mem_append]
      exact .inl (.inl known)
    · simpa only [decide_eq_true_eq] using known

theorem digit_cases {c : UInt8} (known : digit base c) : isspace c = false ∧ Char.ofUInt8 c ≠ '-' ∧ Char.ofUInt8 c ≠ '+' ∧
    Char.ofUInt8 c ≠ 'x' ∧ Char.ofUInt8 c ≠ 'X' := by
  have among := digit_xdigit known
  simp only [letters, decimals, octals, List.cons_append, List.nil_append, List.mem_cons, List.not_mem_nil, or_false] at among
  unfold isspace
  rcases among with h | h | h | h | h | h | h | h | h | h | h | h | h | h | h | h | h | h | h | h | h | h <;>
    rw [h] <;> decide

/-- A number that begins at once: its digits are all that follow. -/
theorem strtoul_digits {c : UInt8} (first : digit base c) (plainly : base = 16 → prefixed (c :: s) = false) :
    strtoul (c :: s) base =
      (if read base (c :: s.takeWhile (digit base)) ≥ 2 ^ 64 then 2 ^ 64 - 1
        else read base (c :: s.takeWhile (digit base)), s.dropWhile (digit base)) := by
  obtain ⟨space, minus, plus, _, _⟩ := digit_cases first
  have noPrefix : (base = 16 && prefixed (c :: s)) = false := by
    by_cases hex : base = 16
    · simp [plainly hex]
    · simp [hex]
  have start : (c :: s).dropWhile isspace = c :: s := by simp [space]
  have unsigned : sign (c :: s) = (false, c :: s) := by simp [sign, minus, plus]
  simp only [strtoul, start, unsigned, noPrefix, Bool.false_eq_true, if_false, List.takeWhile_cons, List.dropWhile_cons,
    first, if_true, List.cons_ne_nil]

theorem ended {q : UInt8 → Bool} (stop : s.head?.all (!q ·)) : s.takeWhile q = [] ∧ s.dropWhile q = s := by
  cases s with
  | nil => exact ⟨rfl, rfl⟩
  | cons c s =>
    have other : q c = false := by simpa using stop
    simp [other]

theorem passed {q : UInt8 → Bool} (go : s.head?.all (!q ·) = false) : s.dropWhile q ≠ s := by
  cases s with
  | nil => simp at go
  | cons c s =>
    have known : q c = true := by simpa using go
    intro same
    have shorter := (List.dropWhile_sublist q (l := s)).length_le
    rw [List.dropWhile_cons, if_pos known] at same
    rw [same, List.length_cons] at shorter
    omega

/-- The digits of an escape sequence, and those that follow it. -/
theorem numeric_digits {digits : List UInt8} (nonempty : digits ≠ []) (all : digits.all (digit base))
    (plainly : base = 16 → prefixed (digits ++ s) = false) :
    numeric base (digits ++ s) =
      (UInt32.ofNat
        (if read base (digits ++ s.takeWhile (digit base)) ≥ 2 ^ 64 then 2 ^ 64 - 1
          else read base (digits ++ s.takeWhile (digit base))), s.dropWhile (digit base)) := by
  obtain ⟨c, digits, rfl⟩ := List.exists_cons_of_ne_nil nonempty
  obtain ⟨first, later⟩ : digit base c = true ∧ ∀ d ∈ digits, digit base d = true := by simpa using all
  have found := strtoul_digits (s := digits ++ s) first plainly
  rw [List.takeWhile_append_of_pos later, List.dropWhile_append_of_pos later] at found
  simp only [numeric, List.cons_append, found]

/-- The prefix is passed with the digits behind it. -/
theorem strtoul_prefixed {z x d : UInt8} {t : List UInt8} (known : prefixed (z :: x :: d :: t)) :
    (strtoul (z :: x :: d :: t) 16).2 = t.dropWhile (digit 16) := by
  have taken := known
  simp only [prefixed, Bool.and_eq_true, decide_eq_true_eq] at known
  obtain ⟨⟨zero, -⟩, first⟩ := known
  have space : isspace z = false := by
    unfold isspace
    rw [zero]
    decide
  have unsigned : sign (z :: x :: d :: t) = (false, z :: x :: d :: t) := by simp [sign, zero]
  simp [strtoul, space, unsigned, taken, first]

theorem strtoul_none (nothing : numbered base s = false) (octal : base ≠ 16) : strtoul s base = (0, s) := by
  have stop : (sign (s.dropWhile isspace)).2.takeWhile (digit base) = [] := by
    unfold numbered at nothing
    cases h : (sign (s.dropWhile isspace)).2 with
    | nil => rfl
    | cons c t =>
      rw [h] at nothing
      have other : digit base c = false := by simpa using nothing
      simp [other]
  simp [strtoul, octal, stop]

theorem sign_length (t : List UInt8) : (sign t).2.length ≤ t.length := by
  cases t with
  | nil => exact le_rfl
  | cons c t =>
    simp only [sign]
    split
    · simp
    · split <;> simp

/-- A number behind `\0` is taken with it. -/
theorem strtoul_some (number : numbered base s = true) (octal : base ≠ 16) : (strtoul s base).2 ≠ s := by
  unfold numbered at number
  cases h : (sign (s.dropWhile isspace)).2 with
  | nil => simp [h] at number
  | cons c t =>
    rw [h] at number
    have known : digit base c = true := by simpa using number
    have found : (strtoul s base).2 = t.dropWhile (digit base) := by simp [strtoul, octal, h, known]
    have bound := sign_length (s.dropWhile isspace)
    have space := (List.dropWhile_sublist isspace (l := s)).length_le
    have digits := (List.dropWhile_sublist (digit base) (l := t)).length_le
    intro same
    rw [found] at same
    rw [same] at digits
    rw [h, List.length_cons] at bound
    omega

end strtoul

theorem ofNat_denotes {kind : Kind} {n : Nat} {p : Piece} (equal : n = p.value) (small : n ≤ Piece.limit kind) :
    Denotes kind (UInt32.ofNat n) p := by
  unfold Denotes
  subst equal
  cases kind <;> simp [Piece.limit] at small ⊢ <;> omega

section escape
variable {kind : Kind} {following : List UInt8}

/-- `escape` reads a sequence as C does. -/
def Escaped (kind : Kind) (p : Piece) (following : List UInt8) : Prop :=
  ∃ r, escape ((p.spelling ++ following).tail) = some (r, following) ∧ Denotes kind r p

theorem simple_escaped {e : Char} {v : Nat} (valid : (Piece.simple e v).Valid kind) :
    Escaped kind (.simple e v) following := by
  simp only [Piece.Valid, simples, List.mem_cons, List.not_mem_nil, or_false, Prod.mk.injEq] at valid
  rcases valid with ⟨rfl, rfl⟩ | ⟨rfl, rfl⟩ | ⟨rfl, rfl⟩ | ⟨rfl, rfl⟩ | ⟨rfl, rfl⟩ | ⟨rfl, rfl⟩ | ⟨rfl, rfl⟩ |
    ⟨rfl, rfl⟩ | ⟨rfl, rfl⟩ | ⟨rfl, rfl⟩ | ⟨rfl, rfl⟩ <;>
    exact ⟨_, rfl, by cases kind <;> decide⟩

theorem hex_escaped {digits : List UInt8} (valid : (Piece.hex digits).Valid kind)
    (munched : (Piece.hex digits).Munched following) :
    Escaped kind (.hex digits) following ↔ (Piece.hex digits).Good following := by
  obtain ⟨nonempty, all, small⟩ := valid
  have entry : escape ((Piece.hex digits).spelling ++ following).tail = some (numeric 16 (digits ++ following)) := rfl
  obtain ⟨nothing, same⟩ := ended munched
  constructor
  · rintro ⟨r, read, -⟩
    rw [entry] at read
    by_contra taken
    simp only [Piece.Good, Bool.not_eq_false] at taken
    obtain ⟨z, digits, rfl⟩ := List.exists_cons_of_ne_nil nonempty
    have behind : (numeric 16 (z :: digits ++ following)).2 = following := by rw [Option.some.inj read]
    cases digits with
    | nil =>
      match following, taken with
      | x :: d :: t, taken =>
        have passes : (numeric 16 (z :: x :: d :: t)).2 = t.dropWhile (digit 16) := strtoul_prefixed taken
        have shorter := (List.dropWhile_sublist (digit 16) (l := t)).length_le
        rw [← passes, show (numeric 16 (z :: x :: d :: t)).2 = x :: d :: t from behind, List.length_cons,
          List.length_cons] at shorter
        omega
    | cons x digits =>
      -- the second character is a digit, so it is no `x`
      have known : digit 16 x = true := by
        simp only [List.all_cons, Bool.and_eq_true] at all
        exact all.2.1
      obtain ⟨_, _, _, lower, upper⟩ := digit_cases known
      rw [List.cons_append, List.cons_append] at taken
      cases more : digits ++ following <;> simp [more, prefixed, lower, upper] at taken
  · intro plainly
    refine ⟨_, by rw [entry, numeric_digits nonempty all fun _ => plainly, nothing, same, List.append_nil], ?_⟩
    have low : ¬ read 16 digits ≥ 2 ^ 64 := by cases kind <;> simp [Piece.limit] at small <;> omega
    rw [if_neg low]
    exact ofNat_denotes rfl small

/-- The digits behind the zero that `escape` looks at. -/
theorem octal_entry {z : UInt8} (zero : Char.ofUInt8 z = '0') (s : List UInt8) : escape (z :: s) = some (numeric 8 s) := by
  simp only [escape, zero]

/-- Any other first digit is an escape sequence that `escape` does not know. -/
theorem octal_unknown {z : UInt8} (known : digit 8 z) (other : Char.ofUInt8 z ≠ '0') (s : List UInt8) :
    escape (z :: s) = some (32, s) := by
  have among : Char.ofUInt8 z ∈ octals := by simpa [digit, isdigit] using known
  simp only [octals, List.mem_cons, List.not_mem_nil, or_false] at among
  rcases among with h | h | h | h | h | h | h | h
  case inl => exact absurd h other
  all_goals
    simp only [escape, h]
    rfl

theorem octal_value {z : UInt8} (known : digit 8 z) : val (Char.ofUInt8 z) < 8 := by
  have among : Char.ofUInt8 z ∈ octals := by simpa [digit, isdigit] using known
  simp only [octals, List.mem_cons, List.not_mem_nil, or_false] at among
  rcases among with h | h | h | h | h | h | h | h <;> rw [h] <;> decide

theorem read_zero {z : UInt8} (zero : Char.ofUInt8 z = '0') (digits : List UInt8) :
    read 8 (z :: digits) = read 8 digits := by
  have value : val (Char.ofUInt8 z) = 0 := by rw [zero]; decide
  simp [read, readDigits, value]

theorem octal_escaped {digits : List UInt8} (valid : (Piece.octal digits).Valid kind)
    (munched : (Piece.octal digits).Munched following) :
    Escaped kind (.octal digits) following ↔ (Piece.octal digits).Good following := by
  obtain ⟨⟨least, most⟩, all, small⟩ := valid
  obtain ⟨z, digits, rfl⟩ := List.exists_cons_of_ne_nil (List.ne_nil_of_length_pos least)
  obtain ⟨first, later⟩ : digit 8 z = true ∧ digits.all (digit 8) = true := by simpa using all
  have entry : (Piece.spelling (.octal (z :: digits)) ++ following).tail = z :: (digits ++ following) := rfl
  unfold Escaped
  rw [entry]
  by_cases zero : Char.ofUInt8 z = '0'
  · rw [octal_entry zero]
    have value : read 8 digits ≤ Piece.limit kind := read_zero zero digits ▸ small
    have low : ¬ read 8 digits ≥ 2 ^ 64 := by cases kind <;> simp [Piece.limit] at value <;> omega
    have right (stop : following.head?.all (!digit 8 ·)) (more : digits ≠ []) :
        ∃ r, some (numeric 8 (digits ++ following)) = some (r, following) ∧ Denotes kind r (.octal (z :: digits)) := by
      obtain ⟨nothing, same⟩ := ended stop
      refine ⟨_, by rw [numeric_digits more later (by simp), nothing, same, List.append_nil], ?_⟩
      rw [if_neg low]
      exact ofNat_denotes (read_zero zero digits).symm value
    simp only [Piece.Good, List.head?_cons, Option.map_some, zero, true_and]
    match digits, munched with
    | [], _ =>
      constructor
      · rintro ⟨r, same, -⟩
        refine ⟨fun _ => ?_, by simp⟩
        by_contra number
        have behind : (strtoul following 8).2 = following := congrArg Prod.snd (Option.some.inj same)
        exact strtoul_some (by simpa using number) (by decide) behind
      · rintro ⟨nothing, -⟩
        refine ⟨0, ?_, ofNat_denotes (n := 0) (read_zero zero []).symm (Nat.zero_le _)⟩
        rw [List.nil_append, numeric, strtoul_none (nothing rfl) (by decide)]
        rfl
    | [d], munched => simpa using right (munched (by simp)) (by simp)
    | [d, e], _ =>
      constructor
      · rintro ⟨r, same, -⟩
        refine ⟨by simp, fun _ => ?_⟩
        by_contra more
        rw [numeric_digits (by simp) later (by simp)] at same
        exact passed (by simpa using more) (congrArg Prod.snd (Option.some.inj same))
      · rintro ⟨-, stop⟩
        exact right (stop rfl) (by simp)
  · rw [octal_unknown first zero]
    constructor
    · rintro ⟨r, same, value⟩
      -- nothing but the first digit is consumed, and the value of one digit is no blank
      have alone : digits = [] := by
        have behind : digits ++ following = following := congrArg Prod.snd (Option.some.inj same)
        have length := congrArg List.length behind
        rw [List.length_append] at length
        exact List.eq_nil_of_length_eq_zero (by omega)
      obtain rfl : 32 = r := congrArg Prod.fst (Option.some.inj same)
      subst alone
      have few : read 8 [z] < 8 := by simpa [read, readDigits] using octal_value first
      have blank : read 8 [z] = 32 := by cases kind <;> exact value.symm
      omega
    · rintro ⟨known, -⟩
      exact absurd (by simpa using known) zero

end escape

section plain

theorem signExtend_byte (c : UInt8) : (signExtend c).toUInt8 = c := by
  apply UInt8.toNat_inj.mp
  have := c.toNat_lt
  unfold signExtend
  split <;> simp

theorem signExtend_low {c : UInt8} (low : c < 128) : (signExtend c).toNat = c.toNat := by
  have := c.toNat_lt
  simp only [signExtend, low, if_true, UInt32.toNat_ofNat']
  omega

theorem leading_bits : ∀ n < 256,
    (n < 128 → leading 8 (UInt8.ofNat n) = 0) ∧ (n / 64 = 2 → UInt8.ofNat n &&& 0xc0 = 0x80) ∧
    (n / 32 = 6 → leading 8 (UInt8.ofNat n) = 2 ∧ ((UInt8.ofNat n <<< 2) >>> 2).toNat = n % 32) ∧
    (n / 16 = 14 → leading 8 (UInt8.ofNat n) = 3 ∧ ((UInt8.ofNat n <<< 3) >>> 3).toNat = n % 16) ∧
    (n / 8 = 30 → leading 8 (UInt8.ofNat n) = 4 ∧ ((UInt8.ofNat n <<< 4) >>> 4).toNat = n % 8) := by
  decide +kernel

theorem joined {wc : UInt32} {c : UInt8} (room : wc.toNat * 64 < 2 ^ 32) :
    (wc <<< 6 ||| (c &&& 0x3f).toUInt32).toNat = wc.toNat * 64 + c.toNat % 64 := by
  have bits : c.toNat &&& 63 = c.toNat % 64 := Nat.and_two_pow_sub_one_eq_mod _ 6
  have small : c.toNat % 64 < 2 ^ 6 := Nat.mod_lt _ (by decide)
  have sum := Nat.shiftLeft_add_eq_or_of_lt small wc.toNat
  have shifted : wc.toNat <<< 6 % 2 ^ 32 = wc.toNat <<< 6 := Nat.mod_eq_of_lt (by rw [Nat.shiftLeft_eq]; exact room)
  rw [UInt32.toNat_or, UInt32.toNat_shiftLeft, UInt8.toNat_toUInt32, UInt8.toNat_and]
  rw [show (6 : UInt32).toNat % 32 = 6 from rfl, show (0x3f : UInt8).toNat = 63 from rfl, bits, shifted, ← sum,
    Nat.shiftLeft_eq]

theorem continued_more (following : List UInt8) {more : List UInt8} {wc : UInt32} (bytes : ∀ d ∈ more, d.toNat / 64 = 2)
    (room : (wc.toNat + 1) * 64 ^ more.length ≤ 2 ^ 32) :
    ∃ r, continued more.length wc (more ++ following) = (some r, following) ∧
      r.toNat = more.foldl (fun v d => v * 64 + d.toNat % 64) wc.toNat := by
  induction more generalizing wc with
  | nil => exact ⟨wc, rfl, rfl⟩
  | cons d more ih =>
    have mark : d &&& 0xc0 = 0x80 := by
      simpa using (leading_bits d.toNat d.toNat_lt).2.1 (bytes d List.mem_cons_self)
    have now : (wc.toNat + 1) * 64 ≤ 2 ^ 32 := by
      refine le_trans (Nat.mul_le_mul_left _ ?_) room
      exact Nat.le_self_pow (by simp) 64
    have sum : (wc <<< 6 ||| (d &&& 0x3f).toUInt32).toNat = wc.toNat * 64 + d.toNat % 64 := joined (by omega)
    have next : ((wc <<< 6 ||| (d &&& 0x3f).toUInt32).toNat + 1) * 64 ^ more.length ≤ 2 ^ 32 := by
      refine le_trans ?_ room
      rw [sum, List.length_cons, Nat.pow_succ', ← Nat.mul_assoc]
      exact Nat.mul_le_mul_right _ (by omega)
    obtain ⟨r, run, value⟩ := ih (fun e later => bytes e (List.mem_cons_of_mem d later)) next
    refine ⟨r, ?_, ?_⟩
    · rw [List.cons_append, List.length_cons, continued, if_pos mark, run]
    · rw [value, List.foldl_cons, sum]

/-- `decode` reads a character as C does. -/
def Decoded (kind : Kind) (p : Piece) (following : List UInt8) : Prop :=
  ∃ c s r, p.spelling ++ following = c :: s ∧ decode kind.multi c s = some (r, false, following) ∧ Denotes kind r p

theorem sequence_read {c : UInt8} {more following : List UInt8} {n : Nat} (length : more.length = n)
    (bytes : ∀ d ∈ more, d.toNat / 64 = 2)
    (entry : utf8rune c (more ++ following) =
      continued n ((c <<< UInt8.ofNat (n + 1)) >>> UInt8.ofNat (n + 1)).toUInt32 (more ++ following))
    (low : ((c <<< UInt8.ofNat (n + 1)) >>> UInt8.ofNat (n + 1)).toNat = c.toNat % 2 ^ (6 - n))
    (room : 2 ^ (6 - n) * 64 ^ n ≤ 2 ^ 32) (several : 0 < n) :
    ∃ r, utf8rune c (more ++ following) = (some r, following) ∧ r.toNat = (Piece.plain c more).value := by
  subst length
  have small := Nat.mod_lt c.toNat (Nat.two_pow_pos (6 - more.length))
  obtain ⟨r, run, value⟩ := continued_more following bytes (le_trans (Nat.mul_le_mul_right _
    (show ((c <<< UInt8.ofNat (more.length + 1)) >>> UInt8.ofNat (more.length + 1)).toUInt32.toNat + 1 ≤ _ by
      rw [UInt8.toNat_toUInt32, low]; exact small)) room)
  refine ⟨r, entry.trans run, ?_⟩
  rw [value, UInt8.toNat_toUInt32, low]
  cases more with
  | nil => exact absurd several (lt_irrefl 0)
  | cons d more => rfl

theorem utf8rune_sequence (following : List UInt8) {c : UInt8} {more : List UInt8} (sequence : Utf8 c more) :
    ∃ r, utf8rune c (more ++ following) = (some r, following) ∧ r.toNat = (Piece.plain c more).value := by
  obtain ⟨bytes, forms⟩ := sequence
  obtain ⟨-, -, two, three, four⟩ := leading_bits c.toNat c.toNat_lt
  simp only [UInt8.ofNat_toNat] at two three four
  rcases forms with ⟨length, first⟩ | ⟨length, first⟩ | ⟨length, first⟩
  · obtain ⟨count, low⟩ := two first
    exact sequence_read length bytes (by simp only [utf8rune, count]) low (by decide) (by decide)
  · obtain ⟨count, low⟩ := three first
    exact sequence_read length bytes (by simp only [utf8rune, count]) low (by decide) (by decide)
  · obtain ⟨count, low⟩ := four first
    exact sequence_read length bytes (by simp only [utf8rune, count]) low (by decide) (by decide)

theorem plain_decoded {kind : Kind} {c : UInt8} {more following : List UInt8} (valid : (Piece.plain c more).Valid kind) :
    Decoded kind (.plain c more) following := by
  obtain ⟨-, ordinary, -, ⟨rfl, low⟩ | ⟨rfl, sequence⟩⟩ := valid
  · refine ⟨c, following, signExtend c, rfl, ?_, ?_⟩
    · unfold decode
      rw [if_neg ordinary]
      split
      case isFalse => rfl
      case isTrue wide =>
        have ascii := (leading_bits c.toNat c.toNat_lt).1 (low (by cases kind <;> simp_all [Kind.multi]))
        simp only [UInt8.ofNat_toNat] at ascii
        simp only [utf8rune, ascii]
    · unfold Denotes
      split
      case isTrue wide => exact signExtend_low (low wide)
      case isFalse => rw [signExtend_byte]; rfl
  · obtain ⟨r, run, value⟩ := utf8rune_sequence following sequence
    refine ⟨c, more ++ following, r, rfl, ?_, value⟩
    simp only [decode, ordinary, if_false, Kind.multi, if_true, run]

theorem escaped_decoded {kind : Kind} {p : Piece} {following s : List UInt8} (spelled : p.spelling = backslash :: s) :
    Decoded kind p following ↔ Escaped kind p following := by
  have known : ∀ t, decode kind.multi backslash t = (escape t).map fun x => (x.1, false, x.2) := fun t => rfl
  simp only [Decoded, Escaped, spelled, List.cons_append, List.tail_cons, List.cons.injEq]
  constructor
  · rintro ⟨c, t, r, ⟨rfl, rfl⟩, read, value⟩
    rw [known, Option.map_eq_some_iff] at read
    obtain ⟨⟨q, t⟩, read, same⟩ := read
    cases same
    exact ⟨q, read, value⟩
  · rintro ⟨r, read, value⟩
    exact ⟨_, _, r, ⟨rfl, rfl⟩, by rw [known, read]; rfl, value⟩

/-- Each character by itself. -/
theorem decoded_iff {kind : Kind} {p : Piece} {following : List UInt8} (valid : p.Valid kind) (munched : p.Munched following) :
    Decoded kind p following ↔ p.Good following := by
  cases p with
  | plain c more => exact iff_of_true (plain_decoded valid) trivial
  | simple e v => exact iff_of_true ((escaped_decoded rfl).mpr (simple_escaped valid)) trivial
  | octal digits => exact (escaped_decoded rfl).trans (octal_escaped valid munched)
  | hex digits => exact (escaped_decoded rfl).trans (hex_escaped valid munched)

/-- A character does not begin as the literal ends. -/
theorem opens {kind : Kind} {p : Piece} (valid : p.Valid kind) : ∃ c s, p.spelling = c :: s ∧ c ≠ kind.closing := by
  cases p with
  | plain c more => exact ⟨c, more, rfl, valid.1⟩
  | simple e v => exact ⟨_, _, rfl, by cases kind <;> decide⟩
  | octal digits => exact ⟨_, _, rfl, by cases kind <;> decide⟩
  | hex digits => exact ⟨_, _, rfl, by cases kind <;> decide⟩

end plain

section loops
variable {kind : Kind} {p : Piece} {pieces : List Piece} {rest : List UInt8}

@[simp] theorem text_cons : text kind (p :: pieces) rest = p.spelling ++ text kind pieces rest := by
  simp [text]

theorem Bytes.turn_eq {s : Bytes} {c : UInt8} {t : List UInt8} (here : s.p = c :: t) (ordinary : c ≠ quote)
    (plain : s.esc = false) (room : s.bytes.length < STRINGSIZ) :
    s.turn false = (decode false c t).map fun (r, _, t) => .inr ⟨t, s.bytes ++ [r.toUInt8], false⟩ := by
  have full : s.bytes.length ≠ STRINGSIZ := by omega
  simp only [Bytes.turn, here, plain, ordinary, decode]
  by_cases escaped : c = backslash
  · simp [escaped, full]
    rfl
  · simp [escaped, full]

theorem decode_narrow {c : UInt8} {s q : List UInt8} {r : UInt32} {invalid : Bool}
    (read : decode false c s = some (r, invalid, q)) : invalid = false := by
  unfold decode at read
  split at read
  · obtain ⟨_, _, same⟩ := Option.map_eq_some_iff.mp read
    exact (congrArg (fun x => x.2.1) same).symm
  · exact (congrArg (fun x => x.2.1) (Option.some.inj read)).symm

/-- The byte is stored and the loop goes on exactly where the character is read as in C. -/
theorem Bytes.turn_iff {s : Bytes} (here : s.p = text .string (p :: pieces) rest) (plain : s.esc = false)
    (room : s.bytes.length < STRINGSIZ) (valid : p.Valid .string) (munched : p.Munched (text .string pieces rest)) :
    (∃ b, s.turn false = some (.inr ⟨text .string pieces rest, s.bytes ++ [b], false⟩) ∧ b.toNat = p.value) ↔
      p.Good (text .string pieces rest) := by
  rw [← decoded_iff valid munched]
  obtain ⟨c, t, spelled, other⟩ := opens valid
  rw [text_cons, spelled, List.cons_append] at here
  rw [s.turn_eq here other plain room]
  unfold Decoded
  rw [spelled, List.cons_append]
  constructor
  · rintro ⟨b, run, value⟩
    obtain ⟨⟨r, invalid, q⟩, read, same⟩ := Option.map_eq_some_iff.mp run
    obtain rfl := decode_narrow read
    simp only [Sum.inr.injEq, Bytes.mk.injEq, and_true, List.append_cancel_left_eq, List.cons.injEq] at same
    obtain ⟨rfl, rfl⟩ := same
    exact ⟨c, _, r, rfl, read, value⟩
  · rintro ⟨c', t', r, same, read, value⟩
    cases same
    exact ⟨r.toUInt8, by rw [show decode false = decode Kind.string.multi from rfl, read]; rfl, value⟩

theorem Bytes.turn_full {s : Bytes} (here : s.p = text .string (p :: pieces) rest) (full : s.bytes.length = STRINGSIZ)
    (valid : p.Valid .string) (t : Bytes) : s.turn false ≠ some (.inr t) := by
  obtain ⟨c, q, spelled, other⟩ := opens valid
  rw [text_cons, spelled, List.cons_append] at here
  simp only [Bytes.turn, here, show c ≠ quote from other, decide_false, Bool.false_and, Bool.false_eq_true, if_false,
    full, if_true]
  intro run
  obtain ⟨_, _, same⟩ := Option.map_eq_some_iff.mp run
  cases same

/-- Another turn stores one byte. -/
theorem Bytes.turn_stores {s t : Bytes} (here : s.p = text .string (p :: pieces) rest) (plain : s.esc = false)
    (room : s.bytes.length < STRINGSIZ) (valid : p.Valid .string) (run : s.turn false = some (.inr t)) :
    ∃ b, t = ⟨t.p, s.bytes ++ [b], false⟩ := by
  obtain ⟨c, q, spelled, other⟩ := opens valid
  rw [text_cons, spelled, List.cons_append] at here
  rw [s.turn_eq here other plain room] at run
  obtain ⟨⟨r, _, q⟩, _, same⟩ := Option.map_eq_some_iff.mp run
  cases same
  exact ⟨_, rfl⟩

/-- From any turn on: the characters that are left are taken one by one. -/
theorem Bytes.turns_iff {s : Bytes} (here : s.p = text .string pieces rest) (plain : s.esc = false)
    (room : s.bytes.length ≤ STRINGSIZ) (reads : Reads .string rest pieces) :
    (∀ n ≤ pieces.length, ∃ t, s.turns n = some t ∧ t.p = text .string (pieces.drop n) rest ∧
      t.bytes.map UInt8.toNat = s.bytes.map UInt8.toNat ++ (pieces.take n).map Piece.value) ↔
      Good .string rest pieces ∧ s.bytes.length + pieces.length ≤ STRINGSIZ := by
  induction pieces generalizing s with
  | nil =>
    refine iff_of_true ?_ ⟨trivial, by simpa using room⟩
    intro n last
    obtain rfl : n = 0 := by simpa using last
    exact ⟨s, rfl, here, by simp⟩
  | cons p pieces ih =>
    obtain ⟨valid, munched, reads⟩ := reads
    rcases room.lt_or_eq with room | full
    · have first := Bytes.turn_iff here plain room valid munched
      constructor
      · intro all
        obtain ⟨t, run, there, bytes⟩ := all 1 (by simp)
        rw [Bytes.turns] at run
        split at run
        case h_2 => cases run
        case h_1 u turn =>
          obtain rfl : u = t := Option.some.inj run
          obtain ⟨b, same⟩ := Bytes.turn_stores here plain room valid turn
          rw [same] at bytes turn
          have value : b.toNat = p.value := by simpa using bytes
          rw [show u.p = text .string pieces rest from there] at turn
          have step : ∀ n, Bytes.turns (n + 1) s = Bytes.turns n ⟨text .string pieces rest, s.bytes ++ [b], false⟩ :=
            fun n => by rw [Bytes.turns, turn]
          obtain ⟨later, fits⟩ := (ih (s := ⟨text .string pieces rest, s.bytes ++ [b], false⟩) rfl rfl
            (by simpa using room) reads).mp fun n last => by
              obtain ⟨t, run, there, bytes⟩ := all (n + 1) (by simpa using last)
              exact ⟨t, step n ▸ run, there, by simpa [value] using bytes⟩
          exact ⟨⟨first.mp ⟨b, turn, value⟩, later⟩, by simp at fits ⊢; omega⟩
      · rintro ⟨⟨good, later⟩, fits⟩ n last
        obtain ⟨b, turn, value⟩ := first.mpr good
        cases n with
        | zero => exact ⟨s, rfl, here, by simp⟩
        | succ n =>
          obtain ⟨t, run, there, bytes⟩ := (ih (s := ⟨text .string pieces rest, s.bytes ++ [b], false⟩) rfl rfl
            (by simpa using room) reads).mpr ⟨later, by simp at fits ⊢; omega⟩ n (by simpa using last)
          refine ⟨t, ?_, there, ?_⟩
          · rw [Bytes.turns, turn]; exact run
          · rw [bytes]; simp [value]
    · refine iff_of_false ?_ ?_
      · intro all
        obtain ⟨t, run, _⟩ := all 1 (by simp)
        rw [Bytes.turns] at run
        split at run
        case h_1 u turn => exact Bytes.turn_full here full valid u turn
        case h_2 => cases run
      · rintro ⟨-, fits⟩
        rw [List.length_cons] at fits
        omega

variable {s : Runes}

theorem Runes.turn_eq {c : UInt8} {t : List UInt8} (here : s.p = c :: t) (ordinary : c ≠ apostrophe) (multi : Bool) :
    s.turn multi =
      (decode multi c t).map fun (r, invalid, t) => ⟨t, s.i + 1, r, s.d ||| r, s.invalid || invalid⟩ := by
  simp [Runes.turn, here, ordinary]

/-- The loop goes on at the next character exactly where this one is read as in C. -/
theorem Runes.turn_iff (character : kind ≠ .string) (here : s.p = text kind (p :: pieces) rest) (valid : p.Valid kind)
    (munched : p.Munched (text kind pieces rest)) (clean : s.invalid = false) :
    (∃ t, s.turn kind.multi = some t ∧ t.p = text kind pieces rest ∧ t.invalid = false ∧ Denotes kind t.r p) ↔
      p.Good (text kind pieces rest) := by
  rw [← decoded_iff valid munched]
  obtain ⟨c, t, spelled, other⟩ := opens valid
  have ordinary : c ≠ apostrophe := by cases kind <;> first | exact absurd rfl character | exact other
  rw [text_cons, spelled, List.cons_append] at here
  rw [s.turn_eq here ordinary]
  unfold Decoded
  rw [spelled, List.cons_append]
  constructor
  · rintro ⟨_, run, there, still, value⟩
    obtain ⟨⟨r, invalid, q⟩, read, rfl⟩ := Option.map_eq_some_iff.mp run
    obtain rfl : q = text kind pieces rest := there
    obtain rfl : invalid = false := by simpa [clean] using still
    exact ⟨c, _, r, rfl, read, value⟩
  · rintro ⟨c', t', r, same, read, value⟩
    cases same
    exact ⟨_, by rw [read]; rfl, rfl, by simp [clean], value⟩

theorem Runes.turn_counts {multi : Bool} {t : Runes} (run : s.turn multi = some t) :
    t.i = s.i + 1 ∧ t.d = s.d ||| t.r := by
  unfold Runes.turn at run
  split at run
  · cases run
  · split at run
    · cases run
    · obtain ⟨_, _, rfl⟩ := Option.map_eq_some_iff.mp run
      exact ⟨rfl, rfl⟩

theorem Runes.turns_iff (character : kind ≠ .string) (here : s.p = text kind pieces rest) (clean : s.invalid = false)
    (reads : Reads kind rest pieces) :
    (∀ n ≤ pieces.length, ∃ t, Runes.turns kind.multi n s = some t ∧ t.p = text kind (pieces.drop n) rest ∧
      t.i = s.i + n ∧ t.invalid = false ∧ ∀ p, (pieces.take n).getLast? = some p → Denotes kind t.r p) ↔
      Good kind rest pieces := by
  induction pieces generalizing s with
  | nil =>
    refine iff_of_true ?_ trivial
    intro n last
    obtain rfl : n = 0 := by simpa using last
    exact ⟨s, rfl, here, rfl, clean, by simp⟩
  | cons p pieces ih =>
    obtain ⟨valid, munched, reads⟩ := reads
    have first := Runes.turn_iff character here valid munched clean
    constructor
    · intro all
      obtain ⟨t, run, there, -, still, value⟩ := all 1 (by simp)
      obtain ⟨u, turn, same⟩ := Option.bind_eq_some_iff.mp run
      obtain rfl : u = t := Option.some.inj same
      refine ⟨first.mp ⟨u, turn, there, still, value p (by simp)⟩, (ih there still reads).mp fun n last => ?_⟩
      obtain ⟨t, run, there, count, still, value⟩ := all (n + 1) (by simpa using last)
      rw [Runes.turns, turn, Option.bind_some] at run
      refine ⟨t, run, there, ?_, still, fun q known => value q ?_⟩
      · rw [count, (Runes.turn_counts turn).1]; omega
      · rw [List.take_succ_cons, List.getLast?_cons, known]; rfl
    · rintro ⟨good, later⟩ n last
      obtain ⟨t, turn, there, still, value⟩ := first.mpr good
      cases n with
      | zero => exact ⟨s, rfl, here, rfl, clean, by simp⟩
      | succ n =>
        obtain ⟨u, run, there, count, still, values⟩ := (ih there still reads).mpr later n (by simpa using last)
        refine ⟨u, by rw [Runes.turns, turn]; exact run, there, ?_, still, ?_⟩
        · rw [count, (Runes.turn_counts turn).1]; omega
        · intro q known
          rw [List.take_succ_cons, List.getLast?_cons] at known
          cases before : (pieces.take n).getLast? with
          | some q' => exact values q (by rw [before, ← known, before]; rfl)
          | none =>
            -- this is the first turn
            obtain rfl : n = 0 := by
              have empty := List.getLast?_eq_none_iff.mp before
              have length := congrArg List.length empty
              rw [List.length_take, List.length_nil] at length
              rw [List.length_cons] at last
              omega
            obtain rfl : t = u := Option.some.inj run
            obtain rfl : p = q := by simpa [before] using known
            exact value

end loops

section results
variable {kind : Kind} {pieces : List Piece} {rest : List UInt8}

theorem spelling_pos (p : Piece) : 0 < p.spelling.length := by
  cases p <;> simp [Piece.spelling]

theorem text_length (kind : Kind) (pieces : List Piece) (rest : List UInt8) : pieces.length < (text kind pieces rest).length := by
  induction pieces with
  | nil => simp [text]
  | cons p pieces ih =>
    rw [text_cons, List.length_append, List.length_cons]
    have := spelling_pos p
    omega

theorem Bytes.loop_turns {n k : Nat} {s t : Bytes} (run : s.turns n = some t) :
    Bytes.loop false (n + k) s = Bytes.loop false k t := by
  induction n generalizing s with
  | zero => rw [Nat.zero_add, Option.some.inj run]
  | succ n ih =>
    rw [Bytes.turns] at run
    split at run
    case h_1 u turn =>
      rw [Nat.succ_add, Bytes.loop, turn]
      exact ih run
    case h_2 => cases run

theorem Runes.loop_turns {multi : Bool} {n k : Nat} {s t : Runes} (run : s.turns multi n = some t) (stop : t.turn multi = none) :
    Runes.loop multi (n + k) s = t := by
  induction n generalizing s with
  | zero =>
    obtain rfl : s = t := Option.some.inj run
    cases k with
    | zero => rfl
    | succ k => rw [Nat.zero_add, Runes.loop, stop]
  | succ n ih =>
    obtain ⟨u, turn, run⟩ := Option.bind_eq_some_iff.mp run
    rw [Nat.succ_add, Runes.loop, turn]
    exact ih run

theorem Bytes.turn_esc {s t : Bytes} (run : s.turn false = some (.inr t)) : t.esc = false := by
  unfold Bytes.turn at run
  split at run
  · cases run
  · split at run
    · cases run
    · obtain ⟨_, _, same⟩ := Option.map_eq_some_iff.mp run
      simp only at same
      split at same
      · cases same
      · cases same
        simp

theorem Bytes.turns_esc {n : Nat} {s t : Bytes} (plain : s.esc = false) (run : s.turns n = some t) : t.esc = false := by
  induction n generalizing s with
  | zero => rwa [← Option.some.inj run]
  | succ n ih =>
    rw [Bytes.turns] at run
    split at run
    case h_1 u turn => exact ih (Bytes.turn_esc turn) run
    case h_2 => cases run

theorem string_right (reads : Reads .string rest pieces) :
    StringRight rest pieces ↔ Good .string rest pieces ∧ pieces.length ≤ STRINGSIZ := by
  have all := Bytes.turns_iff (s := ⟨text .string pieces rest, [], false⟩) rfl rfl (Nat.zero_le _) reads
  simp only [List.map_nil, List.nil_append, List.length_nil, Nat.zero_add] at all
  refine ⟨fun right => all.mp right.1, fun good => ⟨all.mpr good, ?_⟩⟩
  obtain ⟨s, run, there, bytes⟩ := all.mpr good pieces.length le_rfl
  rw [List.drop_length] at there
  rw [List.take_length] at bytes
  refine ⟨s.bytes, ?_, bytes⟩
  have enough := text_length .string pieces rest
  obtain ⟨k, fuel⟩ := Nat.exists_eq_add_of_lt (Nat.lt_add_right 1 enough)
  have closes : s.turn false = some (.inl ⟨s.bytes, none, some rest⟩) := by
    simp [Bytes.turn, there, text, Kind.closing, Bytes.turns_esc rfl run]
  rw [string, fuel, Nat.add_assoc, Bytes.loop_turns run, Bytes.loop, closes]

theorem character_right (character : kind ≠ .string) (some : pieces ≠ []) (reads : Reads kind rest pieces) :
    CharacterRight kind rest pieces ↔ Good kind rest pieces := by
  have all := Runes.turns_iff (s := ⟨text kind pieces rest, 0, 0, 0, false⟩) character rfl rfl reads
  simp only [Nat.zero_add] at all
  refine ⟨fun right => all.mp right.1, fun good => ⟨all.mpr good, ?_⟩⟩
  obtain ⟨s, run, there, count, clean, value⟩ := all.mpr good pieces.length le_rfl
  rw [List.drop_length] at there
  have closing : kind.closing = apostrophe := by cases kind <;> first | exact absurd rfl character | rfl
  have stop : s.turn kind.multi = none := by simp [Runes.turn, there, text, closing]
  have enough := text_length kind pieces rest
  obtain ⟨k, fuel⟩ := Nat.exists_eq_add_of_lt enough
  have result : Runes.loop kind.multi (text kind pieces rest).length ⟨text kind pieces rest, 0, 0, 0, false⟩ = s := by
    rw [fuel, Nat.add_assoc, Runes.loop_turns run stop]
  have several : s.i ≠ 0 := by
    rw [count]
    exact fun none => some (List.eq_nil_of_length_eq_zero none)
  have ends : s.p = apostrophe :: rest := by rw [there, text, closing]; rfl
  refine ⟨⟨s.d, if kind.multi then wchartype else inttype, []⟩, ?_, rfl, ?_⟩
  · simp [Literals.character, result, ends, clean, several]
  rintro p rfl
  obtain ⟨u, turn, same⟩ := Option.bind_eq_some_iff.mp run
  obtain rfl : u = s := Option.some.inj same
  have whole : u.d = u.r := by
    rw [(Runes.turn_counts turn).2]
    exact UInt32.zero_or
  simpa [whole] using value p (by simp)

end results

end Scc.Cc1.Literals
