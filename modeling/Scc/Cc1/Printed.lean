import Scc.Cc1.LiteralsProofs

set_option linter.all false

/-! String literals in the output of the preprocessor (`outcpp` in `cpp.c`), and what `string` reads in it. -/
namespace Scc.Cc1.Literals
open Numbers Text

def isprint (c : UInt8) : Bool := 32 ≤ c && c < 127

def hexadecimal : List Char := decimals ++ ['a', 'b', 'c', 'd', 'e', 'f']

/-- `printf("%x", c)` of a `char`. -/
def printx (c : UInt8) : List UInt8 :=
  numeral 16 (fun d => Char.toUInt8 ((hexadecimal[d]?).getD '0')) (signExtend c).toNat

/-- What is printed for one character of `yytext`: a quote as it is at the ends of the token. -/
def printed (outer : Bool) (c : UInt8) : List UInt8 :=
  match Char.ofUInt8 c with
  | '\n' => [backslash, Char.toUInt8 'n']
  | '\x0b' => [backslash, Char.toUInt8 'v']
  | '\x08' => [backslash, Char.toUInt8 'b']
  | '\t' => [backslash, Char.toUInt8 't']
  | '\x07' => [backslash, Char.toUInt8 'a']
  | '\x0c' => [backslash, Char.toUInt8 'f']
  | '\r' => [backslash, Char.toUInt8 'r']
  | '"' => if outer then [quote] else [backslash, quote]
  | '\'' => [backslash, apostrophe]
  | '?' => [backslash, Char.toUInt8 '?']
  | '\\' => [backslash, backslash]
  | _ => if isprint c then [c] else backslash :: Char.toUInt8 'x' :: printx c

/-- The loop over `yytext`, up to the first NUL; the quotes at the ends are known by
their places. -/
def outcppLoop (first : Bool) : List UInt8 → List UInt8
  | [] => []
  | c :: s => if c = 0 then [] else printed (first || s.head?.all (· = 0)) c ++ outcppLoop false s

/-- What `outcpp` prints for a string. -/
def outcpp (bytes : List UInt8) : List UInt8 := outcppLoop true (quote :: bytes ++ [quote]) ++ [Char.toUInt8 ' ']

/-- A byte that is printed in hexadecimal. -/
def hexed (c : UInt8) : Bool := !isprint c && !(7 ≤ c && c < 14)

/-- The text is read back as the same string, and no more of what follows it. -/
def ReadsBack (bytes : List UInt8) : Prop :=
  ∀ rest, ∃ body, outcpp bytes = quote :: body ++ [Char.toUInt8 ' '] ∧
    string false (body ++ Char.toUInt8 ' ' :: rest) = some ⟨bytes, none, some (Char.toUInt8 ' ' :: rest)⟩

section printed
variable {c : UInt8}

theorem ofUInt8_eq {d : Char} (equal : Char.ofUInt8 c = d) : c = d.toUInt8 := by
  subst equal
  exact (UInt8.toUInt8_toUInt32 c).symm

/-- A hexadecimal digit is read as what it is printed for. -/
theorem hexadecimal_digit : ∀ d < 16, digit 16 (Char.toUInt8 ((hexadecimal[d]?).getD '0')) ∧
    val (Char.ofUInt8 (Char.toUInt8 ((hexadecimal[d]?).getD '0'))) = d ∧
    (0 < d → Char.ofUInt8 (Char.toUInt8 ((hexadecimal[d]?).getD '0')) ≠ '0') := by decide

theorem signExtend_toUInt8 (c : UInt8) : (UInt32.ofNat (signExtend c).toNat).toUInt8 = c := by
  have small := c.toNat_lt
  rw [UInt32.ofNat_toNat]
  apply UInt8.toNat_inj.mp
  unfold signExtend
  split
  · simp
  · simp

/-- The hexadecimal digits of every byte but NUL: no zero comes first, so `strtoul` sees no prefix. -/
theorem printx_digits (nonzero : c ≠ 0) :
    printx c ≠ [] ∧ (printx c).all (digit 16) ∧ (printx c).head?.map Char.ofUInt8 ≠ some '0' ∧
    read 16 (printx c) < 2 ^ 64 ∧ (UInt32.ofNat (read 16 (printx c))).toUInt8 = c := by
  have back : ∀ n, readDigits 16 (fun c => val (Char.ofUInt8 c)) (numeral 16 (fun d => Char.toUInt8 ((hexadecimal[d]?).getD '0')) n) = n :=
    readDigits_numeral (by decide) fun d small => (hexadecimal_digit d small).2.1
  have value : read 16 (printx c) = (signExtend c).toNat := back _
  have some : (signExtend c).toNat ≠ 0 := by
    intro zero
    have same := signExtend_toUInt8 c
    rw [zero] at same
    exact nonzero same.symm
  obtain ⟨d, rest, positive, small, first⟩ := numeral_head (by decide : 1 < 16) (fun d => Char.toUInt8 ((hexadecimal[d]?).getD '0')) some
  refine ⟨numeral_ne_nil _ _ _, ?_, ?_, ?_, ?_⟩
  · rw [List.all_eq_true]
    intro z member
    obtain ⟨d, small, rfl⟩ := mem_numeral (by decide) member
    exact (hexadecimal_digit d small).1
  · rw [printx, first]
    intro same
    exact (hexadecimal_digit d small).2.2 positive (Option.some.inj same)
  · rw [value]
    exact Nat.lt_trans (signExtend c).toNat_lt (by decide)
  · rw [value, signExtend_toUInt8]

theorem unprefixed {digits s : List UInt8} (nonempty : digits ≠ []) (first : digits.head?.map Char.ofUInt8 ≠ some '0') :
    prefixed (digits ++ s) = false := by
  obtain ⟨z, digits, rfl⟩ := List.exists_cons_of_ne_nil nonempty
  have other : Char.ofUInt8 z ≠ '0' := by simpa using first
  rw [List.cons_append]
  unfold prefixed
  split
  case h_1 zero x d tail equal =>
    have same : z = zero := (List.cons.inj equal).1
    simp [← same, other]
  case h_2 => rfl

theorem control_cases (control : 7 ≤ c ∧ c < 14) : c = 7 ∨ c = 8 ∨ c = 9 ∨ c = 10 ∨ c = 11 ∨ c = 12 ∨ c = 13 := by
  obtain ⟨least, most⟩ := control
  simp only [UInt8.le_iff_toNat_le, UInt8.lt_iff_toNat_lt, ← UInt8.toNat_inj] at *
  simp only [UInt8.reduceToNat] at *
  omega

/-- The other bytes are printed as they are or with a simple escape. -/
theorem printed_simply (plain : hexed c = false) :
    (printed false c = [c] ∧ c ≠ quote ∧ c ≠ backslash) ∨
      ∃ e, printed false c = [backslash, e] ∧ ∀ s, ∃ r, escape (e :: s) = some (r, s) ∧ r.toUInt8 = c := by
  unfold printed
  split
  case h_12 newline vertical backspace tab alert feed carriage quoted apostrophe question escaped =>
    left
    have shown : isprint c = true := by
      by_contra hidden
      have control : isprint c = false → 7 ≤ c ∧ c < 14 := by simpa [hexed] using plain
      rcases control_cases (control (by simpa using hidden)) with rfl | rfl | rfl | rfl | rfl | rfl | rfl
      · exact alert rfl
      · exact backspace rfl
      · exact tab rfl
      · exact newline rfl
      · exact vertical rfl
      · exact feed rfl
      · exact carriage rfl
    rw [if_pos shown]
    refine ⟨rfl, ?_, ?_⟩
    · rintro rfl; exact quoted rfl
    · rintro rfl; exact escaped rfl
  all_goals
    rename_i equal
    obtain rfl := ofUInt8_eq equal
    exact .inr ⟨_, rfl, fun s => ⟨_, rfl, by decide⟩⟩

theorem printed_hexed (hex : hexed c = true) : printed false c = backslash :: Char.toUInt8 'x' :: printx c := by
  have hidden : isprint c = false := by
    simp only [hexed, Bool.and_eq_true, Bool.not_eq_true'] at hex
    exact hex.1
  unfold printed
  split
  case h_12 => rw [if_neg (by simp [hidden])]
  all_goals
    rename_i equal
    obtain rfl := ofUInt8_eq equal
    exact absurd hex (by decide)

variable {s : Bytes} {t : List UInt8}

/-- One turn of `string` on a printed byte. -/
theorem printed_turn (nonzero : c ≠ 0) (here : s.p = printed false c ++ t) (plain : s.esc = false)
    (room : s.bytes.length < STRINGSIZ) :
    ∃ b, s.turn false = some (.inr ⟨if hexed c then t.dropWhile (digit 16) else t, s.bytes ++ [b], false⟩) ∧
      ((hexed c → t.head?.all (!digit 16 ·)) → b = c) := by
  cases hex : hexed c with
  | true =>
    obtain ⟨nonempty, all, first, small, value⟩ := printx_digits nonzero
    rw [printed_hexed hex, List.cons_append, List.cons_append] at here
    have entry : decode false backslash (Char.toUInt8 'x' :: (printx c ++ t)) =
        some ((numeric 16 (printx c ++ t)).1, false, (numeric 16 (printx c ++ t)).2) := rfl
    rw [numeric_digits nonempty all fun _ => unprefixed nonempty first] at entry
    rw [s.turn_eq here (by decide) plain room, entry]
    refine ⟨_, rfl, fun stop => ?_⟩
    rw [(ended (stop rfl)).1, List.append_nil, if_neg (by omega)]
    exact value
  | false =>
    rcases printed_simply hex with ⟨same, other, ordinary⟩ | ⟨e, same, read⟩
    · rw [same] at here
      refine ⟨c, ?_, fun _ => rfl⟩
      rw [s.turn_eq here other plain room]
      simp [decode, ordinary, signExtend_byte]
    · obtain ⟨r, read, value⟩ := read t
      rw [same] at here
      refine ⟨r.toUInt8, ?_, fun _ => value⟩
      rw [s.turn_eq here (by decide) plain room]
      simp [decode, read]

end printed

section back
variable {s : Bytes} {bs tail : List UInt8}

/-- The bytes of a token without its quotes. -/
def inner (bs : List UInt8) : List UInt8 := bs.flatMap (printed false)

theorem printed_digit {c : UInt8} (known : digit 16 c) : printed false c = [c] := by
  have among := digit_xdigit known
  simp only [letters, decimals, octals, List.cons_append, List.nil_append, List.mem_cons, List.not_mem_nil, or_false] at among
  rcases among with h | h | h | h | h | h | h | h | h | h | h | h | h | h | h | h | h | h | h | h | h | h <;>
    (obtain rfl := ofUInt8_eq h; rfl)

theorem printed_other (tail : List UInt8) {c : UInt8} (other : digit 16 c = false) :
    (printed false c ++ tail).head?.all (!digit 16 ·) := by
  cases hex : hexed c with
  | true => rw [printed_hexed hex]; rfl
  | false =>
    rcases printed_simply hex with ⟨same, -, -⟩ | ⟨e, same, -⟩
    · simp [same, other]
    · rw [same]; rfl

/-- A hexadecimal escape takes whole bytes with it. -/
theorem inner_dropWhile (stop : tail.head?.all (!digit 16 ·)) :
    (inner bs ++ tail).dropWhile (digit 16) = inner (bs.dropWhile (digit 16)) ++ tail := by
  induction bs with
  | nil => exact (ended stop).2
  | cons c bs ih =>
    cases known : digit 16 c with
    | true => simpa [inner, printed_digit known, known] using ih
    | false =>
      have whole := (ended (printed_other (inner bs ++ tail) known)).2
      simpa [inner, known] using whole

/-- No digit follows a byte that is printed in hexadecimal. -/
def Apart (bs : List UInt8) : Prop := bs.IsChain fun c d => hexed c → digit 16 d = false

theorem apart_head {c : UInt8} (apart : Apart (c :: bs)) (stop : tail.head?.all (!digit 16 ·)) (hex : hexed c) :
    (inner bs ++ tail).head?.all (!digit 16 ·) := by
  cases bs with
  | nil => exact stop
  | cons d bs =>
    have other := (List.isChain_cons_cons.mp apart).1 hex
    simpa [inner] using printed_other (inner bs ++ tail) other

theorem inner_turns (nonzero : ∀ c ∈ bs, c ≠ 0) (apart : Apart bs) (stop : tail.head?.all (!digit 16 ·))
    (here : s.p = inner bs ++ tail) (plain : s.esc = false) (fits : s.bytes.length + bs.length ≤ STRINGSIZ) :
    s.turns bs.length = some ⟨tail, s.bytes ++ bs, false⟩ := by
  induction bs generalizing s with
  | nil =>
    obtain ⟨p, bytes, esc⟩ := s
    simp_all [inner, Bytes.turns]
  | cons c bs ih =>
    have first : s.p = printed false c ++ (inner bs ++ tail) := by simpa [inner] using here
    rw [List.length_cons] at fits
    obtain ⟨b, run, value⟩ := printed_turn (nonzero c List.mem_cons_self) first plain (by omega)
    obtain rfl := value (apart_head apart stop)
    have kept : (if hexed b then (inner bs ++ tail).dropWhile (digit 16) else inner bs ++ tail) = inner bs ++ tail := by
      split
      case isTrue hex => exact (ended (apart_head apart stop hex)).2
      case isFalse => rfl
    rw [kept] at run
    rw [List.length_cons, Bytes.turns, run]
    simpa using ih (s := ⟨inner bs ++ tail, s.bytes ++ [b], false⟩) (fun d later => nonzero d (List.mem_cons_of_mem b later))
      apart.tail rfl rfl (by simp; omega)

theorem loop_full {n : Nat} {l : Literal} {c : UInt8} {t : List UInt8} (here : s.p = c :: t) (other : c ≠ quote)
    (full : s.bytes.length = STRINGSIZ) (run : Bytes.loop false n s = some l) : l.error ≠ none := by
  cases n with
  | zero => cases run
  | succ n =>
    have turn : s.turn false = ((if c = backslash then escape t else some (signExtend c, t)).map fun x =>
        .inl ⟨s.bytes.dropLast, some "string too long", skipped x.2⟩) := by
      simp [Bytes.turn, here, other, full]
    rw [Bytes.loop, turn] at run
    split at run
    case h_1 => cases run
    case h_2 known =>
      obtain ⟨_, _, same⟩ := Option.map_eq_some_iff.mp known
      cases same
      cases run
      exact Option.some_ne_none _
    case h_3 known =>
      obtain ⟨_, _, same⟩ := Option.map_eq_some_iff.mp known
      cases same

theorem loop_missing {n : Nat} {l : Literal} (here : s.p = []) (run : Bytes.loop false n s = some l) : l.error ≠ none := by
  cases n with
  | zero => cases run
  | succ n =>
    simp only [Bytes.loop, Bytes.turn, here, Option.some.injEq] at run
    subst run
    exact Option.some_ne_none _

theorem printed_opens (c : UInt8) : ∃ x u, printed false c = x :: u ∧ x ≠ quote := by
  cases hex : hexed c with
  | true => exact ⟨_, _, printed_hexed hex, by decide⟩
  | false =>
    rcases printed_simply hex with ⟨same, other, -⟩ | ⟨e, same, -⟩
    · exact ⟨c, [], same, other⟩
    · exact ⟨_, _, same, by decide⟩

/-- Where `string` ends without a message, the quote was printed, and it has read at most one byte for
each printed one, and fewer when a digit was taken. -/
theorem inner_bounded {n : Nat} {l : Literal} {rest : List UInt8} (nonzero : ∀ c ∈ bs, c ≠ 0)
    (here : s.p = inner bs ++ tail) (tails : tail = [32] ∨ tail = quote :: rest) (plain : s.esc = false)
    (fits : s.bytes.length ≤ STRINGSIZ) (run : Bytes.loop false n s = some l) (right : l.error = none) :
    tail = quote :: rest ∧ l.bytes.length ≤ s.bytes.length + bs.length ∧
      (¬ Apart bs → l.bytes.length < s.bytes.length + bs.length) := by
  have stop : tail.head?.all (!digit 16 ·) := by
    rcases tails with rfl | rfl
    · decide
    · exact (by decide : (!digit 16 quote) = true)
  induction n generalizing s bs with
  | zero => cases run
  | succ n ih =>
    cases bs with
    | nil =>
      rcases tails with rfl | rfl
      · -- the blank is stored, and the text ends
        rcases fits.lt_or_eq with room | full
        · have turn : s.turn false = some (.inr ⟨[], s.bytes ++ [32], false⟩) := by
            rw [s.turn_eq here (by decide) plain room]
            rfl
          rw [Bytes.loop, turn] at run
          exact absurd right (loop_missing rfl run)
        · exact absurd right (loop_full here (by decide) full run)
      · have turn : s.turn false = some (.inl ⟨s.bytes, none, some rest⟩) := by
          simp [Bytes.turn, show s.p = quote :: rest from here, plain]
        rw [Bytes.loop, turn] at run
        cases run
        exact ⟨rfl, le_rfl, fun taken => absurd List.isChain_nil taken⟩
    | cons c bs =>
      have first : s.p = printed false c ++ (inner bs ++ tail) := by simpa [inner] using here
      rcases fits.lt_or_eq with room | full
      · obtain ⟨b, turn, -⟩ := printed_turn (nonzero c List.mem_cons_self) first plain room
        rw [Bytes.loop, turn] at run
        have later : ∀ d ∈ bs, d ≠ 0 := fun d later => nonzero d (List.mem_cons_of_mem c later)
        cases hex : hexed c with
        | true =>
          rw [hex, if_pos rfl, inner_dropWhile stop] at run
          obtain ⟨closed, bound, strict⟩ := ih (fun d among => later d ((List.dropWhile_sublist _).subset among)) rfl rfl
            (by simpa using room) run
          have taken := (List.dropWhile_sublist (digit 16) (l := bs)).length_le
          rw [List.length_append, List.length_singleton] at bound strict
          rw [List.length_cons]
          refine ⟨closed, by omega, fun apart => ?_⟩
          cases bs with
          | nil => exact absurd (List.isChain_singleton c) apart
          | cons d bs =>
            cases known : digit 16 d with
            | true =>
              rw [List.dropWhile_cons, if_pos known] at bound
              have fewer := (List.dropWhile_sublist (digit 16) (l := bs)).length_le
              rw [List.length_cons]
              omega
            | false =>
              have kept : (d :: bs).dropWhile (digit 16) = d :: bs := by simp [known]
              rw [kept] at strict
              have := strict fun rest => apart (List.isChain_cons_cons.mpr ⟨fun _ => known, rest⟩)
              omega
        | false =>
          rw [hex, if_neg Bool.false_ne_true] at run
          obtain ⟨closed, bound, strict⟩ := ih later rfl rfl (by simpa using room) run
          rw [List.length_append, List.length_singleton] at bound strict
          rw [List.length_cons]
          refine ⟨closed, by omega, fun apart => ?_⟩
          have := strict fun rest => apart (List.isChain_cons.mpr ⟨fun _ _ => by simp [hex], rest⟩)
          omega
      · obtain ⟨x, u, same, other⟩ := printed_opens c
        rw [same, List.cons_append] at first
        exact absurd right (loop_full first other full run)

end back

section outcpp
variable {bytes : List UInt8}

theorem printed_outer {c : UInt8} (other : c ≠ quote) : printed true c = printed false c := by
  unfold printed
  split
  case h_8 equal => exact absurd (ofUInt8_eq equal) other
  all_goals rfl

theorem outcppLoop_whole (nonzero : ∀ c ∈ bytes, c ≠ 0) : outcppLoop false (bytes ++ [quote]) = inner bytes ++ [quote] := by
  induction bytes with
  | nil => rfl
  | cons c bytes ih =>
    have inside : (bytes ++ [quote]).head?.all (· = 0) = false := by
      cases bytes with
      | nil => rfl
      | cons d bytes => simpa using nonzero d (by simp)
    rw [List.cons_append, outcppLoop, if_neg (nonzero c List.mem_cons_self), inside,
      ih fun d later => nonzero d (List.mem_cons_of_mem c later), Bool.false_or, ← List.append_assoc]
    rfl

/-- A NUL ends the output, and the quote before it is taken for the last one. -/
theorem outcppLoop_cut (l r : List UInt8) (nonzero : ∀ c ∈ l, c ≠ 0) :
    (∃ k, l = k ++ [quote] ∧ outcppLoop false (l ++ 0 :: r) = inner k ++ [quote]) ∨
      outcppLoop false (l ++ 0 :: r) = inner l := by
  induction l with
  | nil => exact .inr rfl
  | cons c l ih =>
    have step : outcppLoop false (c :: l ++ 0 :: r) =
        printed ((l ++ 0 :: r).head?.all (· = 0)) c ++ outcppLoop false (l ++ 0 :: r) := by
      rw [List.cons_append, outcppLoop, if_neg (nonzero c List.mem_cons_self), Bool.false_or]
    cases l with
    | nil =>
      have last : outcppLoop false ([c] ++ 0 :: r) = printed true c := by simpa [outcppLoop] using step
      by_cases quoted : c = quote
      · subst quoted
        exact .inl ⟨[], rfl, last⟩
      · right
        rw [last, printed_outer quoted]
        simp [inner]
    | cons d l =>
      have inside : (d :: l ++ 0 :: r).head?.all (· = 0) = false := by simpa using nonzero d (by simp)
      rw [inside] at step
      rcases ih fun e later => nonzero e (List.mem_cons_of_mem c later) with ⟨k, same, printed⟩ | printed
      · exact .inl ⟨c :: k, by rw [same]; rfl, by rw [step, printed]; simp [inner]⟩
      · exact .inr (by rw [step, printed]; simp [inner])

theorem inner_length (bs : List UInt8) : bs.length ≤ (inner bs).length := by
  induction bs with
  | nil => exact le_rfl
  | cons c bs ih =>
    obtain ⟨x, u, same, -⟩ := printed_opens c
    simp only [inner, List.flatMap_cons, same, List.length_append, List.length_cons] at ih ⊢
    omega

theorem string_bounded (rest : List UInt8) {bs tail : List UInt8} {l : Literal} (nonzero : ∀ c ∈ bs, c ≠ 0)
    (tails : tail = [32] ∨ tail = quote :: rest) (run : string false (inner bs ++ tail) = some l) (right : l.error = none) :
    tail = quote :: rest ∧ l.bytes.length ≤ bs.length ∧ (¬ Apart bs → l.bytes.length < bs.length) := by
  simpa using inner_bounded nonzero rfl tails rfl (Nat.zero_le _) run right

theorem string_inner {rest : List UInt8} (token : bytes.length ≤ STRINGSIZ) (nonzero : ∀ c ∈ bytes, c ≠ 0)
    (apart : Apart bytes) : string false (inner bytes ++ quote :: rest) = some ⟨bytes, none, some rest⟩ := by
  have stop : (quote :: rest).head?.all (!digit 16 ·) := (by decide : (!digit 16 quote) = true)
  have turns := inner_turns (s := ⟨inner bytes ++ quote :: rest, [], false⟩) nonzero apart stop rfl rfl (by simpa using token)
  have enough : bytes.length < (inner bytes ++ quote :: rest).length + 1 := by
    have := inner_length bytes
    rw [List.length_append]
    omega
  obtain ⟨k, fuel⟩ := Nat.exists_eq_add_of_lt enough
  have closes : Bytes.turn false ⟨quote :: rest, bytes, false⟩ = some (.inl ⟨bytes, none, some rest⟩) := rfl
  rw [string, fuel, Nat.add_assoc, Bytes.loop_turns turns, List.nil_append, Bytes.loop, closes]

/-- The printed text of a string is read back exactly where no byte is NUL and none that is printed
in hexadecimal is followed by a hexadecimal digit. -/
theorem readsBack_iff (token : bytes.length ≤ STRINGSIZ) : ReadsBack bytes ↔ 0 ∉ bytes ∧ Apart bytes := by
  have opening (s : List UInt8) : outcppLoop true (quote :: s) = quote :: outcppLoop false s := rfl
  constructor
  · intro back
    obtain ⟨body, text, run⟩ := back []
    rw [outcpp, List.cons_append, opening, List.cons_append, List.cons_append] at text
    obtain rfl : outcppLoop false (bytes ++ [quote]) = body := List.append_cancel_right (List.cons.inj text).2
    by_cases nul : 0 ∈ bytes
    · obtain ⟨l, r, rfl, none⟩ := List.eq_append_cons_of_mem nul
      have nonzero : ∀ c ∈ l, c ≠ 0 := fun c among zero => none (zero ▸ among)
      rw [List.append_assoc, List.cons_append] at run
      rcases outcppLoop_cut l (r ++ [quote]) nonzero with ⟨k, rfl, printed⟩ | printed
      · rw [printed, List.append_assoc] at run
        obtain ⟨-, short, -⟩ := string_bounded [32] (fun c among => nonzero c (List.mem_append_left _ among))
          (.inr rfl) run rfl
        simp at short
      · rw [printed] at run
        exact absurd (string_bounded [] nonzero (.inl rfl) run rfl).1 (by decide)
    · have nonzero : ∀ c ∈ bytes, c ≠ 0 := fun c among zero => nul (zero ▸ among)
      rw [outcppLoop_whole nonzero, List.append_assoc] at run
      obtain ⟨-, -, strict⟩ := string_bounded [32] nonzero (.inr rfl) run rfl
      refine ⟨nul, ?_⟩
      by_contra taken
      exact lt_irrefl _ (strict taken)
  · rintro ⟨nul, apart⟩ rest
    have nonzero : ∀ c ∈ bytes, c ≠ 0 := fun c among zero => nul (zero ▸ among)
    refine ⟨inner bytes ++ [quote], by rw [outcpp, List.cons_append, opening, outcppLoop_whole nonzero], ?_⟩
    rw [List.append_assoc]
    exact string_inner token nonzero apart

theorem readsBack_tab : ReadsBack [97, 9, 34, 200, 103] :=
  (readsBack_iff (by decide)).mpr ⟨by decide, by simp [Apart, hexed, isprint]; decide⟩

/-- The byte 1 and the digit 1 are printed as the byte 17. -/
theorem digit_taken : ¬ ∀ bytes : List UInt8, bytes.length ≤ STRINGSIZ → ReadsBack bytes := by
  intro all
  obtain ⟨body, printed, run⟩ := all [1, 49] (by decide) []
  have text : outcpp [1, 49] = quote :: [92, 120, 49, 49, 34] ++ [Char.toUInt8 ' '] := by decide
  obtain rfl : [92, 120, 49, 49, 34] = body := List.append_cancel_right (List.cons.inj (text.symm.trans printed)).2
  have one : string false ([92, 120, 49, 49, 34] ++ Char.toUInt8 ' ' :: []) = some ⟨[17], none, some [32]⟩ := by decide
  rw [one] at run
  cases run

end outcpp

end Scc.Cc1.Literals
