import Scc.Libc.Time.Tzone
import Scc.Text.Tokens

set_option linter.all false

/-! Which values of TZ are read right. The lexer stays at a token that is too long, the parser takes its last token
again, and an offset of one second east is an error. -/
namespace Scc.Libc.Tzone
open Text

variable {beyond : Char → Bool} {l : Lexer} {c : Char} {r : List Char}

/-! The tokens. -/

/-- The characters of a name. -/
def inside (beyond : Char → Bool) (c : Char) : Bool := !stop beyond c

/-- The first character of a name. -/
def First (c : Char) : Prop := c.isDigit = false ∧ ¬Mark c

theorem next_eos (text : l.s = []) : next beyond l = (some .EOS, ⟨[], .EOS, []⟩) := by
  simp [next, text, token, TOKENSIZ]

theorem next_char (text : l.s = c :: r) (mark : Mark c) : next beyond l = (some (.char c), ⟨r, .char c, [c]⟩) := by
  have plain : c.isDigit = false := by
    rcases mark with rfl | rfl | rfl | rfl <;> rfl
  simp [next, text, token, plain, mark, TOKENSIZ]

/-- A token that is as long as the run at the beginning. -/
theorem next_token {t : Tok} {d : List Char} (text : l.s = d ++ r) (run : token beyond l.s = (t, d.length)) :
    next beyond l = if d.length < 9 then (some t, ⟨r, t, d⟩) else (none, l) := by
  rw [next, run, text]
  dsimp only
  rw [List.drop_left, List.take_left]
  by_cases short : d.length < 9
  · rw [if_pos short]
    exact if_neg (Nat.not_le_of_lt short)
  · rw [if_neg short]
    exact if_pos (Nat.le_of_not_lt short)

theorem next_num {d : List Char} (text : l.s = d ++ r) (nonempty : d ≠ []) (digits : Run Char.isDigit d r) :
    next beyond l = if d.length < 9 then (some .NUM, ⟨r, .NUM, d⟩) else (none, l) := by
  apply next_token text
  obtain ⟨c, d, rfl⟩ := List.exists_cons_of_ne_nil nonempty
  have digit : c.isDigit = true := digits.within c List.mem_cons_self
  rw [text, List.cons_append, token, if_pos digit, ← List.cons_append, digits.takeWhile]

theorem next_str {w : List Char} (text : l.s = w ++ r) (first : ∃ c s, l.s = c :: s ∧ First c)
    (word : Run (inside beyond) w r) :
    next beyond l = if w.length < 9 then (some .STR, ⟨r, .STR, w⟩) else (none, l) := by
  apply next_token text
  obtain ⟨c, s, begins, plain, unmarked⟩ := first
  rw [begins, token, if_neg (Bool.eq_false_iff.mp plain), if_neg unmarked, ← begins, text]
  exact congrArg (fun run => (Tok.STR, List.length run)) word.takeWhile

/-- What `next` can do. -/
inductive Reads (beyond : Char → Bool) (l : Lexer) : Option Tok × Lexer → Prop
  | eos (text : l.s = []) : Reads beyond l (some .EOS, ⟨[], .EOS, []⟩)
  | num {d r : List Char} (text : l.s = d ++ r) (nonempty : d ≠ []) (digits : Run Char.isDigit d r) (short : d.length < 9) :
      Reads beyond l (some .NUM, ⟨r, .NUM, d⟩)
  | char {c : Char} {r : List Char} (text : l.s = c :: r) (mark : Mark c) : Reads beyond l (some (.char c), ⟨r, .char c, [c]⟩)
  | str {w r : List Char} (text : l.s = w ++ r) (first : ∃ c s, l.s = c :: s ∧ First c) (word : Run (inside beyond) w r)
      (short : w.length < 9) : Reads beyond l (some .STR, ⟨r, .STR, w⟩)
  | long (nonempty : l.s ≠ []) : Reads beyond l (none, l)

theorem next_reads (beyond : Char → Bool) (l : Lexer) : Reads beyond l (next beyond l) := by
  rcases begins : l.s with _ | ⟨c, s⟩
  · rw [next_eos begins]
    exact .eos begins
  · have nonempty : l.s ≠ [] := begins ▸ List.cons_ne_nil c s
    by_cases digit : c.isDigit = true
    · obtain ⟨digits, text⟩ := Run.split Char.isDigit l.s
      have starts : l.s.takeWhile Char.isDigit ≠ [] := by
        rw [begins, List.takeWhile_cons_of_pos digit]
        exact List.cons_ne_nil _ _
      rw [next_num text.symm starts digits]
      split
      · rename_i short
        exact .num text.symm starts digits short
      · exact .long nonempty
    · by_cases mark : Mark c
      · rw [next_char begins mark]
        exact .char begins mark
      · obtain ⟨word, text⟩ := Run.split (inside beyond) l.s
        have first : ∃ c s, l.s = c :: s ∧ First c := ⟨c, s, begins, Bool.eq_false_iff.mpr digit, mark⟩
        rw [next_str text.symm first word]
        split
        · rename_i short
          exact .str text.symm first word short
        · exact .long nonempty

/-! The numbers. -/

/-- Digits that `num` reads. -/
structure Digits (max : Nat) (d : List Char) : Prop where
  nonempty : d ≠ []
  decimal : ∀ c ∈ d, c.isDigit = true
  short : d.length < 9
  le : value d ≤ max

/-- Anything but a digit. -/
def Over (r : List Char) : Prop := ∀ c ∈ r.head?, c.isDigit = false

theorem past_nil : Over [] := nofun

theorem past_colon : Over (':' :: r) := by
  rintro c ⟨⟩
  rfl

/-- The last token is no number, so `num` fails where `next` does. -/
def Waits (l : Lexer) : Prop := l.tok ≠ .EOS ∧ l.tok ≠ .NUM

variable {max : Nat} {d : List Char}

theorem Digits.run (digits : Digits max d) (past : Over r) : Run Char.isDigit d r := ⟨digits.decimal, past⟩

theorem Digits.next (digits : Digits max d) (past : Over r) (text : l.s = d ++ r) :
    next beyond l = (some .NUM, ⟨r, .NUM, d⟩) := by
  rw [next_num text digits.nonempty (digits.run past), if_pos digits.short]

theorem Digits.num (digits : Digits max d) : num max ⟨r, .NUM, d⟩ = value d := by
  have all : d.takeWhile Char.isDigit = d := by
    have whole := (digits.run past_nil).takeWhile
    rwa [List.append_nil] at whole
  simp only [Tzone.num, all]
  exact if_neg (Nat.not_lt_of_le digits.le)

theorem negative : (-1 : Int) < 0 := by decide

theorem num_reads (waits : Waits l) (read : ¬num max (next beyond l).2 < 0) :
    l.s = [] ∨ ∃ d r, Digits max d ∧ Over r ∧ l.s = d ++ r := by
  have reads := next_reads beyond l
  generalize next beyond l = out at read reads
  cases reads with
  | eos text => exact .inl text
  | @num d r text nonempty digits short =>
    refine .inr ⟨d, r, ⟨nonempty, digits.within, short, ?_⟩, digits.past, text⟩
    by_contra more
    have all : d.takeWhile Char.isDigit = d := by
      have whole : Run Char.isDigit d [] := ⟨digits.within, nofun⟩
      simpa using whole.takeWhile
    have fails : num max ⟨r, .NUM, d⟩ = -1 := by
      simp only [num, all]
      exact if_pos (Nat.lt_of_not_le more)
    rw [fails] at read
    exact read negative
  | char text mark => exact absurd negative read
  | str text first word short => exact absurd negative read
  | long nonempty =>
    have fails : num max l = -1 := by
      unfold num
      split
      · rename_i eos
        exact absurd eos waits.1
      · rename_i number
        exact absurd number waits.2
      · rfl
    rw [fails] at read
    exact absurd negative read

/-! What follows a number of `offset`. -/

variable (beyond) in
theorem accept_colon {t : List Char} (text : l.s = ':' :: r) (more : r ≠ []) :
    (next beyond l).2 = ⟨r, .char ':', [':']⟩ ∧
      accept beyond ':' ⟨r, .char ':', t⟩ = (true, (next beyond ⟨r, .char ':', t⟩).2) := by
  rw [next_char text (by decide)]
  refine ⟨rfl, ?_⟩
  have reads := next_reads beyond ⟨r, .char ':', t⟩
  simp only [accept]
  generalize next beyond ⟨r, .char ':', t⟩ = out at reads
  cases reads with
  | eos text => exact absurd text more
  | num => simp
  | char => simp
  | str => simp
  | long => simp

variable (beyond) in
/-- After a number and something else there is a colon that is followed by something, or none is accepted. -/
theorem accept_reads (nonempty : r ≠ []) (d : List Char) :
    (next beyond ⟨r, .NUM, d⟩).2.tok ≠ .EOS ∧
      ((accept beyond ':' (next beyond ⟨r, .NUM, d⟩).2).1 = true → ∃ r', r' ≠ [] ∧ r = ':' :: r') := by
  have reads := next_reads beyond ⟨r, .NUM, d⟩
  generalize next beyond ⟨r, .NUM, d⟩ = out at reads
  cases reads with
  | eos text => exact absurd text nonempty
  | num => exact ⟨nofun, fun accepted => by simp [accept] at accepted⟩
  | @char c r' text mark =>
    refine ⟨nofun, fun accepted => ?_⟩
    by_cases colon : c = ':'
    · subst colon
      refine ⟨r', ?_, text⟩
      rintro rfl
      simp [accept, next_eos] at accepted
    · simp [accept, colon] at accepted
  | str text first word short => exact ⟨nofun, fun accepted => by simp [accept] at accepted⟩
  | long => exact ⟨nofun, fun accepted => by simp [accept] at accepted⟩

/-! `minutes` and `hours` are one function of what a number counts and of what follows it. -/

def part (beyond : Char → Bool) (max : Nat) (unit sign : Int) (more : Int → Lexer → Int × Lexer) (off : Int)
    (l : Lexer) : Int × Lexer :=
  let n := num max l
  if n < 0 then (-1, l)
  else
    let off := off + n * unit
    let l := (next beyond l).2
    if l.tok = .EOS then (sign * off, l)
    else
      let (yes, l) := accept beyond ':' l
      if yes then more off l else (-1, l)

theorem minutes_part (sign off : Int) :
    minutes beyond sign off l = part beyond 60 SECMIN sign (seconds beyond sign) off l := rfl

theorem hours_part (sign : Int) : hours beyond sign l = part beyond 24 SECHOUR sign (minutes beyond sign) 0 l := by
  rw [hours, part, Int.zero_add]

section
variable {unit sign off : Int} {more : Int → Lexer → Int × Lexer}

theorem part_empty (empty : l.s = []) :
    part beyond max unit sign more off (next beyond l).2 = (sign * off, ⟨[], .EOS, []⟩) := by
  rw [next_eos empty]
  simp [part, num, next_eos]

theorem part_ends (digits : Digits max d) (text : l.s = d) :
    part beyond max unit sign more off (next beyond l).2 = (sign * (off + value d * unit), ⟨[], .EOS, []⟩) := by
  rw [digits.next past_nil (text.trans (List.append_nil d).symm)]
  simp [part, digits.num, next_eos, Int.not_lt.mpr (Int.natCast_nonneg _)]

theorem part_goes (digits : Digits max d) (more_ : r ≠ []) (text : l.s = d ++ ':' :: r) :
    part beyond max unit sign more off (next beyond l).2 =
      more (off + value d * unit) (next beyond ⟨r, .char ':', [':']⟩).2 := by
  rw [digits.next past_colon text]
  obtain ⟨colon, accepts⟩ := accept_colon beyond (l := ⟨':' :: r, .NUM, d⟩) (t := [':']) rfl more_
  simp [part, digits.num, colon, accepts, Int.not_lt.mpr (Int.natCast_nonneg _)]

theorem part_reads (waits : Waits l) (read : (part beyond max unit sign more off (next beyond l).2).1 ≠ -1) :
    l.s = [] ∨ ∃ d, Digits max d ∧ (l.s = d ∨ ∃ r, r ≠ [] ∧ l.s = d ++ ':' :: r ∧
      (more (off + value d * unit) (next beyond ⟨r, .char ':', [':']⟩).2).1 ≠ -1) := by
  have positive : ¬num max (next beyond l).2 < 0 := by
    intro fails
    simp [part, fails] at read
  rcases num_reads waits positive with empty | ⟨d, r, digits, past, text⟩
  · exact .inl empty
  · refine .inr ⟨d, digits, ?_⟩
    by_cases ends : r = []
    · subst ends
      exact .inl (text.trans (List.append_nil d))
    · obtain ⟨open_, accepted⟩ := accept_reads beyond ends d
      have goes : (accept beyond ':' (next beyond ⟨r, .NUM, d⟩).2).1 = true := by
        by_contra refused
        rw [digits.next past text] at read
        simp [part, digits.num, open_, refused, Int.not_lt.mpr (Int.natCast_nonneg _)] at read
      obtain ⟨r', some, rfl⟩ := accepted goes
      refine .inr ⟨r', some, text, ?_⟩
      rwa [part_goes digits some text] at read

theorem seconds_ends (digits : Digits 60 d) (past : Over r) (text : l.s = d ++ r) :
    seconds beyond sign off (next beyond l).2 = (sign * (off + value d), (next beyond ⟨r, .NUM, d⟩).2) := by
  rw [digits.next past text]
  simp [seconds, digits.num, Int.not_lt.mpr (Int.natCast_nonneg _)]

theorem seconds_reads (waits : Waits l) (nonempty : l.s ≠ [])
    (read : (seconds beyond sign off (next beyond l).2).1 ≠ -1) :
    ∃ d r, Digits 60 d ∧ Over r ∧ l.s = d ++ r := by
  have positive : ¬num 60 (next beyond l).2 < 0 := by
    intro fails
    simp [seconds, fails] at read
  exact (num_reads waits positive).resolve_left nonempty

end

/-! `offset` -/

/-- What may follow the sign, and the seconds. Nothing is 0, and anything may follow three numbers. -/
inductive Body : List Char → Int → Prop
  | empty : Body [] 0
  | h {h : List Char} (hours : Digits 24 h) : Body h (value h * 3600)
  | hm {h m : List Char} (hours : Digits 24 h) (minutes : Digits 60 m) :
      Body (h ++ ':' :: m) (value h * 3600 + value m * 60)
  | hms {h m s rest : List Char} (hours : Digits 24 h) (minutes : Digits 60 m) (seconds : Digits 60 s)
      (past : Over rest) :
      Body (h ++ ':' :: (m ++ ':' :: (s ++ rest))) (value h * 3600 + value m * 60 + value s)

theorem waits_char (c : Char) (r t : List Char) : Waits ⟨r, .char c, t⟩ := ⟨nofun, nofun⟩

theorem offset_sign (sign : Sign) (tok : l.tok = .char sign.char) :
    offset beyond l = part beyond 24 SECHOUR sign.east (minutes beyond sign.east) 0 (next beyond l).2 := by
  rw [← hours_part]
  cases sign <;> simp only [offset, tok, Sign.char, Sign.east]

variable {sign : Sign} {h m s rest : List Char}

variable (sign) in
theorem offset_h (tok : l.tok = .char sign.char) (hours : Digits 24 h) (text : l.s = h) :
    offset beyond l = (sign.east * (value h * 3600), ⟨[], .EOS, []⟩) := by
  rw [offset_sign sign tok, part_ends hours text, Int.zero_add]
  rfl

variable (sign) in
theorem offset_hm (tok : l.tok = .char sign.char) (hours : Digits 24 h) (minutes : Digits 60 m)
    (text : l.s = h ++ ':' :: m) :
    offset beyond l = (sign.east * (value h * 3600 + value m * 60), ⟨[], .EOS, []⟩) := by
  rw [offset_sign sign tok, part_goes hours minutes.nonempty text, minutes_part, part_ends minutes rfl, Int.zero_add]
  rfl

variable (sign) in
theorem offset_hms (tok : l.tok = .char sign.char) (hours : Digits 24 h) (minutes : Digits 60 m)
    (seconds : Digits 60 s) (past : Over rest) (text : l.s = h ++ ':' :: (m ++ ':' :: (s ++ rest))) :
    offset beyond l = (sign.east * (value h * 3600 + value m * 60 + value s), (next beyond ⟨rest, .NUM, s⟩).2) := by
  have more : s ++ rest ≠ [] := List.append_ne_nil_of_left_ne_nil seconds.nonempty rest
  rw [offset_sign sign tok, part_goes hours (List.append_ne_nil_of_left_ne_nil minutes.nonempty _) text, minutes_part,
    part_goes minutes more rfl, seconds_ends seconds past rfl, Int.zero_add]
  rfl

theorem offset_body {v : Int} (tok : l.tok = .char sign.char) (body : Body l.s v) :
    (offset beyond l).1 = sign.east * v := by
  generalize text : l.s = t at body
  cases body with
  | empty => rw [offset_sign sign tok, part_empty text]
  | h hours => rw [offset_h sign tok hours text]
  | hm hours minutes => rw [offset_hm sign tok hours minutes text]
  | hms hours minutes seconds past => rw [offset_hms sign tok hours minutes seconds past text]

theorem offset_reads (tok : l.tok = .char sign.char) (read : (offset beyond l).1 ≠ -1) : ∃ v, Body l.s v := by
  have waits : Waits l := by
    constructor <;> simp [tok]
  rw [offset_sign sign tok] at read
  rcases part_reads waits read with empty | ⟨h, hours, ends | ⟨r, some, text, read⟩⟩
  · rw [empty]
    exact ⟨_, .empty⟩
  · rw [ends]
    exact ⟨_, .h hours⟩
  · rw [text]
    rw [minutes_part] at read
    rcases part_reads (waits_char _ _ _) read with empty | ⟨m, minutes, ends | ⟨r, more, rfl, left⟩⟩
    · exact absurd empty some
    · obtain rfl : r = m := ends
      exact ⟨_, .hm hours minutes⟩
    · obtain ⟨s, rest, seconds, past, same⟩ := seconds_reads (l := ⟨r, .char ':', [':']⟩) (waits_char _ _ _) more left
      obtain rfl : r = s ++ rest := same
      exact ⟨_, .hms hours minutes seconds past⟩

/-- Only a sign begins an offset. -/
theorem offset_tok (read : (offset beyond l).1 ≠ -1) : ∃ sign : Sign, l.tok = .char sign.char := by
  unfold offset at read
  split at read
  · rename_i plus
    exact ⟨.plus, plus⟩
  · rename_i minus
    exact ⟨.minus, minus⟩
  · exact absurd rfl read

/-! `tzset` -/

/-- The tokens that are names. -/
structure Word (beyond : Char → Bool) (w : List Char) : Prop where
  first : ∃ c s, w = c :: s ∧ First c
  within : ∀ c ∈ w, inside beyond c = true
  short : w.length < 9

/-- What `std` takes. -/
def Taken (beyond : Char → Bool) (text : List Char) : Prop :=
  ∃ (name : List Char) (sign : Sign) (body : List Char) (v : Int),
    text = name ++ sign.char :: body ∧ Word beyond name ∧ Body body v ∧ sign.east * v ≠ -1

theorem sign_mark (sign : Sign) : Mark sign.char := by
  cases sign <;> decide

theorem stop_sign (sign : Sign) : inside beyond sign.char = false := by
  cases sign <;> rfl

theorem Word.next {w : List Char} (word : Word beyond w) (past : ∀ c ∈ r.head?, inside beyond c = false)
    (text : l.s = w ++ r) : next beyond l = (some .STR, ⟨r, .STR, w⟩) := by
  obtain ⟨c, s, rfl, first⟩ := word.first
  rw [next_str text ⟨c, s ++ r, text, first⟩ ⟨word.within, past⟩, if_pos word.short]

/-- The lexer after the sign of an offset. -/
def Sign.lexer (sign : Sign) (body : List Char) : Lexer := ⟨body, .char sign.char, [sign.char]⟩

theorem next_sign (text : l.s = sign.char :: r) : next beyond l = (some (.char sign.char), sign.lexer r) :=
  next_char text (sign_mark sign)

/-- What a caller reads of the variables. -/
def Tz.zone (v : Tz) : (List Char × List Char) × Int × Int := ((v.st, v.ds), v.tzstdoff, v.tzdstoff)

theorem yday_zone (v : Tz) : (yday beyond v).2.zone = v.zone := by
  unfold yday
  split
  · dsimp only
    split <;> rfl
  · split <;> rfl

/-- The rule is read for the days only. -/
theorem rule_zone (v : Tz) : (rule beyond v).zone = v.zone := by
  unfold rule
  split
  · rfl
  · dsimp only
    split
    · rfl
    · split
      · exact yday_zone _
      · split
        · exact yday_zone _
        · exact (yday_zone _).trans (yday_zone _)

/-- The variables when `std` is called. -/
def begun (beyond : Char → Bool) (text : List Char) (v : Tz) : Tz :=
  { v with
    lexer := (next beyond { v.lexer with s := text }).2
    tzstdoff := -1, tzdstoff := -1, tzstart := -1, tzend := -1, tzjulian := 0 }

variable (beyond) in
theorem tzset_zone (text : List Char) (v : Tz) :
    (tzset beyond (some text) v).zone =
      (if (std beyond (begun beyond text v)).1 then (dst beyond (std beyond (begun beyond text v)).2).2
      else (std beyond (begun beyond text v)).2).zone := by
  change (if !(std beyond (begun beyond text v)).1 then (std beyond (begun beyond text v)).2
    else if !(dst beyond (std beyond (begun beyond text v)).2).1 then (dst beyond (std beyond (begun beyond text v)).2).2
    else rule beyond (dst beyond (std beyond (begun beyond text v)).2).2).zone = _
  by_cases stood : (std beyond (begun beyond text v)).1 = true
  · rw [if_neg (by simp [stood]), if_pos stood]
    split
    · rfl
    · exact rule_zone _
  · rw [if_pos (by simpa using stood), if_neg stood]

section
variable {text : List Char} {v : Tz}

theorem std_false (stood : (std beyond v).1 = false) : (std beyond v).2.tzstdoff = v.tzstdoff ∧
    (std beyond v).2.tzdstoff = v.tzdstoff := by
  unfold std at stood ⊢
  split at stood
  · rename_i other
    rw [if_pos other]
    exact ⟨rfl, rfl⟩
  · rename_i word
    rw [if_neg word]
    dsimp only at stood ⊢
    split at stood
    · rename_i fails
      rw [if_pos fails]
      exact ⟨rfl, rfl⟩
    · cases stood

theorem std_true (stood : (std beyond v).1 = true) :
    v.lexer.tok = .STR ∧ (offset beyond (next beyond v.lexer).2).1 ≠ -1 := by
  unfold std at stood
  split at stood
  · cases stood
  · rename_i word
    dsimp only at stood
    split at stood
    · cases stood
    · rename_i read
      exact ⟨not_not.mp word, read⟩

theorem std_eq (word : v.lexer.tok = .STR) (read : (offset beyond (next beyond v.lexer).2).1 ≠ -1) :
    std beyond v = (true, { v with
      st := v.lexer.tokstr
      lexer := (offset beyond (next beyond v.lexer).2).2
      tzstdoff := (offset beyond (next beyond v.lexer).2).1 }) := by
  rw [std, if_neg (not_not.mpr word)]
  exact if_neg read

/-- The offset after a name. -/
theorem offset_word {w : List Char} (read : (offset beyond (next beyond ⟨r, .STR, w⟩).2).1 ≠ -1) :
    ∃ (sign : Sign) (body : List Char) (secs : Int),
      r = sign.char :: body ∧ Body body secs ∧ sign.east * secs ≠ -1 := by
  obtain ⟨sign, tok⟩ := offset_tok read
  have reads := next_reads beyond ⟨r, .STR, w⟩
  generalize next beyond ⟨r, .STR, w⟩ = out at reads read tok
  cases reads with
  | eos | num | str | long => cases tok
  | @char c body text mark =>
    obtain rfl : c = sign.char := Tok.char.inj tok
    obtain ⟨secs, content⟩ := offset_reads tok read
    rw [offset_body tok content] at read
    exact ⟨sign, body, secs, text, content, read⟩

theorem offset_taken {w : List Char} (first : ∃ c s, w ++ r = c :: s ∧ First c)
    (word : Run (inside beyond) w r) (short : w.length < 9)
    (read : (offset beyond (next beyond ⟨r, .STR, w⟩).2).1 ≠ -1) : Taken beyond (w ++ r) := by
  obtain ⟨sign, body, secs, rfl, content, known⟩ := offset_word read
  refine ⟨w, sign, body, secs, rfl, ⟨?_, word.within, short⟩, content, known⟩
  obtain ⟨c, s, begins, first⟩ := first
  cases w with
  | nil =>
    cases begins
    exact absurd (sign_mark sign) first.2
  | cons d w =>
    cases begins
    exact ⟨_, w, rfl, first⟩

theorem std_reads (stood : (std beyond (begun beyond text v)).1 = true) : Taken beyond text := by
  obtain ⟨tok, read⟩ := std_true stood
  have again : (begun beyond text v).lexer = (next beyond { v.lexer with s := text }).2 := rfl
  rw [again] at tok read
  have reads := next_reads beyond { v.lexer with s := text }
  rcases ran : next beyond { v.lexer with s := text } with ⟨t, l⟩
  rw [ran] at reads tok read
  cases reads with
  | eos | num | char => cases tok
  | @str w r begins first word short =>
    obtain rfl : text = w ++ r := begins
    exact offset_taken first word short read
  | long =>
    obtain ⟨sign, sign_⟩ := offset_tok read
    rw [ran] at sign_
    exact absurd (tok.symm.trans sign_) nofun

/-- What is read of a text that `std` takes. -/
theorem std_taken {name body : List Char} {sign : Sign} {secs : Int} (word : Word beyond name) (content : Body body secs)
    (known : sign.east * secs ≠ -1) :
    std beyond (begun beyond (name ++ sign.char :: body) v) = (true, { begun beyond (name ++ sign.char :: body) v with
      st := name
      lexer := (offset beyond (sign.lexer body)).2
      tzstdoff := sign.east * secs }) := by
  have past : ∀ c ∈ (sign.char :: body).head?, inside beyond c = false := by
    rintro c ⟨⟩
    exact stop_sign sign
  have first : (begun beyond (name ++ sign.char :: body) v).lexer = ⟨sign.char :: body, .STR, name⟩ :=
    congrArg Prod.snd (word.next past rfl)
  have second : (next beyond (begun beyond (name ++ sign.char :: body) v).lexer).2 = sign.lexer body := by
    rw [first, next_sign rfl]
  have value_ : (offset beyond (sign.lexer body)).1 = sign.east * secs := offset_body rfl content
  rw [std_eq (by rw [first]) (by rwa [second, value_]), second, value_, first]

theorem tzset_untaken (untaken : ¬Taken beyond text) (v : Tz) :
    (tzset beyond (some text) v).tzstdoff = -1 ∧ (tzset beyond (some text) v).tzdstoff = -1 := by
  have stood : (std beyond (begun beyond text v)).1 = false := Bool.eq_false_iff.mpr fun stood => untaken (std_reads stood)
  have zone := tzset_zone beyond text v
  rw [if_neg (by simp [stood])] at zone
  obtain ⟨standard, summer⟩ := std_false stood
  exact ⟨(congrArg (fun z => z.2.1) zone).trans standard, (congrArg (fun z => z.2.2) zone).trans summer⟩

theorem dst_other (other : v.lexer.tok ≠ .STR) : (dst beyond v).2 = v := by
  rw [dst, if_pos other]

theorem dst_word (word : v.lexer.tok = .STR) : (dst beyond v).2 = { v with
    ds := v.lexer.tokstr
    lexer := (offset beyond (next beyond v.lexer).2).2
    tzdstoff := if (offset beyond (next beyond v.lexer).2).1 = -1 then -1 else v.tzstdoff + SECHOUR } := by
  by_cases fails : (offset beyond (next beyond v.lexer).2).1 = -1
  · simp [dst, word, fails]
  · simp [dst, word, fails]

/-- The variables after a text that `std` takes, where `l` is the lexer after it. -/
structure Reached (beyond : Char → Bool) (name : List Char) (off : Int) (l : Lexer) (v : Tz) : Prop where
  st : v.st = name
  tzstdoff : v.tzstdoff = off
  other : l.tok ≠ .STR → v.tzdstoff = -1
  ds : l.tok = .STR → v.ds = l.tokstr
  fails : l.tok = .STR → (offset beyond (next beyond l).2).1 = -1 → v.tzdstoff = -1
  read : l.tok = .STR → (offset beyond (next beyond l).2).1 ≠ -1 → v.tzdstoff = off + 3600

theorem tzset_taken {name body : List Char} {sign : Sign} {secs : Int} (word : Word beyond name)
    (content : Body body secs) (known : sign.east * secs ≠ -1) (v : Tz) :
    Reached beyond name (sign.east * secs) (offset beyond (sign.lexer body)).2
      (tzset beyond (some (name ++ sign.char :: body)) v) := by
  have zone := tzset_zone beyond (name ++ sign.char :: body) v
  rw [std_taken word content known, if_pos rfl] at zone
  generalize (offset beyond (sign.lexer body)).2 = l at zone
  by_cases next : l.tok = .STR
  · rw [dst_word next] at zone
    simp only [Tz.zone, Prod.mk.injEq] at zone
    obtain ⟨⟨st, ds⟩, standard, summer⟩ := zone
    refine ⟨st, standard, fun other => absurd next other, fun _ => ds, fun _ fails => ?_, fun _ read => ?_⟩
    · rw [summer, if_pos fails]
    · rw [summer, if_neg read]
      rfl
  · rw [dst_other next] at zone
    simp only [Tz.zone, Prod.mk.injEq] at zone
    obtain ⟨⟨st, -⟩, standard, summer⟩ := zone
    exact ⟨st, standard, fun _ => summer, fun word => absurd word next, fun word => absurd word next,
      fun word => absurd word next⟩

end

/-! What is read right. -/

def Number.Short {max : Nat} (n : Number max) : Prop := n.digits.length < 9

def Clock.Short : Clock → Prop
  | .h hours => hours.Short
  | .hm hours minutes => hours.Short ∧ minutes.Short
  | .hms hours minutes seconds => hours.Short ∧ minutes.Short ∧ seconds.Short

/-- All three numbers are written. -/
def Clock.Whole : Clock → Prop
  | .hms .. => True
  | _ => False

/-- The sign is written, and -1 is not the value. -/
def Offset.Readable (o : Offset) : Prop := o.sign ≠ none ∧ o.clock.Short ∧ o.seconds ≠ -1

def Name.Readable {least : Nat} : Name least → Prop
  | .letters name .. => name.length < 9
  | .quoted .. => False

/-- An offset is written, and the default. -/
def Summer.Readable {least : Nat} (d : Summer least) (standard : Offset) : Prop :=
  d.name.Readable ∧ standard.clock.Whole ∧ ∃ o, d.offset = some o ∧ o.Readable ∧
    o.seconds = standard.seconds + 3600 ∧ (d.rule ≠ none → o.clock.Whole)

def Zone.Readable {least : Nat} (z : Zone least) : Prop :=
  z.std.Readable ∧ z.offset.Readable ∧ ∀ d, z.dst = some d → d.Readable z.offset

/-! The texts of offsets and names. -/

/-- What follows a time in a text. -/
def After (rest : List Char) : Prop := ∀ c ∈ rest.head?, c.isDigit = false ∧ c ≠ ':'

theorem After.past {rest : List Char} (after : After rest) : Over rest := fun c first => (after c first).1

theorem after_nil : After [] := nofun

theorem after_ne {rest t : List Char} (after : After rest) : rest ≠ ':' :: t := by
  rintro rfl
  exact (after ':' rfl).2 rfl

theorem Number.digits_of {n : Number max} (short : n.Short) {more : Nat} (le : max ≤ more) : Digits more n.digits :=
  ⟨n.nonempty, n.decimal, short, Nat.le_trans n.le le⟩

theorem Number.unique (n : Number max) {more : Nat} {rest : List Char} (digits : Digits more d) (past : Over rest)
    (past' : Over r) (same : n.digits ++ rest = d ++ r) : n.digits = d ∧ rest = r :=
  Run.unique ⟨n.decimal, past⟩ (digits.run past') same

theorem Number.whole (n : Number max) {more : Nat} {rest : List Char} (digits : Digits more d) (past : Over rest)
    (same : n.digits ++ rest = d) : n.digits = d ∧ rest = [] :=
  n.unique digits past past_nil (same.trans (List.append_nil d).symm)

/-- An offset that is read is written with its own numbers. -/
theorem body_clock {clock : Clock} {rest : List Char} {secs : Int} (after : After rest)
    (content : Body (clock.text ++ rest) secs) :
    clock.Short ∧ secs = clock.seconds ∧ (rest = [] ∨ clock.Whole) := by
  generalize text : clock.text ++ rest = t at content
  cases clock with
  | h hours =>
    simp only [Clock.text] at text
    cases content with
    | empty => exact absurd (List.append_eq_nil_iff.mp text).1 hours.nonempty
    | h digits =>
      obtain ⟨rfl, ends⟩ := hours.whole digits after.past text
      exact ⟨digits.short, rfl, .inl ends⟩
    | hm digits => exact absurd (hours.unique digits after.past past_colon text).2 (after_ne after)
    | hms digits => exact absurd (hours.unique digits after.past past_colon text).2 (after_ne after)
  | hm hours minutes =>
    simp only [Clock.text, List.append_assoc, List.cons_append] at text
    cases content with
    | empty => exact absurd (List.append_eq_nil_iff.mp text).1 hours.nonempty
    | h digits => exact absurd (hours.whole digits past_colon text).2 nofun
    | hm digits digits' =>
      obtain ⟨rfl, same⟩ := hours.unique digits past_colon past_colon text
      obtain ⟨rfl, ends⟩ := minutes.whole digits' after.past (List.cons.inj same).2
      exact ⟨⟨digits.short, digits'.short⟩, rfl, .inl ends⟩
    | hms digits digits' =>
      have same := (hours.unique digits past_colon past_colon text).2
      exact absurd (minutes.unique digits' after.past past_colon (List.cons.inj same).2).2 (after_ne after)
  | hms hours minutes seconds =>
    simp only [Clock.text, List.append_assoc, List.cons_append] at text
    cases content with
    | empty => exact absurd (List.append_eq_nil_iff.mp text).1 hours.nonempty
    | h digits => exact absurd (hours.whole digits past_colon text).2 nofun
    | hm digits digits' =>
      have same := (hours.unique digits past_colon past_colon text).2
      exact absurd (minutes.whole digits' past_colon (List.cons.inj same).2).2 nofun
    | hms digits digits' digits'' past =>
      obtain ⟨rfl, same⟩ := hours.unique digits past_colon past_colon text
      obtain ⟨rfl, later⟩ := minutes.unique digits' past_colon past_colon (List.cons.inj same).2
      obtain ⟨rfl, -⟩ := seconds.unique digits'' after.past past (List.cons.inj later).2
      exact ⟨⟨digits.short, digits'.short, digits''.short⟩, rfl, .inr trivial⟩

theorem Clock.text_head (clock : Clock) : ∃ c t, clock.text = c :: t ∧ c.isDigit = true := by
  have first (hours : Number 24) : ∃ c t, hours.digits = c :: t ∧ c.isDigit = true := by
    obtain ⟨c, t, starts⟩ := List.exists_cons_of_ne_nil hours.nonempty
    exact ⟨c, t, starts, hours.decimal c (starts ▸ List.mem_cons_self)⟩
  cases clock with
  | h hours => exact first hours
  | hm hours minutes =>
    obtain ⟨c, t, starts, digit⟩ := first hours
    exact ⟨c, _, by rw [Clock.text, starts, List.cons_append], digit⟩
  | hms hours minutes seconds =>
    obtain ⟨c, t, starts, digit⟩ := first hours
    exact ⟨c, _, by rw [Clock.text, starts, List.cons_append], digit⟩

/-- An offset that is read has its sign. -/
theorem body_offset {o : Offset} {rest body : List Char} {sign : Sign} {secs : Int} (after : After rest)
    (same : o.text ++ rest = sign.char :: body) (content : Body body secs) :
    o.sign = some sign ∧ body = o.clock.text ++ rest ∧ o.clock.Short ∧ o.seconds = sign.east * secs ∧
      (rest = [] ∨ o.clock.Whole) := by
  obtain ⟨written, clock⟩ := o
  cases written with
  | none =>
    obtain ⟨c, t, starts, digit⟩ := clock.text_head
    simp only [Offset.text, Option.elim_none, List.nil_append, starts, List.cons_append, List.cons.injEq] at same
    rw [same.1] at digit
    cases sign <;> cases digit
  | some written =>
    simp only [Offset.text, Option.elim_some, List.cons_append, List.nil_append, List.cons.injEq] at same
    obtain ⟨char, rfl⟩ := same
    obtain rfl : written = sign := by
      cases written <;> cases sign <;> first | rfl | cases char
    obtain ⟨short, rfl, ends⟩ := body_clock after content
    exact ⟨rfl, rfl, short, rfl, ends⟩

theorem inside_digit (digit : c.isDigit = true) : inside beyond c = false := by
  have bounds : 48 ≤ c.toNat ∧ c.toNat ≤ 57 := by
    simp only [Char.isDigit, Bool.and_eq_true, decide_eq_true_eq, UInt32.le_iff_toNat_le, ge_iff_le] at digit
    exact digit
  have same : c = Char.ofNat c.toNat := (Char.ofNat_toNat c).symm
  obtain ⟨low, high⟩ := bounds
  generalize c.toNat = n at same low high
  subst same
  interval_cases n <;> rfl

variable (beyond) in
theorem alpha_first (alpha : c.isAlpha = true) : First c ∧ inside beyond c = true := by
  have bounds : (65 ≤ c.toNat ∧ c.toNat ≤ 90) ∨ (97 ≤ c.toNat ∧ c.toNat ≤ 122) := by
    have kinds : c.isUpper = true ∨ c.isLower = true := Bool.or_eq_true_iff.mp alpha
    refine kinds.imp (fun upper => ?_) fun lower => ?_
    · exact (of_decide_eq_true upper).imp UInt32.le_iff_toNat_le.mp UInt32.le_iff_toNat_le.mp
    · obtain ⟨least, most⟩ := Bool.and_eq_true_iff.mp lower
      exact ⟨UInt32.le_iff_toNat_le.mp (of_decide_eq_true least), UInt32.le_iff_toNat_le.mp (of_decide_eq_true most)⟩
  refine ⟨⟨?_, ?_⟩, ?_⟩
  · simp only [Char.isDigit, Bool.and_eq_false_iff, decide_eq_false_iff_not, UInt32.le_iff_toNat_le, ge_iff_le]
    right
    change ¬c.toNat ≤ 57
    omega
  · rintro (rfl | rfl | rfl | rfl) <;> exact absurd alpha (by decide)
  · have ascii : c.toNat < 128 := by omega
    have below : "+-0123456789".toList.all (fun c => decide (c.toNat ≤ 57)) = true := rfl
    have others : ∀ c ∈ "+-0123456789".toList, c.toNat ≤ 57 := fun c member =>
      of_decide_eq_true (List.all_eq_true.mp below c member)
    rw [inside, stop, if_pos ascii, decide_eq_false fun member => ?_]
    · rfl
    · have := others c member
      omega

theorem After.append {a b : List Char} (after : After a) (after' : After b) : After (a ++ b) := by
  cases a with
  | nil => exact after'
  | cons c a => exact after

/-- Names are written with a letter or `<` first. -/
theorem Name.text_head {least : Nat} (name : Name least) : ∃ c t, name.text = c :: t ∧ (c.isAlpha = true ∨ c = '<') := by
  cases name with
  | letters name nonempty long alpha =>
    obtain ⟨c, t, rfl⟩ := List.exists_cons_of_ne_nil nonempty
    exact ⟨c, t, rfl, .inl (alpha c List.mem_cons_self)⟩
  | quoted name => exact ⟨'<', _, rfl, .inr rfl⟩

theorem Summer.after {least : Nat} (dst : Option (Summer least)) : After (dst.elim [] Summer.text) := by
  cases dst with
  | none => exact after_nil
  | some d =>
    obtain ⟨c, t, starts, first⟩ := d.name.text_head
    rw [Option.elim_some, Summer.text, starts]
    rintro _ ⟨⟩
    rcases first with alpha | rfl
    · exact ⟨(alpha_first (fun _ => false) alpha).1.1, fun colon => by subst colon; cases alpha⟩
    · exact ⟨rfl, by decide⟩

theorem Rule.after (rule : Option Rule) : After (rule.elim [] Rule.text) := by
  cases rule with
  | none => exact after_nil
  | some rule =>
    rintro _ ⟨⟩
    exact ⟨rfl, by decide⟩

/-- An offset ends the name before it. -/
theorem Offset.ends (o : Offset) (rest : List Char) : ∀ c ∈ (o.text ++ rest).head?, inside beyond c = false := by
  obtain ⟨written, clock⟩ := o
  cases written with
  | none =>
    obtain ⟨c, t, starts, digit⟩ := clock.text_head
    rw [Offset.text, Option.elim_none, List.nil_append, starts]
    rintro _ ⟨⟩
    exact inside_digit digit
  | some sign =>
    rintro _ ⟨⟩
    exact stop_sign sign

/-- The name of a token is the name that is written, unless it is quoted. -/
theorem Name.token {least : Nat} {name : Name least} {w rest : List Char} (run : Run (inside beyond) w r)
    (ends : ∀ c ∈ rest.head?, inside beyond c = false) (same : name.text ++ rest = w ++ r) (named : w = name.name)
    (short : w.length < 9) : name.Readable ∧ rest = r := by
  cases name with
  | letters name nonempty long alpha =>
    have written : Run (inside beyond) name rest := ⟨fun c member => (alpha_first beyond (alpha c member)).2, ends⟩
    obtain ⟨rfl, rest_⟩ := written.unique run same
    exact ⟨short, rest_⟩
  | quoted name nonempty long legal =>
    obtain rfl : w = name := named
    obtain ⟨c, t, rfl⟩ := List.exists_cons_of_ne_nil nonempty
    obtain rfl : '<' = c := (List.cons.inj same).1
    exact absurd (legal '<' List.mem_cons_self) (by decide)

/-! No rule has a sign. -/

def Signless (t : List Char) : Prop := ∀ sign : Sign, sign.char ∉ t

theorem Signless.append {a b : List Char} (first : Signless a) (second : Signless b) : Signless (a ++ b) := fun sign member =>
  (List.mem_append.mp member).elim (first sign) (second sign)

theorem Signless.cons {c : Char} {t : List Char} (first : ∀ sign : Sign, sign.char ≠ c) (second : Signless t) :
    Signless (c :: t) := fun sign member => (List.mem_cons.mp member).elim (first sign) (second sign)

theorem signless_nil : Signless [] := fun _ => List.not_mem_nil

theorem Number.signless (n : Number max) : Signless n.digits := fun sign member => by
  have digit := n.decimal _ member
  cases sign <;> cases digit

theorem Clock.signless (clock : Clock) : Signless clock.text := by
  have colon : ∀ sign : Sign, sign.char ≠ ':' := fun sign => by cases sign <;> decide
  cases clock with
  | h hours => exact hours.signless
  | hm hours minutes => exact hours.signless.append (.cons colon minutes.signless)
  | hms hours minutes seconds =>
    exact hours.signless.append (.cons colon (minutes.signless.append (.cons colon seconds.signless)))

theorem Date.signless (date : Date) : Signless date.text := by
  have dot : ∀ sign : Sign, sign.char ≠ '.' := fun sign => by cases sign <;> decide
  cases date with
  | julian n => exact .cons (fun sign => by cases sign <;> decide) n.signless
  | day n => exact n.signless
  | week m w d =>
    exact .cons (fun sign => by cases sign <;> decide) (m.signless.append (.cons dot (w.signless.append (.cons dot d.signless))))

theorem Change.signless (change : Change) : Signless change.text := by
  apply change.date.signless.append
  cases change.time with
  | none => exact signless_nil
  | some time => exact .cons (fun sign => by cases sign <;> decide) time.signless

theorem Rule.signless (rule : Rule) : Signless rule.text := by
  have comma : ∀ sign : Sign, sign.char ≠ ',' := fun sign => by cases sign <;> decide
  exact .cons comma (rule.start.signless.append (.cons comma rule.finish.signless))

/-- Without an offset there is no sign after the name that is read. -/
theorem Summer.signless {least : Nat} {d : Summer least} {w : List Char} (bare : d.offset = none) (same : d.text = w ++ r)
    (named : w = d.name.name) : Signless d.text := by
  obtain ⟨name, offset, rule⟩ := d
  obtain rfl : offset = none := bare
  have rules : Signless (rule.elim [] Rule.text) := by
    cases rule with
    | none => exact signless_nil
    | some rule => exact rule.signless
  cases name with
  | letters name nonempty long alpha =>
    refine Signless.append (fun sign member => ?_) rules
    have letter := alpha _ member
    cases sign <;> cases letter
  | quoted name nonempty long legal =>
    obtain rfl : w = name := named
    obtain ⟨c, t, rfl⟩ := List.exists_cons_of_ne_nil nonempty
    obtain rfl : '<' = c := (List.cons.inj same).1
    exact absurd (legal '<' List.mem_cons_self) (by decide)

/-! The condition. -/

variable {least : Nat}

/-- The daylight time that is read right. -/
theorem summer_agrees {d : Summer least} {standard : Offset} {name : List Char} {v : Tz} {t : List Char}
    (reached : Reached beyond name standard.seconds (next beyond ⟨d.text, .NUM, t⟩).2 v)
    (whole : standard.clock.Whole) (ds : v.ds = d.name.name) (off : v.tzdstoff = d.offset.elim (standard.seconds + 3600) Offset.seconds)
    (known : v.tzdstoff ≠ -1) : d.Readable standard := by
  have word : (next beyond ⟨d.text, .NUM, t⟩).2.tok = .STR := by
    by_contra other
    exact known (reached.other other)
  have tokstr := reached.ds word
  have read : (offset beyond (next beyond (next beyond ⟨d.text, .NUM, t⟩).2).2).1 ≠ -1 := fun fails =>
    known (reached.fails word fails)
  have value_ := reached.read word read
  have reads := next_reads beyond ⟨d.text, .NUM, t⟩
  generalize next beyond ⟨d.text, .NUM, t⟩ = out at reads word tokstr read
  cases reads with
  | eos | num | char | long => cases word
  | @str w r text first run short =>
    have text : d.text = w ++ r := text
    have named : w = d.name.name := tokstr.symm.trans ds
    obtain ⟨sign, body, secs, rfl, content, other⟩ := offset_word read
    cases written : d.offset with
    | none => exact absurd (text ▸ List.mem_append_right w List.mem_cons_self) (Summer.signless written text named sign)
    | some o =>
      rw [Summer.text, written, Option.elim_some] at text
      obtain ⟨readable, rest⟩ := Name.token run (o.ends _) text named short
      obtain ⟨signed, -, shortly, same, ends⟩ := body_offset (Rule.after d.rule) rest content
      rw [written, Option.elim_some] at off
      refine ⟨readable, whole, o, written, ⟨?_, shortly, same ▸ other⟩, off.symm.trans value_, fun ruled => ?_⟩
      · rw [signed]
        exact Option.some_ne_none sign
      · apply ends.resolve_left
        obtain ⟨rule, some⟩ := Option.ne_none_iff_exists'.mp ruled
        rw [some]
        exact List.cons_ne_nil _ _

theorem clock_body {clock : Clock} {rest : List Char} (short : clock.Short) (ends : rest = [] ∨ clock.Whole ∧ Over rest) :
    Body (clock.text ++ rest) clock.seconds := by
  cases clock with
  | h hours =>
    obtain rfl := ends.resolve_right fun whole => whole.1
    rw [List.append_nil]
    exact .h (hours.digits_of short (Nat.le_refl _))
  | hm hours minutes =>
    obtain rfl := ends.resolve_right fun whole => whole.1
    rw [List.append_nil]
    exact .hm (hours.digits_of short.1 (Nat.le_refl _)) (minutes.digits_of short.2 (by decide))
  | hms hours minutes seconds =>
    have past : Over rest := ends.elim (fun empty => empty ▸ past_nil) And.right
    simp only [Clock.text, List.append_assoc, List.cons_append]
    exact .hms (hours.digits_of short.1 (Nat.le_refl _)) (minutes.digits_of short.2.1 (by decide))
      (seconds.digits_of short.2.2 (by decide)) past

variable (beyond) in
/-- The lexer after an offset. -/
theorem offset_whole {clock : Clock} (short : clock.Short) (whole : clock.Whole) (sign : Sign) :
    ∃ t, ∀ rest, Over rest → (offset beyond (sign.lexer (clock.text ++ rest))).2 = (next beyond ⟨rest, .NUM, t⟩).2 := by
  cases clock with
  | h | hm => exact whole.elim
  | hms hours minutes seconds =>
    refine ⟨seconds.digits, fun rest past => ?_⟩
    rw [offset_hms sign rfl (hours.digits_of short.1 (Nat.le_refl _)) (minutes.digits_of short.2.1 (by decide))
      (seconds.digits_of short.2.2 (by decide)) past]
    simp only [Sign.lexer, Clock.text, List.append_assoc, List.cons_append]

theorem offset_last {clock : Clock} (short : clock.Short) (sign : Sign) :
    (offset beyond (sign.lexer clock.text)).2.tok = .EOS := by
  cases clock with
  | h hours => rw [offset_h sign rfl (hours.digits_of short (Nat.le_refl _)) rfl]
  | hm hours minutes =>
    rw [offset_hm sign rfl (hours.digits_of short.1 (Nat.le_refl _)) (minutes.digits_of short.2 (by decide)) rfl]
  | hms hours minutes seconds =>
    obtain ⟨t, after⟩ := offset_whole beyond short trivial sign
    have last := after [] past_nil
    rw [List.append_nil] at last
    rw [last, next_eos rfl]

/-- What a zone that is taken is read as. -/
theorem zone_taken {z : Zone least} {v : Tz} (named : z.std.name = (tzset beyond (some z.text) v).st)
    (known : (tzset beyond (some z.text) v).tzstdoff ≠ -1) :
    z.std.Readable ∧ z.offset.Readable ∧ (z.dst = none ∨ z.offset.clock.Whole) := by
  have taken : Taken beyond z.text := by
    by_contra untaken
    exact known (tzset_untaken untaken v).1
  obtain ⟨name, sign, body, secs, text, word, content, other⟩ := taken
  have reached := tzset_taken word content other v
  rw [← text] at reached
  have run : Run (inside beyond) name (sign.char :: body) := ⟨word.within, by rintro _ ⟨⟩; exact stop_sign sign⟩
  obtain ⟨readable, rest⟩ := Name.token run (z.offset.ends _) text (reached.st.symm.trans named.symm) word.short
  obtain ⟨signed, -, short, same, ends⟩ := body_offset (Summer.after z.dst) rest content
  refine ⟨readable, ⟨?_, short, same ▸ other⟩, ends.imp (fun empty => ?_) id⟩
  · rw [signed]
    exact Option.some_ne_none sign
  · cases summer : z.dst with
    | none => rfl
    | some d =>
      obtain ⟨c, t, starts, -⟩ := d.name.text_head
      rw [summer, Option.elim_some, Summer.text, starts] at empty
      cases empty

variable (beyond) in
theorem Name.word {name : Name least} (readable : name.Readable) : Word beyond name.name ∧ name.text = name.name := by
  cases name with
  | letters name nonempty long alpha =>
    obtain ⟨c, t, starts⟩ := List.exists_cons_of_ne_nil nonempty
    have letter : c.isAlpha = true := alpha c (starts ▸ List.mem_cons_self)
    exact ⟨⟨⟨c, t, starts, (alpha_first beyond letter).1⟩,
      fun c member => (alpha_first beyond (alpha c member)).2, readable⟩, rfl⟩
  | quoted => exact readable.elim

variable (beyond) in
theorem zone_reached {z : Zone least} (std : z.std.Readable) (standard : z.offset.Readable)
    (ends : z.dst = none ∨ z.offset.clock.Whole) (v : Tz) :
    ∃ sign : Sign, Reached beyond z.std.name z.offset.seconds
      (offset beyond (sign.lexer (z.offset.clock.text ++ z.dst.elim [] Summer.text))).2
      (tzset beyond (some z.text) v) := by
  obtain ⟨word, plain⟩ := Name.word beyond std
  obtain ⟨signed, short, known⟩ := standard
  obtain ⟨sign, written⟩ := Option.ne_none_iff_exists'.mp signed
  have secs : z.offset.seconds = sign.east * z.offset.clock.seconds := by
    rw [Offset.seconds, written, Option.getD_some]
  have text : z.text = z.std.name ++ sign.char :: (z.offset.clock.text ++ z.dst.elim [] Summer.text) := by
    rw [Zone.text, plain, Offset.text, written, Option.elim_some, List.cons_append, List.nil_append, List.cons_append]
  have content : Body (z.offset.clock.text ++ z.dst.elim [] Summer.text) z.offset.clock.seconds := by
    apply clock_body short
    rcases ends with none | whole
    · rw [none]
      exact .inl rfl
    · exact .inr ⟨whole, (Summer.after z.dst).past⟩
  rw [secs] at known ⊢
  rw [text]
  exact ⟨sign, tzset_taken word content known v⟩

theorem summer_read {d : Summer least} {standard : Offset} {name : List Char} {v : Tz} {t : List Char}
    (reached : Reached beyond name standard.seconds (next beyond ⟨d.text, .NUM, t⟩).2 v)
    (readable : d.Readable standard) :
    v.ds = d.name.name ∧ v.tzdstoff = d.offset.elim (standard.seconds + 3600) Offset.seconds ∧ v.tzdstoff ≠ -1 := by
  obtain ⟨named, -, o, written, ⟨signed, short, known⟩, same, ruled⟩ := readable
  obtain ⟨word, plain⟩ := Name.word beyond named
  obtain ⟨sign, char⟩ := Option.ne_none_iff_exists'.mp signed
  have text : d.text = d.name.name ++ (o.text ++ d.rule.elim [] Rule.text) := by
    rw [Summer.text, plain, written, Option.elim_some]
  have after : next beyond ⟨d.text, .NUM, t⟩ = (some .STR, ⟨o.text ++ d.rule.elim [] Rule.text, .STR, d.name.name⟩) :=
    word.next (o.ends _) text
  rw [after] at reached
  have starts : o.text ++ d.rule.elim [] Rule.text = sign.char :: (o.clock.text ++ d.rule.elim [] Rule.text) := by
    rw [Offset.text, char, Option.elim_some, List.cons_append, List.nil_append, List.cons_append]
  have content : Body (o.clock.text ++ d.rule.elim [] Rule.text) o.clock.seconds := by
    apply clock_body short
    by_cases none : d.rule = .none
    · rw [none]
      exact .inl rfl
    · exact .inr ⟨ruled none, (Rule.after d.rule).past⟩
  have secs : o.seconds = sign.east * o.clock.seconds := by
    rw [Offset.seconds, char, Option.getD_some]
  have read : (offset beyond (next beyond ⟨o.text ++ d.rule.elim [] Rule.text, .STR, d.name.name⟩).2).1 = o.seconds := by
    rw [next_sign (l := ⟨_, .STR, _⟩) starts, secs]
    exact offset_body rfl content
  have off : v.tzdstoff = standard.seconds + 3600 := reached.read rfl (by rwa [read])
  refine ⟨reached.ds rfl, ?_, ?_⟩
  · rw [off, written, Option.elim_some, same]
  · rw [off, ← same]
    exact known

/-- Which zones are read. -/
theorem zone_agrees (beyond : Char → Bool) (z : Zone least) (v : Tz) :
    Agrees z (tzset beyond (some z.text) v) ↔ z.Readable := by
  constructor
  · intro agrees
    obtain ⟨std, standard, ends⟩ := zone_taken agrees.st.symm agrees.known
    refine ⟨std, standard, fun d summer => ?_⟩
    have whole : z.offset.clock.Whole := ends.resolve_left (by rw [summer]; exact Option.some_ne_none d)
    obtain ⟨sign, reached⟩ := zone_reached beyond std standard ends v
    obtain ⟨t, after⟩ := offset_whole beyond standard.2.1 whole sign
    rw [after _ (Summer.after z.dst).past, summer] at reached
    obtain ⟨ds, off, known⟩ := agrees.dst d summer
    exact summer_agrees reached whole ds off known
  · rintro ⟨std, standard, readable⟩
    have ends : z.dst = none ∨ z.offset.clock.Whole := by
      cases summer : z.dst with
      | none => exact .inl rfl
      | some d => exact .inr (readable d summer).2.1
    obtain ⟨sign, reached⟩ := zone_reached beyond std standard ends v
    refine ⟨reached.st, reached.tzstdoff, reached.tzstdoff ▸ standard.2.2, fun d summer => ?_, fun none => ?_⟩
    · obtain ⟨t, after⟩ := offset_whole beyond standard.2.1 (readable d summer).2.1 sign
      rw [after _ (Summer.after z.dst).past, summer] at reached
      exact summer_read reached (readable d summer)
    · apply reached.other
      rw [none, Option.elim_none, List.append_nil, offset_last standard.2.1 sign]
      nofun

/-- Digits and letters are decided one by one. -/
def numberOf (max : Nat) (digits : List Char) (nonempty : digits ≠ []) (decimal : digits.all Char.isDigit = true)
    (le : value digits ≤ max) : Number max := ⟨digits, nonempty, List.all_eq_true.mp decimal, le⟩

def lettersOf (least : Nat) (name : List Char) (nonempty : name ≠ []) (long : least ≤ name.length)
    (alpha : name.all Char.isAlpha = true) : Name least := .letters name nonempty long (List.all_eq_true.mp alpha)

/-- One hour ahead is the default. -/
def eastern : Zone 3 where
  std := lettersOf 3 "EST".toList (by decide) (by decide) rfl
  offset := ⟨some .plus, .hms (numberOf 24 ['5'] (by decide) rfl (by decide))
    (numberOf 59 ['0', '0'] (by decide) rfl (by decide)) (numberOf 59 ['0', '0'] (by decide) rfl (by decide))⟩
  dst := some ⟨lettersOf 3 "EDT".toList (by decide) (by decide) rfl, none, none⟩

end Scc.Libc.Tzone
