import Scc.Cc1.Comments

set_option linter.all false

/-! What C reads in a file before its tokens (5.1.1.2, translation phases 2 and 3), and when the lines of cc1
are the same. -/
namespace Scc.Cc1.Comments

/-- The lines are joined. -/
def splice : List Char → List Char
  | '\\' :: '\n' :: rest => splice rest
  | c :: rest => c :: splice rest
  | [] => []

/-- The parts of a joined text; the mode is the delimiter of the literal that the text begins in. A comment
ends at the first `*/` or before the first newline, and a literal at the end of its line, if not before. -/
inductive Decomposes : Option Char → List Char → List Piece → Prop
  | done (mode : Option Char) : Decomposes mode [] []
  | newline {mode : Option Char} {rest : List Char} {ps : List Piece} (later : Decomposes none rest ps) :
      Decomposes mode ('\n' :: rest) (.newline :: ps)
  | block {body rest : List Char} {ps : List Piece} (first : ¬ ['*', '/'] <:+: body ++ ['*'])
      (later : Decomposes none rest ps) : Decomposes none ('/' :: '*' :: (body ++ '*' :: '/' :: rest)) (.block body :: ps)
  | line {body rest : List Char} {ps : List Piece} (first : '\n' ∉ body) (later : Decomposes none ('\n' :: rest) ps) :
      Decomposes none ('/' :: '/' :: (body ++ '\n' :: rest)) (.line body :: ps)
  | escape {q c : Char} {rest : List Char} {ps : List Piece} (inside : c ≠ '\n') (later : Decomposes (some q) rest ps) :
      Decomposes (some q) ('\\' :: c :: rest) (.char '\\' :: .char c :: ps)
  | quote {q : Char} {rest : List Char} {ps : List Piece} (opens : q = '"' ∨ q = '\'') (later : Decomposes (some q) rest ps) :
      Decomposes none (q :: rest) (.char q :: ps)
  | unquote {q : Char} {rest : List Char} {ps : List Piece} (later : Decomposes none rest ps) :
      Decomposes (some q) (q :: rest) (.char q :: ps)
  | literal {q c : Char} {rest : List Char} {ps : List Piece} (inside : c ≠ q ∧ c ≠ '\n')
      (alone : c = '\\' → rest = [] ∨ ∃ t, rest = '\n' :: t) (later : Decomposes (some q) rest ps) :
      Decomposes (some q) (c :: rest) (.char c :: ps)
  | other {c : Char} {rest : List Char} {ps : List Piece} (plain : c ≠ '\n' ∧ c ≠ '"' ∧ c ≠ '\'')
      (slash : c = '/' → ∀ t, rest ≠ '*' :: t ∧ rest ≠ '/' :: t) (later : Decomposes none rest ps) :
      Decomposes none (c :: rest) (.char c :: ps)

/-- The asterisks at the end of a text. -/
def stars : List Char → Nat
  | [] => 0
  | c :: t => if c = '*' ∧ stars t = t.length then stars t + 1 else stars t

/-- With literals delimited as cc1 does it, which looks at no character after a backslash: comments begin
outside literals, and nothing that is kept looks like a comment. In a comment, `*` is followed by a character
that is not looked at, and so is not an asterisk before `*/`. -/
def Agrees (delim : Option Char) : List Piece → Prop
  | [] => True
  | .newline :: ps => Agrees none ps
  | .block body :: ps => delim = none ∧ stars body % 2 = 0 ∧ Agrees none ps
  | .line _ :: ps => delim = none ∧ Agrees none ps
  | .char c :: ps =>
    if c = '\\' then
      match ps with
      | .char _ :: ps => Agrees delim ps
      | .newline :: ps => Agrees none ps
      | [] => True
      | _ => False
    else
      (c = '/' → delimiter delim c = none → ∀ d rest, ps = .char d :: rest → d ≠ '*' ∧ d ≠ '/' ∧ d ≠ '\x00') ∧
        Agrees (delimiter delim c) ps

theorem agrees_char {delim : Option Char} {c : Char} (plain : c ≠ '\\') (ps : List Piece) :
    Agrees delim (.char c :: ps) ↔
      (c = '/' → delimiter delim c = none → ∀ d rest, ps = .char d :: rest → d ≠ '*' ∧ d ≠ '/' ∧ d ≠ '\x00') ∧
        Agrees (delimiter delim c) ps := by
  rw [Agrees.eq_def]
  simp only [plain, if_false]

theorem agrees_backslash {delim : Option Char} {d : Char} (ps : List Piece) :
    Agrees delim (.char '\\' :: .char d :: ps) ↔ Agrees delim ps := by
  rw [Agrees.eq_def]
  rfl

/-- The lines fit, where the first one has so many bytes already. -/
def Short : Nat → List Piece → Prop
  | n, [] => n < lim - 1
  | n, .newline :: ps => n < lim - 1 ∧ Short 0 ps
  | n, .line _ :: ps => Short n ps
  | n, .char _ :: ps | n, .block _ :: ps => Short (n + 1) ps

theorem Short.lt {n : Nat} {ps : List Piece} (short : Short n ps) : n < lim - 1 := by
  induction ps generalizing n with
  | nil => exact short
  | cons p ps ih =>
    cases p with
    | newline => exact short.1
    | line body => exact ih short
    | char c =>
      have := ih (n := n + 1) short
      omega
    | block body =>
      have := ih (n := n + 1) short
      omega

/-! What cc1 reads in a joined text. -/

/-- The body of a comment and what follows it, as `comment('*')` finds them. -/
def closing : List Char → Option (List Char × List Char)
  | [] => none
  | c :: t =>
    if c = '*' then
      match t with
      | [] => none
      | d :: u => if d = '/' then some ([], u) else (closing u).map fun found => (c :: d :: found.1, found.2)
    else (closing t).map fun found => (c :: found.1, found.2)

/-- The body of a comment and what follows its newline. -/
def ending : List Char → Option (List Char × List Char)
  | [] => none
  | c :: t => if c = '\n' then some ([], t) else (ending t).map fun found => (c :: found.1, found.2)

theorem closing_other {c : Char} (other : c ≠ '*') (t : List Char) :
    closing (c :: t) = (closing t).map fun found => (c :: found.1, found.2) := by
  cases t <;> simp [closing, other]

theorem closing_length {t body rest : List Char} (found : closing t = some (body, rest)) : rest.length < t.length := by
  fun_induction closing t generalizing body with
  | case1 => cases found
  | case2 => cases found
  | case3 u =>
    cases found
    exact Nat.lt_succ_of_lt (Nat.lt_succ_self _)
  | case4 d u other ih =>
    obtain ⟨⟨body', rest'⟩, later, same⟩ := Option.map_eq_some_iff.mp found
    cases same
    exact Nat.lt_succ_of_lt (Nat.lt_succ_of_lt (ih later))
  | case5 c t other ih =>
    obtain ⟨⟨body', rest'⟩, later, same⟩ := Option.map_eq_some_iff.mp found
    cases same
    exact Nat.lt_succ_of_lt (ih later)

theorem ending_length {t body rest : List Char} (found : ending t = some (body, rest)) : rest.length < t.length := by
  fun_induction ending t generalizing body with
  | case1 => cases found
  | case2 t =>
    cases found
    exact Nat.lt_succ_self _
  | case3 c t other ih =>
    obtain ⟨⟨body', rest'⟩, later, same⟩ := Option.map_eq_some_iff.mp found
    cases same
    exact Nat.lt_succ_of_lt (ih later)

theorem stars_le (t : List Char) : stars t ≤ t.length := by
  induction t with
  | nil => exact Nat.le_refl 0
  | cons c t ih =>
    simp only [stars, List.length_cons]
    split <;> omega

/-- An asterisk and the character after it do not change whether the number is even. -/
theorem stars_pair (d : Char) (t : List Char) : stars ('*' :: d :: t) % 2 = stars t % 2 := by
  have := stars_le t
  simp only [stars, List.length_cons, true_and]
  by_cases all : d = '*' ∧ stars t = t.length
  · rw [if_pos all, if_pos (by omega)]
    omega
  · rw [if_neg all, if_neg (by omega)]

theorem stars_other {c : Char} (other : c ≠ '*') (t : List Char) : stars (c :: t) = stars t :=
  if_neg fun both => other both.1

/-- `comment('*')` stops at the first `*/` or goes past it, as the asterisks before it are even or odd in
number. -/
theorem closing_first (body rest : List Char) (first : ¬ ['*', '/'] <:+: body ++ ['*']) :
    closing (body ++ '*' :: '/' :: rest) = some (body, rest) ↔ stars body % 2 = 0 := by
  have tail : ∀ (c : Char) (t : List Char), ¬ ['*', '/'] <:+: c :: t ++ ['*'] → ¬ ['*', '/'] <:+: t ++ ['*'] :=
    fun c t first inside => first (inside.trans (List.suffix_cons c _).isInfix)
  induction body using closing.induct with
  | case1 => exact iff_of_true rfl rfl
  | case2 =>
    refine iff_of_false ?_ (by decide)
    intro found
    obtain ⟨later, -, same⟩ := Option.map_eq_some_iff.mp found
    cases same
  | case3 u => exact absurd ⟨[], u ++ ['*'], rfl⟩ first
  | case4 d u other ih =>
    have step : closing ('*' :: d :: u ++ '*' :: '/' :: rest) =
        (closing (u ++ '*' :: '/' :: rest)).map fun found => ('*' :: d :: found.1, found.2) := by
      simp [closing, other]
    rw [step, stars_pair, Option.map_eq_some_iff]
    refine Iff.trans ?_ (ih (tail d u (tail '*' (d :: u) first)))
    constructor
    · rintro ⟨found, later, same⟩
      cases same
      exact later
    · exact fun later => ⟨_, later, rfl⟩
  | case5 c t other ih =>
    rw [List.cons_append, closing_other other, stars_other other, Option.map_eq_some_iff]
    refine Iff.trans ?_ (ih (tail c t first))
    constructor
    · rintro ⟨found, later, same⟩
      cases same
      exact later
    · exact fun later => ⟨_, later, rfl⟩

theorem ending_first {body rest : List Char} (first : '\n' ∉ body) : ending (body ++ '\n' :: rest) = some (body, rest) := by
  induction body with
  | nil => rfl
  | cons c t ih =>
    have other : c ≠ '\n' := fun same => first (same ▸ List.mem_cons_self)
    have later := ih fun inside => first (List.mem_cons_of_mem c inside)
    simp [ending, other, later]

/-- The pieces of a whole text, as the lines of cc1 have them; `room` is how many turns of the loop of
`readline` there can be, and `last` says that the file ends with a backslash. There are none where cc1 reports an
error. -/
def reads (last : Bool) (room : Nat) (delim : Option Char) (text : List Char) : Option (List Piece) :=
  if room = 0 then none
  else
    match text with
    | [] => some []
    | c :: t =>
      if c = '\n' then (reads last (lim - 1) none t).map (.newline :: ·)
      else if c = '\\' then
        match t with
        | [] => (reads last (room - 1) delim []).map (.char '\\' :: ·)
        | d :: u =>
          if d = '\n' then (reads last (room - 1) delim (d :: u)).map (.char '\\' :: ·)
          -- The line ends without an error, and both characters are lost.
          else if room = 1 then
            if d = '\\' ∧ u = [] ∧ last then some [] else (reads last (lim - 1) none u).map (.newline :: ·)
          else (reads last (room - 2) delim u).map fun ps => .char '\\' :: .char d :: ps
      else if c ≠ '/' ∨ (delimiter delim c).isSome then (reads last (room - 1) (delimiter delim c) t).map (.char c :: ·)
      else
        match t with
        | [] => (reads last (room - 1) none []).map (.char '/' :: ·)
        | d :: u =>
          if d = '/' then
            match h : ending u with
            | none => none
            | some (body, v) => (reads last (lim - 1) none v).map fun ps => .line body :: .newline :: ps
          else if d = '*' then
            match h : closing u with
            | none => none
            | some (body, v) => (reads last (room - 1) none v).map (.block body :: ·)
          else if d = '\x00' then (reads last (room - 1) none u).map (.char '/' :: ·)
          else (reads last (room - 1) none (d :: u)).map (.char '/' :: ·)
termination_by text.length
decreasing_by
  all_goals simp only [List.length_cons]
  all_goals first
    | omega
    | exact Nat.lt_succ_of_lt (Nat.lt_succ_of_lt (ending_length h))
    | exact Nat.lt_succ_of_lt (Nat.lt_succ_of_lt (closing_length h))

section
attribute [local simp] reads.eq_def delimiter
end

section reads
variable {last : Bool} {room : Nat} {delim : Option Char} {c d : Char} {t u : List Char}

theorem reads_full (text : List Char) : reads last 0 delim text = none := by
  rw [reads.eq_def]
  rfl

theorem reads_nil (left : room ≠ 0) : reads last room delim [] = some [] := by
  rw [reads.eq_def, if_neg left]

theorem reads_newline (left : room ≠ 0) :
    reads last room delim ('\n' :: t) = (reads last (lim - 1) none t).map (.newline :: ·) := by
  rw [reads.eq_def, if_neg left]
  rfl

theorem reads_backslash_nil (left : room ≠ 0) :
    reads last room delim ['\\'] = (reads last (room - 1) delim []).map (.char '\\' :: ·) := by
  rw [reads.eq_def, if_neg left]
  rfl

theorem reads_backslash_newline (left : room ≠ 0) :
    reads last room delim ('\\' :: '\n' :: u) = (reads last (room - 1) delim ('\n' :: u)).map (.char '\\' :: ·) := by
  rw [reads.eq_def, if_neg left]
  rfl

theorem reads_backslash (left : room ≠ 0) (other : d ≠ '\n') :
    reads last room delim ('\\' :: d :: u) =
      if room = 1 then if d = '\\' ∧ u = [] ∧ last then some [] else (reads last (lim - 1) none u).map (.newline :: ·)
      else (reads last (room - 2) delim u).map fun ps => .char '\\' :: .char d :: ps := by
  rw [reads.eq_def, if_neg left]
  simp only [other, if_false]
  rfl

theorem reads_char (left : room ≠ 0) (plain : c ≠ '\n' ∧ c ≠ '\\') (kept : c ≠ '/' ∨ (delimiter delim c).isSome) :
    reads last room delim (c :: t) = (reads last (room - 1) (delimiter delim c) t).map (.char c :: ·) := by
  rw [reads.eq_def, if_neg left]
  simp only [plain.1, plain.2, kept, if_false, if_true]

theorem reads_slash_nil (left : room ≠ 0) :
    reads last room none ['/'] = (reads last (room - 1) none []).map (.char '/' :: ·) := by
  rw [reads.eq_def, if_neg left]
  rfl

theorem reads_slash (left : room ≠ 0) (other : d ≠ '/' ∧ d ≠ '*') :
    reads last room none ('/' :: d :: u) =
      if d = '\x00' then (reads last (room - 1) none u).map (.char '/' :: ·)
      else (reads last (room - 1) none (d :: u)).map (.char '/' :: ·) := by
  rw [reads.eq_def, if_neg left]
  simp [other.1, other.2, delimiter]

theorem reads_line (left : room ≠ 0) :
    reads last room none ('/' :: '/' :: u) =
      (ending u).bind fun found => (reads last (lim - 1) none found.2).map fun ps => .line found.1 :: .newline :: ps := by
  have outside : delimiter none '/' = none := rfl
  rw [reads.eq_def, if_neg left]
  simp only [outside, Char.reduceEq, if_false, if_true, ne_eq, not_true, false_or, Option.isSome_none, Bool.false_eq_true]
  split
  · rename_i none
    simp [none]
  · rename_i body v found
    simp [found]

theorem reads_block (left : room ≠ 0) :
    reads last room none ('/' :: '*' :: u) =
      (closing u).bind fun found => (reads last (room - 1) none found.2).map (.block found.1 :: ·) := by
  have outside : delimiter none '/' = none := rfl
  rw [reads.eq_def, if_neg left]
  simp only [outside, Char.reduceEq, if_false, if_true, ne_eq, not_true, false_or, Option.isSome_none, Bool.false_eq_true]
  split
  · rename_i none
    simp [none]
  · rename_i body v found
    simp [found]

end reads

/-! Nothing that is lost comes back. -/

/-- What the pieces were read from, in characters. -/
def size : List Piece → Nat
  | [] => 0
  | .char _ :: ps | .newline :: ps => size ps + 1
  | .block body :: ps => size ps + body.length + 4
  | .line body :: ps => size ps + body.length + 2

section
attribute [local simp] closing ending size
end

theorem closing_eq {t body rest : List Char} (found : closing t = some (body, rest)) : t = body ++ '*' :: '/' :: rest := by
  fun_induction closing t generalizing body with
  | case1 => cases found
  | case2 => cases found
  | case3 u =>
    cases found
    rfl
  | case4 d u other ih =>
    obtain ⟨⟨body', rest'⟩, later, same⟩ := Option.map_eq_some_iff.mp found
    cases same
    rw [ih later]
    rfl
  | case5 c t other ih =>
    obtain ⟨⟨body', rest'⟩, later, same⟩ := Option.map_eq_some_iff.mp found
    cases same
    rw [ih later]
    rfl

theorem ending_eq {t body rest : List Char} (found : ending t = some (body, rest)) : t = body ++ '\n' :: rest := by
  fun_induction ending t generalizing body with
  | case1 => cases found
  | case2 t =>
    cases found
    rfl
  | case3 c t other ih =>
    obtain ⟨⟨body', rest'⟩, later, same⟩ := Option.map_eq_some_iff.mp found
    cases same
    rw [ih later]
    rfl

theorem decomposes_size {mode : Option Char} {text : List Char} {ps : List Piece} (decomposed : Decomposes mode text ps) :
    size ps = text.length := by
  induction decomposed with
  | done => rfl
  | block first later ih =>
    simp only [size, List.length_cons, List.length_append, ih]
    omega
  | line first later ih =>
    simp only [size, List.length_cons, List.length_append, ih]
    omega
  | _ => simp_all [size]

theorem reads_size {last : Bool} {room : Nat} {delim : Option Char} {text : List Char} {ps : List Piece}
    (read : reads last room delim text = some ps) : size ps ≤ text.length := by
  fun_induction reads last room delim text generalizing ps
  case case1 => cases read
  case case11 => cases read
  case case13 => cases read
  case case2 =>
    cases read
    exact Nat.le_refl _
  case case6 =>
    cases read
    exact Nat.zero_le _
  case case12 found ih =>
    obtain ⟨later, sub, same⟩ := Option.map_eq_some_iff.mp read
    cases same
    have := ih sub
    have whole := congrArg List.length (ending_eq found)
    simp only [size, List.length_cons, List.length_append] at whole ⊢
    omega
  case case14 found _ ih =>
    obtain ⟨later, sub, same⟩ := Option.map_eq_some_iff.mp read
    cases same
    have := ih sub
    have whole := congrArg List.length (closing_eq found)
    simp only [size, List.length_cons, List.length_append] at whole ⊢
    omega
  all_goals
    rename_i ih
    obtain ⟨later, sub, same⟩ := Option.map_eq_some_iff.mp read
    cases same
    have := ih sub
    simp only [size, List.length_cons] at this ⊢
    omega

/-! The step of each kind of piece. -/

def Quoted (mode : Option Char) : Prop := ∀ q, mode = some q → q = '"' ∨ q = '\''

/-- cc1 reads the pieces of the text if they agree with its delimiters and its lines are short. -/
def Matches (last : Bool) (text : List Char) : Prop :=
  ∀ ⦃mode delim : Option Char⦄ ⦃ps : List Piece⦄ (n : Nat), Quoted mode → Quoted delim → Decomposes mode text ps →
    (reads last (lim - 1 - n) delim text = some ps ↔ Agrees delim ps ∧ Short n ps)

theorem Quoted.none : Quoted none := nofun

theorem Quoted.delimiter {delim : Option Char} (quoted : Quoted delim) (c : Char) : Quoted (delimiter delim c) := by
  unfold Comments.delimiter
  split
  · exact .none
  · split
    · rename_i opens
      intro q same
      cases same
      exact opens.2
    · exact quoted

theorem delimiter_plain {delim : Option Char} {c : Char} (quoted : Quoted delim) (plain : c ≠ '"' ∧ c ≠ '\'') :
    delimiter delim c = delim := by
  have apart : delim ≠ some c := by
    intro same
    rcases quoted c same with rfl | rfl
    · exact plain.1 rfl
    · exact plain.2 rfl
  rw [delimiter, if_neg apart, if_neg (by simp [plain])]

theorem map_cons_iff {o : Option (List Piece)} {p q : Piece} {ps : List Piece} :
    o.map (p :: ·) = some (q :: ps) ↔ p = q ∧ o = some ps := by
  rw [Option.map_eq_some_iff]
  constructor
  · rintro ⟨found, rfl, same⟩
    cases same
    exact ⟨rfl, rfl⟩
  · rintro ⟨rfl, rfl⟩
    exact ⟨ps, rfl, rfl⟩

section step
variable {last : Bool} {n : Nat} {delim : Option Char} {ps : List Piece} {c d : Char} {t u body rest : List Char}

/-- Without room there are no pieces, and the line is not short. -/
theorem full_iff (text : List Char) (full : ¬ n < lim - 1) :
    reads last (lim - 1 - n) delim text = some ps ↔ Agrees delim ps ∧ Short n ps := by
  have none : lim - 1 - n = 0 := by omega
  rw [none, reads_full]
  exact iff_of_false nofun fun both => full both.2.lt

theorem newline_step (left : n < lim - 1) (later : Decomposes none t ps) (ih : Matches last t) :
    reads last (lim - 1 - n) delim ('\n' :: t) = some (.newline :: ps) ↔ Agrees delim (.newline :: ps) ∧ Short n (.newline :: ps) := by
  rw [reads_newline (by omega), map_cons_iff]
  have line := ih 0 .none .none later
  simp only [Nat.sub_zero] at line
  simp only [line, Agrees, Short, left, true_and]

/-- A character that the loop stores by itself. -/
theorem char_step {mode : Option Char} (left : n < lim - 1) (plain : c ≠ '\n' ∧ c ≠ '\\')
    (kept : c ≠ '/' ∨ (delimiter delim c).isSome) (quoted : Quoted mode) (valid : Quoted delim) (later : Decomposes mode t ps)
    (ih : Matches last t) :
    reads last (lim - 1 - n) delim (c :: t) = some (.char c :: ps) ↔ Agrees delim (.char c :: ps) ∧ Short n (.char c :: ps) := by
  have harmless : c = '/' → delimiter delim c = none → ∀ d rest, ps = .char d :: rest → d ≠ '*' ∧ d ≠ '/' ∧ d ≠ '\x00' := by
    intro slash outside
    rcases kept with other | inside
    · exact absurd slash other
    · rw [outside] at inside
      cases inside
  have line := ih (n + 1) quoted (valid.delimiter c) later
  have room : lim - 1 - n - 1 = lim - 1 - (n + 1) := by omega
  rw [reads_char (by omega) plain kept, map_cons_iff, room, line]
  rw [agrees_char plain.2, and_iff_right harmless]
  exact and_iff_right rfl

theorem backslash_end_step {mode : Option Char} (left : n < lim - 1) (ends : t = [] ∨ ∃ u, t = '\n' :: u) (quoted : Quoted mode)
    (valid : Quoted delim) (later : Decomposes mode t ps) (ih : Matches last t) :
    reads last (lim - 1 - n) delim ('\\' :: t) = some (.char '\\' :: ps) ↔
      Agrees delim (.char '\\' :: ps) ∧ Short n (.char '\\' :: ps) := by
  have line := ih (n + 1) quoted valid later
  have room : lim - 1 - n - 1 = lim - 1 - (n + 1) := by omega
  have same : Agrees delim (.char '\\' :: ps) ↔ Agrees delim ps := by
    rcases ends with rfl | ⟨u, rfl⟩
    · cases later
      rfl
    · cases later with
      | newline => rfl
      | literal inside => exact absurd rfl inside.2
      | other plain => exact absurd rfl plain.1
      | quote opens => exact absurd opens (by decide)
      | unquote => exact absurd (quoted _ rfl) (by decide)
  have step : reads last (lim - 1 - n) delim ('\\' :: t) = (reads last (lim - 1 - (n + 1)) delim t).map (.char '\\' :: ·) := by
    rcases ends with rfl | ⟨u, rfl⟩
    · rw [reads_backslash_nil (by omega), room]
    · rw [reads_backslash_newline (by omega), room]
  rw [step, map_cons_iff, line, same]
  exact and_iff_right rfl

/-- cc1 takes the character after a backslash without looking at it. -/
theorem pair_step {mode : Option Char} (left : n < lim - 1) (other : d ≠ '\n') (quoted : Quoted mode) (valid : Quoted delim)
    (later : Decomposes mode u ps) (ih : Matches last u) :
    reads last (lim - 1 - n) delim ('\\' :: d :: u) = some (.char '\\' :: .char d :: ps) ↔
      Agrees delim (.char '\\' :: .char d :: ps) ∧ Short n (.char '\\' :: .char d :: ps) := by
  have line := ih (n + 2) quoted valid later
  rw [reads_backslash (by omega) other, agrees_backslash]
  by_cases last : lim - 1 - n = 1
  · rw [if_pos last]
    refine iff_of_false ?_ ?_
    · split
      · exact nofun
      · rw [map_cons_iff]
        exact fun both => nomatch both.1
    · rintro ⟨-, short⟩
      have := Short.lt (n := n + 2) short
      omega
  · rw [if_neg last, Option.map_eq_some_iff]
    have room : lim - 1 - n - 2 = lim - 1 - (n + 2) := by omega
    rw [room]
    refine Iff.trans ?_ line
    constructor
    · rintro ⟨found, read, same⟩
      cases same
      exact read
    · exact fun read => ⟨ps, read, rfl⟩

/-- A comment that begins after a backslash. -/
theorem hidden_step {p : Piece} (comment : ∀ e, p ≠ .char e) (ended : p ≠ .newline) (left : n < lim - 1) (other : d ≠ '\n') :
    reads last (lim - 1 - n) delim ('\\' :: d :: u) = some (.char '\\' :: p :: ps) ↔
      Agrees delim (.char '\\' :: p :: ps) ∧ Short n (.char '\\' :: p :: ps) := by
  refine iff_of_false ?_ ?_
  · rw [reads_backslash (by omega) other]
    split
    · split
      · exact nofun
      · rw [map_cons_iff]
        exact fun both => nomatch both.1
    · rw [Option.map_eq_some_iff]
      rintro ⟨found, -, same⟩
      exact comment d (List.cons.inj (List.cons.inj same).2).1.symm
  · rintro ⟨agrees, -⟩
    cases p with
    | char e => exact comment e rfl
    | newline => exact ended rfl
    | block body => exact agrees
    | line body => exact agrees

theorem head_char {mode : Option Char} {e : Char} (decomposed : Decomposes mode (d :: u) (.char e :: ps)) : e = d := by
  cases decomposed <;> rfl

/-- In a literal there are no comments. -/
theorem inside_char {q : Char} (decomposed : Decomposes (some q) (d :: u) ps) (other : d ≠ '\n') :
    ∃ later, ps = .char d :: later := by
  cases decomposed with
  | newline => exact absurd rfl other
  | escape inside later => exact ⟨_, rfl⟩
  | unquote later => exact ⟨_, rfl⟩
  | literal inside alone later => exact ⟨_, rfl⟩

/-- A slash that is kept, where cc1 looks for a comment. -/
theorem slash_step {mode : Option Char} (left : n < lim - 1) (quoted : Quoted mode) (later : Decomposes mode t ps)
    (open_ : mode = none → ∀ u, t ≠ '*' :: u ∧ t ≠ '/' :: u) (ih : Matches last t) :
    reads last (lim - 1 - n) none ('/' :: t) = some (.char '/' :: ps) ↔ Agrees none (.char '/' :: ps) ∧ Short n (.char '/' :: ps) := by
  have line := ih (n + 1) quoted .none later
  have room : lim - 1 - n - 1 = lim - 1 - (n + 1) := by omega
  have nonzero : lim - 1 - n ≠ 0 := by omega
  have outside : delimiter none '/' = none := rfl
  rw [agrees_char (by decide), outside]
  cases t with
  | nil =>
    have apart : ∀ d rest, ps = .char d :: rest → d ≠ '*' ∧ d ≠ '/' ∧ d ≠ '\x00' := by
      cases later
      exact nofun
    rw [reads_slash_nil nonzero, map_cons_iff, room, line, and_iff_right rfl, and_iff_right fun _ _ => apart]
    rfl
  | cons d u =>
    -- Where the next character makes a comment, or is lost, it is a piece by itself.
    have alone : d = '*' ∨ d = '/' ∨ d = '\x00' → ∃ later, ps = .char d :: later := by
      intro special
      have other : d ≠ '\n' := by
        rintro rfl
        exact absurd special (by decide)
      cases mode with
      | some q => exact inside_char later other
      | none =>
        have := open_ rfl u
        cases later with
        | newline => exact absurd rfl other
        | block first later => exact absurd rfl this.2
        | line first later => exact absurd rfl this.2
        | quote opens later => exact ⟨_, rfl⟩
        | other plain slash later => exact ⟨_, rfl⟩
    have fails : d = '*' ∨ d = '/' ∨ d = '\x00' →
        ¬ (('/' = '/' → (none : Option Char) = none → ∀ e rest, ps = .char e :: rest → e ≠ '*' ∧ e ≠ '/' ∧ e ≠ '\x00') ∧
          Agrees none ps) := by
      rintro special ⟨apart, -⟩
      obtain ⟨rest, same⟩ := alone special
      have := apart rfl rfl d rest same
      rcases special with rfl | rfl | rfl
      · exact this.1 rfl
      · exact this.2.1 rfl
      · exact this.2.2 rfl
    by_cases star : d = '*'
    · subst star
      refine iff_of_false ?_ fun both => fails (.inl rfl) both.1
      rw [reads_block nonzero, Option.bind_eq_some_iff]
      rintro ⟨found, -, read⟩
      exact nomatch (map_cons_iff.mp read).1
    by_cases slash : d = '/'
    · subst slash
      refine iff_of_false ?_ fun both => fails (.inr (.inl rfl)) both.1
      rw [reads_line nonzero, Option.bind_eq_some_iff]
      rintro ⟨found, -, read⟩
      obtain ⟨more, -, same⟩ := Option.map_eq_some_iff.mp read
      cases same
    rw [reads_slash nonzero ⟨slash, star⟩]
    by_cases null : d = '\x00'
    · rw [if_pos null, map_cons_iff]
      refine iff_of_false ?_ fun both => fails (.inr (.inr null)) both.1
      rintro ⟨-, read⟩
      have lost := reads_size read
      have whole := decomposes_size later
      simp only [List.length_cons] at whole
      omega
    · have apart : ∀ e rest, ps = .char e :: rest → e ≠ '*' ∧ e ≠ '/' ∧ e ≠ '\x00' := by
        rintro e rest rfl
        rw [head_char later]
        exact ⟨star, slash, null⟩
      rw [if_neg null, map_cons_iff, room, line, and_iff_right rfl, and_iff_right fun _ _ => apart]
      rfl

/-- A comment that begins where cc1 is in a literal. -/
theorem quoted_step {p : Piece} (comment : ∀ e, p ≠ .char e) (left : n < lim - 1) (valid : Quoted delim)
    (inside : delim ≠ none) : ¬ reads last (lim - 1 - n) delim ('/' :: t) = some (p :: ps) := by
  have same := delimiter_plain (c := '/') valid (by decide)
  have kept : (delimiter delim '/').isSome := by
    rw [same]
    exact Option.isSome_iff_ne_none.mpr inside
  rw [reads_char (by omega) (by decide) (.inr kept), map_cons_iff]
  exact fun both => comment '/' both.1.symm

theorem block_step (left : n < lim - 1) (first : ¬ ['*', '/'] <:+: body ++ ['*']) (valid : Quoted delim)
    (later : Decomposes none rest ps) (ih : Matches last rest) :
    reads last (lim - 1 - n) delim ('/' :: '*' :: (body ++ '*' :: '/' :: rest)) = some (.block body :: ps) ↔
      Agrees delim (.block body :: ps) ∧ Short n (.block body :: ps) := by
  by_cases outside : delim = none
  · subst outside
    have line := ih (n + 1) .none .none later
    have room : lim - 1 - n - 1 = lim - 1 - (n + 1) := by omega
    have goal : Agrees none (.block body :: ps) ∧ Short n (.block body :: ps) ↔
        stars body % 2 = 0 ∧ Agrees none ps ∧ Short (n + 1) ps := by
      rw [Agrees, Short, and_iff_right rfl, and_assoc]
    rw [goal, ← closing_first body rest first, ← line, reads_block (by omega), room, Option.bind_eq_some_iff]
    constructor
    · rintro ⟨⟨body', rest'⟩, found, read⟩
      obtain ⟨equal, remains⟩ := map_cons_iff.mp read
      cases equal
      have same := List.append_cancel_left (closing_eq found)
      cases same
      exact ⟨found, remains⟩
    · rintro ⟨found, read⟩
      exact ⟨_, found, map_cons_iff.mpr ⟨rfl, read⟩⟩
  · exact iff_of_false (quoted_step nofun left valid outside) fun both => outside both.1.1

theorem line_step (left : n < lim - 1) (first : '\n' ∉ body) (valid : Quoted delim)
    (later : Decomposes none ('\n' :: rest) ps) (ih : Matches last ('\n' :: rest)) :
    reads last (lim - 1 - n) delim ('/' :: '/' :: (body ++ '\n' :: rest)) = some (.line body :: ps) ↔
      Agrees delim (.line body :: ps) ∧ Short n (.line body :: ps) := by
  by_cases outside : delim = none
  · subst outside
    have step : reads last (lim - 1 - n) none ('/' :: '/' :: (body ++ '\n' :: rest)) =
        (reads last (lim - 1 - n) none ('\n' :: rest)).map (.line body :: ·) := by
      rw [reads_line (by omega), ending_first first, reads_newline (by omega), Option.map_map]
      rfl
    have goal : Agrees none (.line body :: ps) ∧ Short n (.line body :: ps) ↔ Agrees none ps ∧ Short n ps := by
      rw [Agrees, Short, and_iff_right rfl]
    rw [step, goal, ← ih n .none .none later, map_cons_iff]
    exact and_iff_right rfl
  · exact iff_of_false (quoted_step nofun left valid outside) fun both => outside both.1.1

end step

theorem matches_text (last : Bool) (text : List Char) : Matches last text := by
  induction length : text.length using Nat.strongRecOn generalizing text with
  | _ size ih =>
    subst length
    have shorter : ∀ t : List Char, t.length < text.length → Matches last t := fun t less => ih t.length less t rfl
    intro mode delim ps n quoted valid decomposed
    by_cases left : n < lim - 1
    case neg => exact full_iff text left
    cases decomposed with
    | done =>
      rw [reads_nil (by omega)]
      exact iff_of_true rfl ⟨trivial, left⟩
    | newline later => exact newline_step left later (shorter _ (by simp))
    | block first later => exact block_step left first valid later (shorter _ (by simp only [List.length_cons, List.length_append]; omega))
    | line first later => exact line_step left first valid later (shorter _ (by simp only [List.length_cons, List.length_append]; omega))
    | @escape q c rest ps inside later => exact pair_step left inside quoted valid later (shorter _ (by simp only [List.length_cons]; omega))
    | quote opens later =>
      rcases opens with rfl | rfl
      · exact char_step left (by decide) (.inl (by decide)) (fun q same => by cases same; decide) valid later (shorter _ (by simp))
      · exact char_step left (by decide) (.inl (by decide)) (fun q same => by cases same; decide) valid later (shorter _ (by simp))
    | unquote later =>
      rcases quoted _ rfl with rfl | rfl
      · exact char_step left (by decide) (.inl (by decide)) .none valid later (shorter _ (by simp))
      · exact char_step left (by decide) (.inl (by decide)) .none valid later (shorter _ (by simp))
    | @literal q c rest ps inside alone later =>
      have next := shorter rest (by simp)
      by_cases backslash : c = '\\'
      · subst backslash
        exact backslash_end_step left (alone rfl) quoted valid later next
      · by_cases slash : c = '/'
        · subst slash
          by_cases outside : delim = none
          · subst outside
            exact slash_step left quoted later nofun next
          · have kept := delimiter_plain (c := '/') valid (by decide)
            exact char_step left (by decide) (.inr (by rw [kept]; exact Option.isSome_iff_ne_none.mpr outside)) quoted valid later next
        · exact char_step left ⟨inside.2, backslash⟩ (.inl slash) quoted valid later next
    | @other c rest ps plain slash later =>
      have next := shorter rest (by simp)
      by_cases backslash : c = '\\'
      · subst backslash
        have two : ∀ {d : Char} {u : List Char}, rest = d :: u → Matches last u := by
          rintro d u rfl
          exact shorter u (by simp only [List.length_cons]; omega)
        cases later with
        | done => exact backslash_end_step left (.inl rfl) .none valid (.done _) next
        | newline later => exact backslash_end_step left (.inr ⟨_, rfl⟩) .none valid (.newline later) next
        | block first later => exact hidden_step nofun nofun left (by decide)
        | line first later => exact hidden_step nofun nofun left (by decide)
        | @quote q t ps opens later =>
          have ended : q ≠ '\n' := by
            rintro rfl
            exact absurd opens (by decide)
          exact pair_step left ended (fun q' same => by cases same; exact opens) valid later (two rfl)
        | @other d t ps plain slash later => exact pair_step left plain.1 .none valid later (two rfl)
      · by_cases same : c = '/'
        · subst same
          by_cases outside : delim = none
          · subst outside
            exact slash_step left quoted later (fun _ => slash rfl) next
          · have kept := delimiter_plain (c := '/') valid (by decide)
            exact char_step left (by decide) (.inr (by rw [kept]; exact Option.isSome_iff_ne_none.mpr outside)) quoted valid later next
        · exact char_step left ⟨plain.1, backslash⟩ (.inl same) quoted valid later next

end Scc.Cc1.Comments
