import Scc.Cc1.CommentsProofs
import Scc.Memory.Buffer

set_option linter.all false

/-! The buffer that `readline` fills (`lex.c`), and when it reports a line that is too long. -/
namespace Scc.Cc1.LineBuffer
open Comments Memory

section
attribute [local simp] Loop.fetch Loop.turn Loop.run Piece.byte
end

/-- `struct input` of a file: `line` with the pointer `p`, which is at a character of it. -/
structure Input where
  line : Cursor Char
  file : File
  size : line.bytes.length = INPUTSIZ
  inside : line.pos < INPUTSIZ

def bytes (s : Loop) : List Char := s.line.filterMap Piece.byte

/-- A turn of the loop, with the bytes that it stores. -/
def turn (b : Cursor Char) (s : Loop) : Option (Bool × Cursor Char × Loop) :=
  (b.puts ((bytes s.turn.2).drop b.pos)).map fun b => (s.turn.1, b, s.turn.2)

def run : Nat → Cursor Char → Loop → Option (Cursor Char × Loop)
  | 0, b, s => some (b, s)
  | n + 1, b, s =>
    if b.pos < lim - 1 then
      match turn b s with
      | none => none
      | some (true, b, s) => run n b s
      | some (false, b, s) => some (b, s)
    else some (b, s)

/-- What `readline` returns and reports, and the buffer and the file after it. -/
structure Line where
  ret : Bool
  line : Cursor Char
  error : List String
  file : File

/-- What follows the loop. -/
def finish (b : Cursor Char) (s : Loop) : Option Line :=
  let full := b.pos = lim - 1
  (((if full then b.back 1 else b).put '\n').bind (·.store '\x00')).map fun ended =>
    ⟨true, ended.back ended.pos, if full then s.error ++ ["line too long"] else s.error, s.file⟩

/-- There is no result where something is stored outside the buffer. -/
def readline (input : Input) : Option Line :=
  if input.file.feof then (input.line.store '\x00').map fun b => ⟨false, b, [], input.file⟩
  else
    ((input.line.back input.line.pos).store '\x00').bind fun b =>
      (run INPUTSIZ b { file := input.file }).bind fun (b, s) => finish b s

/-! The logical line. -/

/-- What a turn does for a line that is already there. -/
def behind (line : List Piece) (result : Bool × Loop) : Bool × Loop :=
  (result.1, { result.2 with line := line ++ result.2.line })

/-- A turn of the loop that has room for everything. -/
def free (s : Loop) : Bool × Loop := behind s.line ({ s with line := [] } : Loop).turn

/-- The states of the loop before its turns, were there no limit. -/
def turns : Nat → Loop → List Loop
  | 0, s => [s]
  | n + 1, s =>
    match free s with
    | (true, t) => s :: turns n t
    | (false, _) => [s]

def passes (fp : File) : List Loop := turns (3 * fp.rest.length + 1) { file := fp }

/-- A line of the file with its comments removed. -/
def logical (fp : File) : List Char := ((passes fp).getLast?.map bytes).getD []

/-- The line ends with a newline and a NUL, and it is reported if it does not fit with them. -/
structure Right (input : Input) (l : Line) : Prop where
  terminated : l.ret = true → ∃ text rest, l.line.bytes = text ++ '\n' :: '\x00' :: rest
  reported : l.ret = true → ("line too long" ∈ l.error ↔ INPUTSIZ < (logical input.file).length + 2)

/-! What a turn does. -/

/-- After a character in `peekc` there can be the end of the file in it. -/
def weight : Option (Option Char) → Nat
  | none => 0
  | some none => 1
  | some (some _) => 2

theorem weight_le : ∀ peekc, weight peekc ≤ 2
  | none => Nat.zero_le 2
  | some none => by decide
  | some (some _) => Nat.le_refl 2

/-- What is still to be read. -/
def remains (s : Loop) : Nat := 3 * s.file.rest.length + weight s.peekc

/-- What a turn stores and reports. -/
inductive Stores (s : Loop) : Bool × Loop → Prop
  | ends {t : Loop} (same : t.line = s.line) (quiet : t.error = s.error) : Stores s (false, t)
  | comment {t : Loop} {body : List Char} (same : t.line = s.line ++ [.line body])
      (said : ∀ e ∈ t.error, e ∈ s.error ∨ e = "unterminated comment") : Stores s (false, t)
  | one {t : Loop} {p : Piece} {c : Char} (same : t.line = s.line ++ [p]) (byte : p.byte = some c)
      (said : ∀ e ∈ t.error, e ∈ s.error ∨ e = "unterminated comment") (less : remains t < remains s) : Stores s (true, t)
  | two {t : Loop} {d : Char} (same : t.line = s.line ++ [.char '\\', .char d]) (quiet : t.error = s.error)
      (room : s.bp ≠ lim - 2) (less : remains t < remains s) : Stores s (true, t)

theorem getchars_some {lineno : Nat} {feof : Bool} {rest : List Char} {c : Char} {fp : File}
    (read : getchars lineno feof rest = (some c, fp)) : fp.rest.length < rest.length := by
  fun_induction getchars lineno feof rest with
  | case1 => cases read
  | case2 lineno rest ih =>
    have := ih read
    simp only [List.length_cons]
    omega
  | case3 =>
    cases read
    exact Nat.zero_lt_one
  | case4 =>
    cases read
    exact Nat.lt_succ_self _
  | case5 =>
    cases read
    exact Nat.lt_succ_self _

theorem readchar_some {fp fp' : File} {c : Char} (read : readchar fp = (some c, fp')) : fp'.rest.length < fp.rest.length :=
  getchars_some read

theorem moves_le {fp fp' : File} (moves : Moves fp fp') : fp'.rest.length ≤ fp.rest.length := by
  obtain ⟨read, same, -⟩ := moves
  rw [same, List.length_append]
  exact Nat.le_add_left _ _

theorem readchar_none {fp fp' : File} (read : readchar fp = (none, fp')) : fp'.rest.length ≤ fp.rest.length := by
  have moves := readchar_moves fp
  rw [read] at moves
  exact moves_le moves

theorem comment_said (s : Loop) (type : Char) : ∀ e ∈ (s.comment type).2.error, e ∈ s.error ∨ e = "unterminated comment" := by
  intro e member
  simp only [Loop.comment] at member
  split at member
  · exact .inl member
  · simpa using member

theorem comment_rest (s : Loop) (type : Char) : (s.comment type).2.file.rest.length ≤ s.file.rest.length :=
  moves_le (comment_moves type (s.file.rest.length + 2) [] s.file)

/-- Before the rest of a turn the character that it is about has been read. -/
theorem fetch_remains {s t : Loop} {c : Char} (fetched : s.fetch = (some c, t)) :
    t.line = s.line ∧ t.error = s.error ∧ t.peekc = none ∧ 3 * t.file.rest.length + 1 < remains s := by
  unfold Loop.fetch at fetched
  split at fetched
  · rename_i peeked held
    cases fetched
    exact ⟨rfl, rfl, rfl, by simp [remains, held, weight]⟩
  · rename_i nothing
    obtain ⟨char, rfl⟩ := Prod.mk.inj fetched
    have shorter : (readchar s.file).2.rest.length < s.file.rest.length := readchar_some (Prod.ext char rfl)
    refine ⟨rfl, rfl, nothing, ?_⟩
    simp only [remains, nothing, weight]
    omega

/-- The rest of a turn, after its character has been read. -/
def Rest (s : Loop) (m : Nat) (result : Bool × Loop) : Prop :=
  ∀ s₀ : Loop, s.line = s₀.line → s.error = s₀.error → m ≤ remains s₀ → Stores s₀ result

theorem backslash_stores {s : Loop} (fresh : s.peekc = none) : Rest s (3 * s.file.rest.length + 2) s.backslash := by
  intro s₀ line error room
  unfold Loop.backslash
  split
  · rename_i fp read
    have shorter := readchar_none read
    refine .one (c := '\\') (by rw [← line]) rfl (by rw [← error]; exact fun e => .inl) ?_
    simp only [remains, weight] at room ⊢
    omega
  · rename_i d fp read
    have shorter := readchar_some read
    split
    · refine .one (c := '\\') (by rw [← line]) rfl (by rw [← error]; exact fun e => .inl) ?_
      simp only [remains, weight] at room ⊢
      omega
    · split
      · exact .ends line error
      · rename_i cut
        refine .two (by rw [← line]) error ?_ ?_
        · rwa [Loop.bp, ← line]
        · simp only [remains, fresh, weight] at room ⊢
          omega

theorem slash_stores {s : Loop} (fresh : s.peekc = none) : Rest s (3 * s.file.rest.length + 2) s.slash := by
  intro s₀ line error room
  unfold Loop.slash
  split
  · rename_i fp read
    have shorter := readchar_none read
    refine .one (c := '/') (by rw [← line]) rfl (by rw [← error]; exact fun e => .inl) ?_
    simp only [remains, weight] at room ⊢
    omega
  · rename_i d fp read
    have shorter := readchar_some read
    have said : ∀ type, ∀ e ∈ (Loop.comment { s with file := fp } type).2.error, e ∈ s₀.error ∨ e = "unterminated comment" := by
      rw [← error]
      exact comment_said { s with file := fp }
    simp only
    split
    · exact .comment (by rw [← line]) (said '\n')
    · split
      · refine .one (c := ' ') (by rw [← line]) rfl (said '*') ?_
        have shorter' := comment_rest { s with file := fp } '*'
        have held : (Loop.comment { s with file := fp } '*').2.peekc = none := fresh
        simp only [remains, held, weight] at room ⊢
        simp only at shorter'
        omega
      · refine .one (c := '/') (by rw [← line]) rfl (by rw [← error]; exact fun e => .inl) ?_
        have light := weight_le (if d = '\x00' then none else some (some d))
        simp only [remains] at room ⊢
        omega

theorem turn_stores (s : Loop) : Stores s s.turn := by
  unfold Loop.turn
  split
  · rename_i t fetched
    unfold Loop.fetch at fetched
    split at fetched
    · cases fetched
      exact .ends rfl rfl
    · obtain ⟨-, rfl⟩ := Prod.mk.inj fetched
      exact .ends rfl rfl
  · rename_i c t fetched
    obtain ⟨line, error, fresh, less⟩ := fetch_remains fetched
    split
    · exact .ends line error
    · split
      · exact backslash_stores fresh s line error less
      · simp only
        split
        · refine .one (c := c) (by rw [← line]) rfl (by rw [← error]; exact fun e => .inl) ?_
          simp only [remains, fresh, weight] at less ⊢
          omega
        · exact slash_stores (s := { t with delim := delimiter t.delim c }) fresh s line error less

/-! A turn that has room for everything is the same but for an escaped character at the end of the buffer. -/

variable {s t : Loop}

theorem bp_append {stored : List Piece} (same : t.line = s.line ++ stored) :
    bytes t = bytes s ++ stored.filterMap Piece.byte := by
  rw [bytes, same, List.filterMap_append]
  rfl

/-- The loop ends although there is room, for the two characters do not fit. -/
def Cut (s : Loop) (result all : Bool × Loop) : Prop :=
  s.bp = lim - 2 ∧ result.1 = false ∧ result.2.line = s.line ∧
    ∃ d, all.1 = true ∧ all.2.line = s.line ++ [.char '\\', .char d]

theorem backslash_behind (s : Loop) :
    s.backslash = behind s.line ({ s with line := [] } : Loop).backslash ∨
      Cut s s.backslash (behind s.line ({ s with line := [] } : Loop).backslash) := by
  have short : ({ s with line := [] } : Loop).bp ≠ lim - 2 := by
    show 0 ≠ lim - 2
    decide
  unfold Loop.backslash
  simp only [short, if_false]
  split
  · exact .inl rfl
  · split
    · exact .inl rfl
    · rename_i d fp read other
      split
      · rename_i full
        exact .inr ⟨full, rfl, rfl, d, rfl, rfl⟩
      · exact .inl rfl

theorem slash_behind (s : Loop) : s.slash = behind s.line ({ s with line := [] } : Loop).slash := by
  unfold Loop.slash
  simp only
  split
  · rfl
  · split
    · rfl
    · split <;> rfl

theorem fetch_line (s : Loop) : s.fetch.2.line = s.line := by
  unfold Loop.fetch
  split <;> rfl

theorem fetch_empty (s : Loop) : ({ s with line := [] } : Loop).fetch = (s.fetch.1, { s.fetch.2 with line := [] }) := by
  unfold Loop.fetch
  simp only
  split <;> rfl

theorem turn_free (s : Loop) : s.turn = free s ∨ Cut s s.turn (free s) := by
  have line := fetch_line s
  have empty := fetch_empty s
  have whole : ∀ t : Loop, behind t.line (false, { t with line := [] }) = (false, t) := fun t => by simp [behind]
  rcases fetched : s.fetch with ⟨_ | c, t⟩
  · rw [fetched] at line empty
    left
    simp only [free, Loop.turn, fetched, empty]
    rw [← line, whole]
  · rw [fetched] at line empty
    simp only [free, Cut, Loop.turn, fetched, empty, ← line]
    split
    · exact .inl (whole t).symm
    · split
      · have bp : s.bp = t.bp := by rw [Loop.bp, Loop.bp, line]
        rw [bp]
        exact backslash_behind t
      · split
        · exact .inl rfl
        · exact .inl (slash_behind { t with delim := delimiter t.delim c })

/-- The bytes of a turn: there are none where the loop ends. -/
theorem stores_bytes {result : Bool × Loop} (stores : Stores s result) :
    ∃ new, bytes result.2 = bytes s ++ new ∧ (new = [] ↔ result.1 = false) ∧ new.length ≤ 2 ∧ (s.bp = lim - 2 → new.length ≤ 1) := by
  cases stores with
  | ends same quiet => exact ⟨[], by rw [bytes, same, List.append_nil]; rfl, by simp, by simp, by simp⟩
  | comment same said => exact ⟨[], bp_append same, by simp, by simp, by simp⟩
  | @one t p c same byte said less =>
    refine ⟨[c], ?_, by simp, by simp, by simp⟩
    rw [bp_append same, List.filterMap_cons_some byte]
    rfl
  | two same quiet room less => exact ⟨_, bp_append same, by simp [Piece.byte], by simp [Piece.byte], fun full => absurd full room⟩

theorem turn_le (left : s.bp < lim - 1) : s.turn.2.bp ≤ lim - 1 := by
  obtain ⟨new, same, -, two, one⟩ := stores_bytes (turn_stores s)
  have length : s.turn.2.bp = s.bp + new.length := by
    have := congrArg List.length same
    rwa [List.length_append] at this
  by_cases full : s.bp = lim - 2
  · have := one full
    omega
  · omega

/-- Each turn that goes on stores something, and leaves less to be read. -/
theorem free_goes (goes : free s = (true, t)) : s.bp < t.bp ∧ remains t < remains s := by
  have stores := turn_stores { s with line := [] }
  rcases turn : ({ s with line := [] } : Loop).turn with ⟨again, u⟩
  rw [turn] at stores
  rw [free, turn] at goes
  obtain ⟨rfl, same⟩ := Prod.mk.inj goes
  have line : t.line = s.line ++ u.line := by rw [← same]
  have less : remains u < remains s := by
    cases stores with
    | one same byte said less => exact less
    | two same quiet room less => exact less
  obtain ⟨new, same', some, -⟩ := stores_bytes stores
  have bytes' : bytes t = bytes s ++ new := by
    rw [bp_append line]
    exact congrArg (bytes s ++ ·) same'
  have positive : 0 < new.length := List.length_pos_iff.mpr fun nothing => nomatch some.mp nothing
  have length : t.bp = s.bp + new.length := (congrArg List.length bytes').trans (List.length_append)
  refine ⟨by omega, ?_⟩
  rw [← same]
  exact less

theorem turns_above (n : Nat) (s : Loop) : ∀ u ∈ turns n s, s.bp ≤ u.bp := by
  induction n generalizing s with
  | zero =>
    intro u member
    exact Nat.le_of_eq (by rw [List.mem_singleton.mp member])
  | succ n ih =>
    intro u member
    unfold turns at member
    split at member
    · rename_i t goes
      rcases List.mem_cons.mp member with rfl | later
      · exact Nat.le_refl _
      · exact Nat.le_trans (Nat.le_of_lt (free_goes goes).1) (ih t u later)
    · exact Nat.le_of_eq (by rw [List.mem_singleton.mp member])

/-- The state that the loop ends in has all the bytes. -/
theorem turns_last (n : Nat) (s : Loop) : ∃ u ∈ turns n s, (turns n s).getLast? = some u ∧ ∀ v ∈ turns n s, v.bp ≤ u.bp := by
  have single : ∀ s, ∀ v ∈ [s], v.bp ≤ Loop.bp s := fun s v member => Nat.le_of_eq (by rw [List.mem_singleton.mp member])
  induction n generalizing s with
  | zero => exact ⟨s, List.mem_singleton_self s, rfl, single s⟩
  | succ n ih =>
    unfold turns
    split
    · rename_i t goes
      obtain ⟨u, member, last, above⟩ := ih t
      refine ⟨u, List.mem_cons_of_mem s member, by rw [List.getLast?_cons, last]; rfl, fun v member' => ?_⟩
      rcases List.mem_cons.mp member' with rfl | later
      · exact Nat.le_trans (Nat.le_of_lt (free_goes goes).1) (turns_above n t u member)
      · exact above v later
    · exact ⟨s, List.mem_singleton_self s, rfl, single s⟩

/-- The loop fills the buffer if the loop with no limit has exactly as many bytes before one of its turns. -/
theorem run_full (n m : Nat) (enough : lim - 1 < n + s.bp) (fits : s.bp ≤ lim - 1) (more : remains s < m) :
    (Loop.run n s).bp = lim - 1 ↔ ∃ u ∈ turns m s, u.bp = lim - 1 := by
  induction n generalizing s m with
  | zero => omega
  | succ n ih =>
    obtain ⟨m, rfl⟩ := Nat.exists_eq_succ_of_ne_zero (Nat.ne_of_gt (Nat.zero_lt_of_lt more))
    unfold Loop.run turns
    by_cases full : s.bp = lim - 1
    · rw [if_neg (by omega)]
      refine iff_of_true full ⟨s, ?_, full⟩
      split
      · exact List.mem_cons_self
      · exact List.mem_singleton_self s
    have left : s.bp < lim - 1 := by omega
    have bound := turn_le left
    have stopped : ∀ {r : Loop}, s.turn = (false, r) → r.bp = s.bp := by
      intro r turn
      have stores := turn_stores s
      rw [turn] at stores
      obtain ⟨new, same, none, -⟩ := stores_bytes stores
      rw [none.mpr rfl, List.append_nil] at same
      exact congrArg List.length same
    rw [if_pos left]
    rcases turn_free s with same | ⟨last, ends, line, d, goes, both⟩
    · rw [same] at bound
      split
      · rename_i t turn
        rw [← same, turn] at bound
        have here := same.symm.trans turn
        obtain ⟨above, less⟩ := free_goes here
        have bound : t.bp ≤ lim - 1 := bound
        simp only [here]
        rw [ih m (by omega) bound (by omega)]
        simp [full]
      · rename_i t turn
        have here := same.symm.trans turn
        simp only [here]
        have bp := stopped turn
        simp only [List.mem_singleton, exists_eq_left, bp]
    · split
      · rename_i t turn
        rw [turn] at ends
        cases ends
      · rename_i t turn
        have bp := stopped turn
        obtain ⟨u, here⟩ : ∃ u, free s = (true, u) := ⟨(free s).2, Prod.ext goes rfl⟩
        simp only [here]
        rw [here] at both
        have length := congrArg List.length (bp_append both)
        refine iff_of_false (by omega) ?_
        rintro ⟨v, member, full'⟩
        rcases List.mem_cons.mp member with rfl | later
        · exact full full'
        · have above := turns_above m u v later
          have bytes₁ : u.bp = (bytes u).length := rfl
          have bytes₂ : s.bp = (bytes s).length := rfl
          simp only [List.length_append, List.filterMap_cons, Piece.byte, List.filterMap_nil, List.length_cons, List.length_nil] at length
          omega

/-! Nothing is stored outside the buffer. -/

variable {b : Cursor Char}

theorem turn_holds (holds : b.Holds INPUTSIZ (bytes s)) (left : s.bp < lim - 1) :
    ∃ b', turn b s = some (s.turn.1, b', s.turn.2) ∧ b'.Holds INPUTSIZ (bytes s.turn.2) := by
  obtain ⟨new, same, -⟩ := stores_bytes (turn_stores s)
  have fits : (bytes s.turn.2).length ≤ lim - 1 := turn_le left
  have size : lim - 1 ≤ INPUTSIZ := by decide
  rw [same, List.length_append] at fits
  obtain ⟨b', stored, holds'⟩ := holds.puts new (by omega)
  refine ⟨b', ?_, same ▸ holds'⟩
  rw [turn, holds.pos, same, List.drop_left, stored]
  rfl

theorem run_holds (n : Nat) (holds : b.Holds INPUTSIZ (bytes s)) (fits : s.bp ≤ lim - 1) :
    ∃ b', run n b s = some (b', Loop.run n s) ∧ b'.Holds INPUTSIZ (bytes (Loop.run n s)) ∧ (Loop.run n s).bp ≤ lim - 1 := by
  induction n generalizing b s with
  | zero => exact ⟨b, rfl, holds, fits⟩
  | succ n ih =>
    have pos : b.pos = s.bp := holds.pos
    unfold run Loop.run
    rw [pos]
    by_cases left : s.bp < lim - 1
    · obtain ⟨b', stored, holds'⟩ := turn_holds holds left
      have bound := turn_le left
      rw [if_pos left, if_pos left, stored]
      rcases turn : s.turn with ⟨_ | _, t⟩
      · rw [turn] at holds' bound
        exact ⟨b', rfl, holds', bound⟩
      · rw [turn] at holds' bound
        exact ih holds' bound
    · rw [if_neg left, if_neg left]
      exact ⟨b, rfl, holds, fits⟩

/-- What the loop ends with where the buffer is full is a byte. -/
theorem run_last (n : Nat) (left : s.bp < lim - 1) (full : (Loop.run n s).bp = lim - 1) :
    ∃ front p c, (Loop.run n s).line = front ++ [p] ∧ Piece.byte p = some c := by
  induction n generalizing s with
  | zero => exact absurd full (Nat.ne_of_lt left)
  | succ n ih =>
    unfold Loop.run at full ⊢
    rw [if_pos left] at full ⊢
    have stores := turn_stores s
    have bound := turn_le left
    generalize s.turn = result at stores bound full
    rcases result with ⟨_ | _, t⟩
    · obtain ⟨new, same, none, -⟩ := stores_bytes stores
      rw [none.mpr rfl, List.append_nil] at same
      have stays : t.bp = s.bp := congrArg List.length same
      simp only at full
      omega
    · simp only at full bound ⊢
      by_cases more : t.bp < lim - 1
      · exact ih more full
      · have stop : Loop.run n t = t := by
          cases n with
          | zero => rfl
          | succ n => rw [Loop.run, if_neg more]
        rw [stop]
        cases stores with
        | one same byte said less => exact ⟨_, _, _, same, byte⟩
        | two same quiet room less => exact ⟨s.line ++ [.char '\\'], _, _, by rw [same, List.append_assoc]; rfl, rfl⟩

theorem run_said (n : Nat) (s : Loop) : ∀ e ∈ (Loop.run n s).error, e ∈ s.error ∨ e = "unterminated comment" := by
  induction n generalizing s with
  | zero => exact fun e => .inl
  | succ n ih =>
    have said : ∀ e ∈ s.turn.2.error, e ∈ s.error ∨ e = "unterminated comment" := by
      have stores := turn_stores s
      generalize s.turn = result at stores
      cases stores with
      | ends same quiet => exact fun e member => .inl (quiet ▸ member)
      | comment same said => exact said
      | one same byte said less => exact said
      | two same quiet room less => exact fun e member => .inl (quiet ▸ member)
    unfold Loop.run
    split
    · generalize s.turn = result at said
      rcases result with ⟨_ | _, t⟩
      · exact said
      · intro e member
        rcases ih t e member with before | comment
        · exact said e before
        · exact .inr comment
    · exact fun e => .inl

/-- The bytes are in the buffer with what is stored at the pointer. -/
theorem ended {out : List Char} (holds : b.Holds INPUTSIZ out) (room : out.length + 2 ≤ INPUTSIZ) :
    ∃ b' rest, ((b.put '\n').bind (·.store '\x00')) = some b' ∧ b'.bytes = out ++ '\n' :: '\x00' :: rest := by
  obtain ⟨newline, put, holds'⟩ := holds.put (by omega) '\n'
  obtain ⟨last, stored, holds'', null⟩ := holds'.store (by rw [List.length_append, List.length_singleton]; omega) '\x00'
  obtain ⟨rest, whole⟩ := holds''.split null
  refine ⟨last, rest, by rw [put]; exact stored, ?_⟩
  rw [whole, List.append_assoc]
  rfl

/-- What the loop of `readline` leaves of a line, when the buffer is full and when it is not. -/
theorem finish_line (holds : b.Holds INPUTSIZ (bytes s)) (fits : s.bp ≤ lim - 1)
    (last : s.bp = lim - 1 → ∃ front p c, s.line = front ++ [p] ∧ Piece.byte p = some c) :
    ∃ l rest, finish b s = some l ∧ l.ret = true ∧ l.file = s.file ∧
      if s.bp = lim - 1 then l.error = s.error ++ ["line too long"] ∧ l.line.bytes = s.line.dropLast.filterMap Piece.byte ++ '\n' :: '\x00' :: rest
      else l.error = s.error ∧ l.line.bytes = bytes s ++ '\n' :: '\x00' :: rest := by
  have pos : b.pos = s.bp := holds.pos
  have size : INPUTSIZ = lim - 1 + 2 := by decide
  unfold finish
  simp only [pos]
  by_cases full : s.bp = lim - 1
  · obtain ⟨front, p, c, line, byte⟩ := last full
    have whole : bytes s = front.filterMap Piece.byte ++ [c] := by
      rw [bytes, line, List.filterMap_append, List.filterMap_cons_some byte]
      rfl
    have length : s.bp = (front.filterMap Piece.byte).length + 1 := by
      rw [← List.length_singleton (a := c), ← List.length_append, ← whole]
      rfl
    rw [whole] at holds
    obtain ⟨b', rest, stored, same⟩ := ended (Cursor.Holds.back [c] holds) (by omega)
    have stored : ((b.back 1).put '\n').bind (·.store '\x00') = some b' := stored
    simp only [if_pos full, stored, line, List.dropLast_concat]
    exact ⟨_, rest, rfl, rfl, rfl, rfl, same⟩
  · obtain ⟨b', rest, stored, same⟩ := ended holds (by rw [size]; show s.bp + 2 ≤ _; omega)
    simp only [if_neg full, stored]
    exact ⟨_, rest, rfl, rfl, rfl, rfl, same⟩

theorem readline_run {input : Input} (open_ : input.file.feof = false) :
    ∃ b, readline input = finish b (Loop.run INPUTSIZ { file := input.file }) ∧
      b.Holds INPUTSIZ (bytes (Loop.run INPUTSIZ { file := input.file })) ∧ (Loop.run INPUTSIZ { file := input.file }).bp ≤ lim - 1 := by
  have whole : input.line.Holds INPUTSIZ input.line.filled := ⟨input.size, rfl⟩
  obtain ⟨start, stored, holds, -⟩ := whole.start.store (by decide) '\x00'
  obtain ⟨b, ran, holds', fits⟩ := run_holds (s := { file := input.file }) INPUTSIZ holds (Nat.zero_le _)
  refine ⟨b, ?_, holds', fits⟩
  rw [readline, if_neg (by simp [open_]), stored, Option.bind_some, ran]
  rfl

/-- `readline` stores the bytes of the line of `Comments.readline` and a NUL. -/
theorem readline_line {input : Input} (open_ : input.file.feof = false) :
    ∃ l l' rest, readline input = some l ∧ Comments.readline input.file = some l' ∧ l.ret = true ∧
      l.line.bytes = l'.pieces.filterMap Piece.byte ++ '\x00' :: rest ∧ l.error = l'.error ∧ l.file = l'.file := by
  obtain ⟨b, ran, holds, fits⟩ := readline_run open_
  have line := readline_open open_ rfl
  have empty : ({ file := input.file } : Loop).bp < lim - 1 := (by decide : 0 < lim - 1)
  generalize run : Loop.run INPUTSIZ { file := input.file } = s at ran holds fits line
  obtain ⟨l, rest, finished, ret, file, stored⟩ := finish_line holds fits fun full => by
    rw [← run] at full ⊢
    exact run_last INPUTSIZ empty full
  by_cases full : s.bp = lim - 1
  · rw [if_pos full] at line stored
    exact ⟨l, _, rest, ran.trans finished, line, ret, by simp [stored.2, Piece.byte], stored.1, file⟩
  · rw [if_neg full] at line stored
    exact ⟨l, _, rest, ran.trans finished, line, ret, by simp [stored.2, bytes, Piece.byte], stored.1, file⟩

/-- A line is reported when the loop with no limit has two bytes less than the buffer before one of its turns. -/
theorem readline_reports {input : Input} (open_ : input.file.feof = false) :
    ∃ l, readline input = some l ∧ l.ret = true ∧ (∃ text rest, l.line.bytes = text ++ '\n' :: '\x00' :: rest) ∧
      ("line too long" ∈ l.error ↔ ∃ s ∈ passes input.file, s.bp + 2 = INPUTSIZ) := by
  obtain ⟨b, ran, holds, fits⟩ := readline_run open_
  have empty : ({ file := input.file } : Loop).bp < lim - 1 := (by decide : 0 < lim - 1)
  have enough : lim - 1 < INPUTSIZ + ({ file := input.file } : Loop).bp := (by decide : lim - 1 < INPUTSIZ + 0)
  have full := run_full INPUTSIZ (3 * input.file.rest.length + 1) enough (Nat.le_of_lt empty) (Nat.lt_succ_self _)
  have said := run_said INPUTSIZ { file := input.file }
  have last := run_last INPUTSIZ empty
  generalize Loop.run INPUTSIZ { file := input.file } = s at ran holds fits full said last
  obtain ⟨l, rest, finished, ret, -, stored⟩ := finish_line holds fits last
  have size : ∀ u : Loop, u.bp = lim - 1 ↔ u.bp + 2 = INPUTSIZ := fun u => by
    have : INPUTSIZ = lim - 1 + 2 := by decide
    omega
  simp only [size] at full
  refine ⟨l, ran.trans finished, ret, ?_, ?_⟩
  · split at stored
    · exact ⟨_, rest, stored.2⟩
    · exact ⟨_, rest, stored.2⟩
  · rw [passes, ← full, ← size]
    split at stored
    · rename_i there
      rw [stored.1]
      exact iff_of_true (List.mem_append_right _ (List.mem_singleton_self _)) there
    · rename_i there
      rw [stored.1]
      refine iff_of_false (fun member => ?_) there
      rcases said _ member with before | comment
      · cases before
      · exact absurd comment (by decide)

theorem logical_length (fp : File) :
    (∀ s ∈ passes fp, s.bp ≤ (logical fp).length) ∧ ∃ s ∈ passes fp, s.bp = (logical fp).length := by
  obtain ⟨u, member, last, above⟩ := turns_last (3 * fp.rest.length + 1) { file := fp }
  have length : (logical fp).length = u.bp := by
    rw [logical, passes, last]
    rfl
  rw [length]
  exact ⟨above, u, member, rfl⟩

/-- `readline` reports the lines that do not fit, but for a line that fits with nothing left, and for a line
that it cuts before a character after a backslash. -/
theorem readline_right (input : Input) :
    (∃ l, readline input = some l ∧ Right input l) ↔
      (input.file.feof = false →
        (logical input.file).length + 2 ≠ INPUTSIZ ∧
          (INPUTSIZ < (logical input.file).length + 2 → ∃ s ∈ passes input.file, s.bp + 2 = INPUTSIZ)) := by
  cases open_ : input.file.feof with
  | true =>
    have whole : input.line.Holds INPUTSIZ input.line.filled := ⟨input.size, rfl⟩
    obtain ⟨b, stored, -⟩ := whole.store (by rw [← whole.pos]; exact input.inside) '\x00'
    refine iff_of_true ⟨⟨false, b, [], input.file⟩, ?_, nofun, nofun⟩ nofun
    rw [readline, if_pos open_, stored]
    rfl
  | false =>
    obtain ⟨l, read, ret, terminated, reports⟩ := readline_reports open_
    obtain ⟨above, last, member, all⟩ := logical_length input.file
    constructor
    · rintro ⟨l', read', right⟩ -
      obtain rfl := Option.some.inj (read.symm.trans read')
      have exact_ := right.reported ret
      rw [reports] at exact_
      refine ⟨fun fits => ?_, exact_.mpr⟩
      have long := exact_.mp ⟨last, member, by omega⟩
      omega
    · intro condition
      obtain ⟨apart, whole⟩ := condition rfl
      refine ⟨l, read, fun _ => terminated, fun _ => reports.trans ⟨?_, whole⟩⟩
      rintro ⟨s, there, full⟩
      have := above s there
      omega

/-! A line of letters. -/

theorem free_letter {rest : List Char} (fresh : s.peekc = none) (outside : s.delim = none) (next : s.file.rest = 'a' :: rest) :
    free s = (true, { s with line := s.line ++ [.char 'a'], file := ⟨rest, s.file.lineno, s.file.feof⟩ }) := by
  have read : readchar s.file = (some 'a', ⟨rest, s.file.lineno, s.file.feof⟩) := by simp [readchar, next, getchars]
  simp [free, behind, Loop.turn, Loop.fetch, fresh, read, outside, delimiter]

theorem free_newline (fresh : s.peekc = none) (next : s.file.rest = ['\n']) : (free s).1 = false := by
  have read : readchar s.file = (some '\n', ⟨[], s.file.lineno + 1, s.file.feof⟩) := by simp [readchar, next, getchars]
  simp [free, behind, Loop.turn, Loop.fetch, fresh, read]

theorem turns_letters (k n : Nat) (enough : k < n) (fresh : s.peekc = none) (outside : s.delim = none)
    (next : s.file.rest = List.replicate k 'a' ++ ['\n']) :
    ∃ u, (turns n s).getLast? = some u ∧ bytes u = bytes s ++ List.replicate k 'a' := by
  induction k generalizing s n with
  | zero =>
    obtain ⟨n, rfl⟩ := Nat.exists_eq_succ_of_ne_zero (Nat.ne_of_gt enough)
    refine ⟨s, ?_, (List.append_nil _).symm⟩
    have ends := free_newline fresh next
    unfold turns
    split
    · rename_i t goes
      rw [goes] at ends
      cases ends
    · rfl
  | succ k ih =>
    obtain ⟨n, rfl⟩ := Nat.exists_eq_succ_of_ne_zero (Nat.ne_of_gt (Nat.zero_lt_of_lt enough))
    have next : s.file.rest = 'a' :: (List.replicate k 'a' ++ ['\n']) := next
    have goes := free_letter fresh outside next
    obtain ⟨u, last, same⟩ := ih (s := (free s).2) n (by omega) (by rw [goes]; exact fresh) (by rw [goes]; exact outside) (by rw [goes])
    refine ⟨u, ?_, ?_⟩
    · rw [goes] at last
      simp only [turns, goes, List.getLast?_cons, last]
      rfl
    · rw [same, goes]
      simp [bytes, Piece.byte, List.replicate_succ]

/-- A file with one line that takes the whole buffer with its newline and the NUL. -/
def letters : Input where
  line := .blank INPUTSIZ '\x00'
  file := { rest := List.replicate (INPUTSIZ - 2) 'a' ++ ['\n'], lineno := 0 }
  size := (Cursor.blank_holds INPUTSIZ '\x00').length
  inside := by decide

theorem letters_reported : ¬∃ l, readline letters = some l ∧ Right letters l := by
  rintro ⟨l, read, right⟩
  have room : INPUTSIZ - 2 < 3 * letters.file.rest.length + 1 := by
    have text : letters.file.rest = List.replicate (INPUTSIZ - 2) 'a' ++ ['\n'] := rfl
    rw [text, List.length_append, List.length_replicate, List.length_singleton]
    omega
  obtain ⟨u, last, same⟩ := turns_letters (s := { file := letters.file }) (INPUTSIZ - 2) _ room rfl rfl rfl
  have length : (logical letters.file).length = INPUTSIZ - 2 := by
    rw [logical, passes, last, Option.map_some, Option.getD_some, same, List.length_append, List.length_replicate]
    exact Nat.zero_add _
  have open_ : letters.file.feof = false := rfl
  obtain ⟨l', read', ret, -, reports⟩ := readline_reports open_
  obtain rfl := Option.some.inj (read.symm.trans read')
  have fits : ¬INPUTSIZ < (logical letters.file).length + 2 := by
    rw [length]
    decide
  obtain ⟨-, s, member, whole⟩ := logical_length letters.file
  refine fits ((right.reported ret).mp (reports.mpr ⟨s, member, ?_⟩))
  rw [whole, length]
  decide

end Scc.Cc1.LineBuffer
