import Scc.Cc1.CommentsPieces

set_option linter.all false

/-! The lines that `readline` gives for a file, and the numbers of the lines. -/
namespace Scc.Cc1.Comments

section
attribute [local simp] splice comment Loop.bp Loop.comment Loop.fetch Loop.backslash Loop.slash Loop.turn Loop.run readline readlines readfile
end

/-! The characters. -/

/-- From one state of a file to a later one: the newlines between are counted. -/
def Moves (fp fp' : File) : Prop := ∃ read, fp.rest = read ++ fp'.rest ∧ fp'.lineno = fp.lineno + read.count '\n'

theorem Moves.refl (fp : File) : Moves fp fp := ⟨[], rfl, rfl⟩

theorem Moves.trans {fp fp' fp'' : File} (one : Moves fp fp') (two : Moves fp' fp'') : Moves fp fp'' := by
  obtain ⟨first, rest, number⟩ := one
  obtain ⟨second, rest', number'⟩ := two
  exact ⟨first ++ second, by rw [rest, rest', List.append_assoc], by rw [number', number, List.count_append, Nat.add_assoc]⟩

theorem getchars_moves (lineno : Nat) (feof : Bool) (rest : List Char) :
    Moves ⟨rest, lineno, feof⟩ (getchars lineno feof rest).2 := by
  fun_induction getchars lineno feof rest with
  | case1 => exact ⟨[], rfl, rfl⟩
  | case2 lineno rest ih =>
    have joined : Moves ⟨'\\' :: '\n' :: rest, lineno, feof⟩ ⟨rest, lineno + 1, feof⟩ := ⟨['\\', '\n'], rfl, rfl⟩
    exact joined.trans ih
  | case3 => exact ⟨['\\'], rfl, rfl⟩
  | case4 => exact ⟨['\n'], rfl, rfl⟩
  | case5 lineno c rest joined alone other =>
    refine ⟨[c], rfl, ?_⟩
    rw [List.count_singleton, if_neg (by simpa using other)]
    rfl

theorem readchar_moves (fp : File) : Moves fp (readchar fp).2 := getchars_moves fp.lineno fp.feof fp.rest

/-- After its end nothing is left of a file; `last` says whether it ends with a backslash. -/
structure Sound (last : Bool) (fp : File) : Prop where
  done : fp.feof = true → fp.rest = []
  ends : fp.rest ≠ [] → (fp.rest.getLast? = some '\\' ↔ last = true)

/-- Reading goes on in the joined text. -/
def Joined (text : List Char) (c : Option Char) (fp : File) : Prop :=
  match c with
  | none => text = [] ∧ fp.feof = true
  | some c => text = c :: splice fp.rest ∧ (fp.feof = true ↔ c = '\\' ∧ fp.rest = [])

theorem splice_cons {c : Char} {rest : List Char} (single : ∀ t, c :: rest ≠ '\\' :: '\n' :: t) :
    splice (c :: rest) = c :: splice rest := by
  rw [splice]
  rintro t rfl rfl
  exact single t rfl

theorem splice_nil {rest : List Char} (nothing : splice rest = []) : rest = [] ∨ rest.getLast? = some '\n' := by
  fun_induction splice rest with
  | case1 rest ih =>
    rcases ih nothing with rfl | ended
    · exact .inr rfl
    · right
      simp [List.getLast?_cons, ended]
  | case2 c rest single ih => cases nothing
  | case3 => exact .inl rfl

theorem getchars_joined (lineno : Nat) (rest : List Char) :
    Joined (splice rest) (getchars lineno false rest).1 (getchars lineno false rest).2 ∧
      ((getchars lineno false rest).2.feof = true → (getchars lineno false rest).2.rest = []) := by
  fun_induction getchars lineno false rest with
  | case1 => exact ⟨⟨rfl, rfl⟩, fun _ => rfl⟩
  | case2 lineno rest ih => exact ih
  | case3 => exact ⟨⟨rfl, iff_of_true rfl ⟨rfl, rfl⟩⟩, fun _ => rfl⟩
  | case4 lineno rest => exact ⟨⟨splice_cons nofun, iff_of_false nofun nofun⟩, nofun⟩
  | case5 lineno c rest joined alone other =>
    refine ⟨⟨splice_cons ?_, iff_of_false nofun ?_⟩, nofun⟩
    · intro t same
      cases same
      exact joined t rfl rfl
    · rintro ⟨rfl, rfl⟩
      exact alone rfl rfl

variable {last : Bool}

theorem Sound.moves {fp fp' : File} (sound : Sound last fp) (moves : Moves fp fp') (done : fp'.feof = true → fp'.rest = []) :
    Sound last fp' := by
  refine ⟨done, fun left => ?_⟩
  obtain ⟨read, same, -⟩ := moves
  have whole : fp.rest ≠ [] := by
    rw [same]
    exact List.append_ne_nil_of_right_ne_nil _ left
  rw [← sound.ends whole, same, List.getLast?_append_of_ne_nil _ left]

theorem readchar_joined {fp : File} (sound : Sound last fp) :
    Sound last (readchar fp).2 ∧ Joined (splice fp.rest) (readchar fp).1 (readchar fp).2 := by
  have moves := readchar_moves fp
  obtain ⟨rest, lineno, feof⟩ := fp
  cases feof with
  | true =>
    obtain rfl : rest = [] := sound.done rfl
    exact ⟨⟨fun _ => rfl, fun left => absurd rfl left⟩, rfl, rfl⟩
  | false =>
    obtain ⟨joined, done⟩ := getchars_joined lineno rest
    exact ⟨sound.moves moves done, joined⟩

theorem getchars_ended {lineno : Nat} {rest : List Char} (char : (getchars lineno false rest).1.isSome)
    (ended : (getchars lineno false rest).2.feof = true) : rest.getLast? = some '\\' := by
  fun_induction getchars lineno false rest with
  | case1 => cases char
  | case2 lineno rest ih => simp [List.getLast?_cons, ih char ended]
  | case3 => rfl
  | case4 => cases ended
  | case5 => cases ended

/-- The end of a file is seen with its last backslash, if there is one. -/
theorem readchar_ended {fp fp' : File} {c : Char} (sound : Sound last fp) (read : readchar fp = (some c, fp')) (ended : fp'.feof = true) :
    fp.rest.getLast? = some '\\' := by
  obtain ⟨rest, lineno, feof⟩ := fp
  cases feof with
  | true =>
    obtain rfl : rest = [] := sound.done rfl
    cases read
  | false =>
    have same : getchars lineno false rest = (some c, fp') := read
    exact getchars_ended (by rw [same]; rfl) (by rw [same]; exact ended)

/-! Comments. -/

theorem comment_moves (type : Char) (n : Nat) (skipped : List Char) (fp : File) : Moves fp (comment type n skipped fp).2.2 := by
  induction n generalizing skipped fp with
  | zero => exact .refl fp
  | succ n ih =>
    have one := readchar_moves fp
    unfold comment
    split
    · rename_i fp' end_
      rwa [end_] at one
    · rename_i c fp' read
      rw [read] at one
      split
      · exact one.trans (ih _ _)
      · split
        · exact one
        · have two := readchar_moves fp'
          split
          · rename_i fp'' close
            rw [close] at two
            exact one.trans two
          · rename_i d fp'' other more
            rw [more] at two
            exact one.trans (two.trans (ih _ _))
          · rename_i fp'' end_
            rw [end_] at two
            exact one.trans (two.trans (ih _ _))

theorem comment_end (type : Char) (n : Nat) (skipped : List Char) {fp : File} (sound : Sound last fp) (done : splice fp.rest = []) :
    (comment type n skipped fp).1 = false := by
  cases n with
  | zero => rfl
  | succ n =>
    have joined := (readchar_joined sound).2
    unfold comment
    split
    · rfl
    · rename_i c fp' read
      rw [read, done] at joined
      cases joined.1

/-- The comment ends where the joined text has its end, or not at all. -/
def Closed (last : Bool) (found : Option (List Char × List Char)) (skipped : List Char) (result : Bool × List Char × File) : Prop :=
  match found with
  | none => result.1 = false
  | some (body, rest) => result.1 = true ∧ result.2.1 = skipped ++ body ∧ splice result.2.2.rest = rest ∧
      Sound last result.2.2 ∧ result.2.2.feof = false

theorem Closed.after {found : Option (List Char × List Char)} {skipped read : List Char} {result : Bool × List Char × File}
    (closed : Closed last found (skipped ++ read) result) :
    Closed last (found.map fun found => (read ++ found.1, found.2)) skipped result := by
  cases found with
  | none => exact closed
  | some found =>
    obtain ⟨ends, body, rest⟩ := closed
    exact ⟨ends, body.trans (List.append_assoc ..), rest⟩

theorem comment_block (n : Nat) (skipped : List Char) {fp : File} (sound : Sound last fp) (enough : (splice fp.rest).length < n) :
    Closed last (closing (splice fp.rest)) skipped (comment '*' n skipped fp) := by
  induction n generalizing skipped fp with
  | zero => cases enough
  | succ n ih =>
    obtain ⟨sound', joined⟩ := readchar_joined sound
    unfold comment
    split
    · rename_i fp' end_
      rw [end_] at joined
      rw [joined.1]
      rfl
    · rename_i c fp' read
      rw [read] at joined sound'
      obtain ⟨same, -⟩ : splice fp.rest = c :: splice fp'.rest ∧ _ := joined
      rw [same, List.length_cons] at enough
      rw [same]
      split
      · rename_i other
        rw [closing_other other]
        have enough' : (splice fp'.rest).length < n := by omega
        have closed : Closed last _ (skipped ++ [c]) _ := ih (skipped ++ [c]) sound' enough'
        exact closed.after
      · rename_i star
        obtain rfl : c = '*' := by simpa using star
        rw [if_neg (by simp)]
        obtain ⟨sound'', joined'⟩ := readchar_joined sound'
        split
        · rename_i fp'' close
          rw [close] at joined' sound''
          rw [joined'.1]
          exact ⟨rfl, (List.append_nil _).symm, rfl, sound'', by simpa using joined'.2⟩
        · rename_i d fp'' other more
          rw [more] at joined' sound''
          have plain : d ≠ '/' := by
            rintro rfl
            exact other rfl
          have step : closing ('*' :: splice fp'.rest) =
              (closing (splice fp''.rest)).map fun found => (['*', d] ++ found.1, found.2) := by
            rw [joined'.1]
            simp [closing, plain]
          rw [step]
          have shorter : (splice fp'.rest).length = (splice fp''.rest).length + 1 := congrArg List.length joined'.1
          exact Closed.after (ih (skipped ++ ['*', d]) sound'' (by omega))
        · rename_i fp'' end_
          rw [end_] at joined' sound''
          have nothing : closing ('*' :: splice fp'.rest) = none := by
            rw [joined'.1]
            rfl
          rw [nothing]
          refine comment_end '*' n _ sound'' ?_
          rw [sound''.done joined'.2]
          rfl

theorem comment_line (n : Nat) (skipped : List Char) {fp : File} (sound : Sound last fp) (enough : (splice fp.rest).length < n) :
    Closed last (ending (splice fp.rest)) skipped (comment '\n' n skipped fp) := by
  induction n generalizing skipped fp with
  | zero => cases enough
  | succ n ih =>
    obtain ⟨sound', joined⟩ := readchar_joined sound
    unfold comment
    split
    · rename_i fp' end_
      rw [end_] at joined
      rw [joined.1]
      rfl
    · rename_i c fp' read
      rw [read] at joined sound'
      obtain ⟨same, open_⟩ : splice fp.rest = c :: splice fp'.rest ∧ _ := joined
      rw [same, List.length_cons] at enough
      rw [same]
      split
      · rename_i other
        have step : ending (c :: splice fp'.rest) = (ending (splice fp'.rest)).map fun found => ([c] ++ found.1, found.2) := by
          rw [ending, if_neg other]
          rfl
        rw [step]
        exact Closed.after (ih (skipped ++ [c]) sound' (by omega))
      · rename_i newline
        obtain rfl : c = '\n' := by simpa using newline
        rw [if_pos (by decide)]
        exact ⟨rfl, (List.append_nil _).symm, rfl, sound', by simpa using open_⟩

/-! A turn of the loop. -/

/-- The joined text that is left, with the character in `peekc`. -/
def Sync (last : Bool) (s : Loop) (text : List Char) : Prop :=
  Sound last s.file ∧
    match s.peekc with
    | none => splice s.file.rest = text
    | some c => Joined text c s.file

theorem fetch_joined {s : Loop} {text : List Char} (sync : Sync last s text) :
    Sound last s.fetch.2.file ∧ Joined text s.fetch.1 s.fetch.2.file ∧
      s.fetch.2 = { s with peekc := none, file := s.fetch.2.file } := by
  obtain ⟨sound, ahead⟩ := sync
  unfold Loop.fetch
  split
  · rename_i c peeked
    rw [peeked] at ahead
    exact ⟨sound, ahead, rfl⟩
  · rename_i nothing
    simp only [nothing] at ahead
    subst ahead
    exact ⟨(readchar_joined sound).1, (readchar_joined sound).2, by simp [nothing]⟩

/-- How a call of `readline` ends: with an error, at a newline or at the end of the file. -/
inductive Outcome (last : Bool) (line : List Piece) (text : List Char) (pieces : Option (List Piece)) (s : Loop) : Prop
  | error (none : pieces = none) (reported : s.error ≠ [] ∨ s.bp = lim - 1)
  | line (silent : s.error = []) (fits : s.bp < lim - 1) (stored : List Piece) (same : s.line = line ++ stored)
      (sound : Sound last s.file) (open_ : s.file.feof = false) (shorter : (splice s.file.rest).length < text.length)
      (read : pieces = (reads last (lim - 1) none (splice s.file.rest)).map fun ps => stored ++ .newline :: ps)
  | eof (silent : s.error = []) (fits : s.bp < lim - 1) (stored : List Piece) (same : s.line = line ++ stored)
      (sound : Sound last s.file) (ended : s.file.feof = true) (read : pieces = some stored)

/-- What a turn does: it stores something and goes on, or it is the last one. -/
inductive Turned (last : Bool) (s : Loop) (text : List Char) (pieces : Option (List Piece)) : Bool × Loop → Prop
  | on {s' : Loop} {text' : List Char} (silent : s'.error = []) (valid : Quoted s'.delim) (stored : List Piece) (same : s'.line = s.line ++ stored)
      (sync : Sync last s' text') (shorter : text'.length ≤ text.length) (room : s.bp < s'.bp ∧ s'.bp ≤ lim - 1)
      (read : pieces = (reads last (lim - 1 - s'.bp) s'.delim text').map (stored ++ ·)) : Turned last s text pieces (true, s')
  | wrong {s' : Loop} (none : pieces = none) (reported : s'.error ≠ []) : Turned last s text pieces (true, s')
  | ends {s' : Loop} (outcome : Outcome last s.line text pieces s') : Turned last s text pieces (false, s')

theorem bp_stored {s s' : Loop} {stored : List Piece} (same : s'.line = s.line ++ stored) :
    s'.bp = s.bp + (stored.filterMap Piece.byte).length := by
  rw [Loop.bp, same, List.filterMap_append, List.length_append]
  rfl

theorem splice_length (rest : List Char) : (splice rest).length ≤ rest.length := by
  fun_induction splice rest with
  | case1 rest ih => exact Nat.le_succ_of_le (Nat.le_succ_of_le ih)
  | case2 c rest single ih => exact Nat.succ_le_succ ih
  | case3 => exact Nat.le_refl 0

section turn
variable {s : Loop} {text : List Char}

theorem Loop.comment_open {type : Char} (closed : Closed last none [] (Comments.comment type (s.file.rest.length + 2) [] s.file)) :
    (s.comment type).2.error ≠ [] := by
  have opened : (Comments.comment type (s.file.rest.length + 2) [] s.file).1 = false := closed
  simp [Loop.comment, opened]

theorem Loop.comment_closed {type : Char} {body rest : List Char}
    (closed : Closed last (some (body, rest)) [] (Comments.comment type (s.file.rest.length + 2) [] s.file)) :
    s.comment type = (body, { s with file := (s.comment type).2.file }) ∧ splice (s.comment type).2.file.rest = rest ∧
      Sound last (s.comment type).2.file ∧ (s.comment type).2.file.feof = false := by
  obtain ⟨ends, same, more⟩ := closed
  refine ⟨?_, more⟩
  simp [Loop.comment, ends, same]

/-- The turn stores one byte, and the loop goes on with the text that is left. -/
theorem Turned.one {s' : Loop} {text' : List Char} {p : Piece} {pieces : Option (List Piece)} (left : s.bp < lim - 1)
    (silent : s'.error = []) (valid : Quoted s'.delim) (same : s'.line = s.line ++ [p]) (byte : p.byte.isSome) (sync : Sync last s' text')
    (shorter : text'.length ≤ text.length) (read : pieces = (reads last (lim - 1 - s.bp - 1) s'.delim text').map (p :: ·)) :
    Turned last s text pieces (true, s') := by
  have bp : s'.bp = s.bp + 1 := by
    obtain ⟨b, here⟩ := Option.isSome_iff_exists.mp byte
    rw [bp_stored same, List.filterMap_cons_some here]
    rfl
  refine .on silent valid [p] same sync shorter (by omega) ?_
  rw [bp, ← Nat.sub_sub]
  exact read

theorem backslash_turned (sound : Sound last s.file) (fresh : s.peekc = none) (left : s.bp < lim - 1) (silent : s.error = [])
    (valid : Quoted s.delim) :
    Turned last s ('\\' :: splice s.file.rest) (reads last (lim - 1 - s.bp) s.delim ('\\' :: splice s.file.rest)) s.backslash := by
  obtain ⟨sound', joined⟩ := readchar_joined sound
  have nonzero : lim - 1 - s.bp ≠ 0 := by omega
  unfold Loop.backslash
  split
  · rename_i fp end_
    rw [end_] at sound' joined
    obtain ⟨nothing, ended⟩ : splice s.file.rest = [] ∧ fp.feof = true := joined
    rw [nothing]
    exact .one left silent valid rfl rfl ⟨sound', rfl, ended⟩ (Nat.zero_le _) (reads_backslash_nil nonzero)
  · rename_i d fp read
    rw [read] at sound' joined
    obtain ⟨same, open_⟩ : splice s.file.rest = d :: splice fp.rest ∧ _ := joined
    rw [same]
    by_cases newline : d = '\n'
    · subst newline
      rw [if_pos rfl]
      exact .one left silent valid rfl rfl ⟨sound', rfl, open_⟩ (by simp) (reads_backslash_newline nonzero)
    rw [if_neg newline, reads_backslash nonzero newline]
    by_cases full : s.bp = lim - 2
    · rw [if_pos full, if_pos (by omega)]
      refine .ends ?_
      by_cases ended : fp.feof = true
      · obtain ⟨rfl, nothing⟩ := open_.mp ended
        have whole : s.file.rest ≠ [] := by
          intro none
          rw [none] at same
          cases same
        have backslash : last = true := (sound.ends whole).mp (readchar_ended sound read ended)
        rw [if_pos ⟨rfl, by rw [nothing]; rfl, backslash⟩]
        exact .eof silent left [] (List.append_nil _).symm sound' ended rfl
      · have drop : ¬ (d = '\\' ∧ splice fp.rest = [] ∧ last = true) := by
          rintro ⟨rfl, nothing, backslash⟩
          have remains : fp.rest ≠ [] := fun none => ended (open_.mpr ⟨rfl, none⟩)
          have newline := (splice_nil nothing).resolve_left remains
          rw [(sound'.ends remains).mpr backslash] at newline
          cases newline
        rw [if_neg drop]
        exact .line silent left [] (List.append_nil _).symm sound' (by simpa using ended) (by simp only [List.length_cons]; omega) rfl
    · rw [if_neg full, if_neg (by omega)]
      have bp : ({ s with line := s.line ++ [.char '\\', .char d], file := fp } : Loop).bp = s.bp + 2 := by
        rw [Loop.bp, List.filterMap_append, List.length_append]
        rfl
      have sync : Sync last { s with line := s.line ++ [.char '\\', .char d], file := fp } (splice fp.rest) := by
        refine ⟨sound', ?_⟩
        simp only [fresh]
      refine .on silent valid [.char '\\', .char d] rfl sync (by simp only [List.length_cons]; omega) (by omega) ?_
      rw [bp, Nat.sub_sub]
      rfl

theorem slash_turned (sound : Sound last s.file) (fresh : s.peekc = none) (left : s.bp < lim - 1) (silent : s.error = [])
    (outside : s.delim = none) :
    Turned last s ('/' :: splice s.file.rest) (reads last (lim - 1 - s.bp) none ('/' :: splice s.file.rest)) s.slash := by
  obtain ⟨sound', joined⟩ := readchar_joined sound
  have nonzero : lim - 1 - s.bp ≠ 0 := by omega
  have valid : Quoted s.delim := outside ▸ .none
  unfold Loop.slash
  split
  · rename_i fp end_
    rw [end_] at sound' joined
    obtain ⟨nothing, ended⟩ : splice s.file.rest = [] ∧ fp.feof = true := joined
    rw [nothing]
    refine .one left silent valid rfl rfl ⟨sound', rfl, ended⟩ (Nat.zero_le _) ?_
    rw [reads_slash_nil nonzero, outside]
  rename_i d fp read
  rw [read] at sound' joined
  obtain ⟨same, open_⟩ : splice s.file.rest = d :: splice fp.rest ∧ _ := joined
  rw [same]
  have enough : (splice fp.rest).length < fp.rest.length + 2 := Nat.lt_succ_of_le (Nat.le_succ_of_le (splice_length fp.rest))
  by_cases line : d = '/'
  · subst line
    rw [if_pos rfl, reads_line nonzero]
    refine .ends ?_
    have closed := comment_line (fp.rest.length + 2) [] sound' enough
    cases found : ending (splice fp.rest) with
    | none =>
      rw [found] at closed
      exact .error rfl (.inl (Loop.comment_open (s := { s with file := fp }) closed))
    | some both =>
      obtain ⟨body, rest⟩ := both
      rw [found] at closed
      have shorter := ending_length found
      obtain ⟨comment, rest_, sound'', open'⟩ := Loop.comment_closed (s := { s with file := fp }) closed
      refine .line ?_ ?_ [.line body] ?_ sound'' open' ?_ ?_
      · rw [comment]
        exact silent
      · exact Nat.lt_of_le_of_lt (Nat.le_of_eq (bp_stored rfl)) left
      · rw [comment]
      · show (splice (({ s with file := fp } : Loop).comment '\n').2.file.rest).length < _
        rw [rest_]
        simp only [List.length_cons]
        omega
      · show _ = (reads last (lim - 1) none (splice (({ s with file := fp } : Loop).comment '\n').2.file.rest)).map _
        rw [rest_]
        rfl
  by_cases block : d = '*'
  · subst block
    rw [if_neg line, if_pos rfl, reads_block nonzero]
    have closed := comment_block (fp.rest.length + 2) [] sound' enough
    cases found : closing (splice fp.rest) with
    | none =>
      rw [found] at closed
      exact .wrong rfl (Loop.comment_open (s := { s with file := fp }) closed)
    | some both =>
      obtain ⟨body, rest⟩ := both
      rw [found] at closed
      have shorter := closing_length found
      obtain ⟨comment, rest_, sound'', open'⟩ := Loop.comment_closed (s := { s with file := fp }) closed
      refine .one left ?_ ?_ ?_ (p := .block body) rfl (⟨sound'', ?_⟩ : Sync last _ rest) ?_ ?_
      · rw [comment]
        exact silent
      · rw [comment]
        exact valid
      · rw [comment]
      · rw [comment]
        simp only [fresh]
        exact rest_
      · simp only [List.length_cons]
        omega
      · rw [comment, outside]
        rfl
  rw [if_neg line, if_neg block, reads_slash nonzero ⟨line, block⟩]
  by_cases null : d = '\x00'
  · rw [if_pos null, if_pos null]
    refine .one left silent valid rfl rfl ⟨sound', rfl⟩ (by simp only [List.length_cons]; omega) ?_
    rw [outside]
  · rw [if_neg null, if_neg null]
    refine .one left silent valid rfl rfl ⟨sound', rfl, open_⟩ (by simp) ?_
    rw [outside]

/-- Fetching a character changes neither the line nor the mode. -/
theorem Turned.fetched {s' : Loop} {pieces : Option (List Piece)} {result : Bool × Loop} (same : s'.line = s.line)
    (turned : Turned last s' text pieces result) : Turned last s text pieces result := by
  have bp : s'.bp = s.bp := by rw [Loop.bp, same, Loop.bp]
  cases turned with
  | on silent valid stored stores sync shorter room read => exact .on silent valid stored (same ▸ stores) sync shorter (bp ▸ room) read
  | wrong none reported => exact .wrong none reported
  | ends outcome => exact .ends (same ▸ outcome)

theorem turn_turned (sync : Sync last s text) (valid : Quoted s.delim) (left : s.bp < lim - 1) (silent : s.error = []) :
    Turned last s text (reads last (lim - 1 - s.bp) s.delim text) s.turn := by
  obtain ⟨sound, joined, same⟩ := fetch_joined sync
  unfold Loop.turn
  split
  · rename_i s' fetched
    rw [fetched] at sound joined same
    obtain ⟨nothing, ended⟩ : text = [] ∧ s'.file.feof = true := joined
    have same : s' = { s with peekc := none, file := s'.file } := same
    rw [nothing, reads_nil (by omega), same]
    exact .ends (.eof silent left [] (List.append_nil _).symm sound ended rfl)
  rename_i c s' fetched
  rw [fetched] at sound joined same
  obtain ⟨rfl, open_⟩ : text = c :: splice s'.file.rest ∧ _ := joined
  have same : s' = { s with peekc := none, file := s'.file } := same
  have line : s'.line = s.line := by rw [same]
  have fresh : s'.peekc = none := by rw [same]
  have delim : s'.delim = s.delim := by rw [same]
  have quiet : s'.error = [] := by rw [same]; exact silent
  have bp : s'.bp = s.bp := by rw [Loop.bp, line, Loop.bp]
  rw [← bp] at left ⊢
  rw [← delim] at valid ⊢
  have nonzero : lim - 1 - s'.bp ≠ 0 := by omega
  refine Turned.fetched line ?_
  by_cases newline : c = '\n'
  · subst newline
    rw [if_pos rfl, reads_newline nonzero]
    exact .ends (.line quiet left [] (List.append_nil _).symm sound (by simpa using open_) (by simp) rfl)
  rw [if_neg newline]
  by_cases backslash : c = '\\'
  · subst backslash
    rw [if_pos rfl]
    exact backslash_turned sound fresh left quiet valid
  rw [if_neg backslash]
  by_cases kept : c ≠ '/' ∨ (delimiter s'.delim c).isSome
  · rw [if_pos kept, reads_char nonzero ⟨newline, backslash⟩ kept]
    refine .one left quiet (valid.delimiter c) rfl rfl ⟨sound, ?_⟩ (by simp) rfl
    simp only [fresh]
  · rw [if_neg kept]
    obtain ⟨rfl, outside⟩ : c = '/' ∧ delimiter s'.delim c = none := by simpa using kept
    have before : s'.delim = none := (delimiter_plain valid (by decide)).symm.trans outside
    have unchanged : { s' with delim := delimiter s'.delim '/' } = s' := by
      rw [outside, ← before]
    rw [unchanged, before]
    exact slash_turned sound fresh left quiet before

/-! A whole line. -/

theorem comment_error (type : Char) : s.error <+: (s.comment type).2.error := by
  unfold Loop.comment
  simp only
  split
  · exact List.prefix_refl _
  · exact List.prefix_append _ _

theorem slash_error : s.error <+: s.slash.2.error := by
  unfold Loop.slash
  split
  · exact List.prefix_refl _
  · rename_i d fp read
    simp only
    split
    · exact comment_error (s := { s with file := fp }) '\n'
    · split
      · exact comment_error (s := { s with file := fp }) '*'
      · exact List.prefix_refl _

theorem turn_error : s.error <+: s.turn.2.error := by
  have fetch : s.fetch.2.error = s.error := by
    unfold Loop.fetch
    split <;> rfl
  unfold Loop.turn
  split
  · rename_i s' fetched
    have same : s.error = s'.error := by rw [← fetch, fetched]
    simpa only [same] using List.prefix_refl s'.error
  · rename_i c s' fetched
    rw [← fetch, fetched]
    split
    · exact List.prefix_refl _
    · split
      · unfold Loop.backslash
        repeat' split
        all_goals exact List.prefix_refl _
      · simp only
        split
        · exact List.prefix_refl _
        · exact slash_error (s := { s' with delim := delimiter s'.delim c })

theorem run_error (n : Nat) (reported : s.error ≠ []) : (Loop.run n s).error ≠ [] := by
  induction n generalizing s with
  | zero => exact reported
  | succ n ih =>
    have turn : s.turn.2.error ≠ [] := turn_error.ne_nil reported
    unfold Loop.run
    split
    · split
      · rename_i s' on
        rw [on] at turn
        exact ih turn
      · rename_i s' ends
        rwa [ends] at turn
    · exact reported

theorem Outcome.after {line stored : List Piece} {text' : List Char} {pieces : Option (List Piece)} (shorter : text'.length ≤ text.length)
    (outcome : Outcome last (line ++ stored) text' pieces s) : Outcome last line text (pieces.map (stored ++ ·)) s := by
  cases outcome with
  | error none reported => exact .error (by rw [none]; rfl) reported
  | line silent fits more same sound open_ less read =>
    refine .line silent fits (stored ++ more) (by rw [same, List.append_assoc]) sound open_ (by omega) ?_
    rw [read, Option.map_map]
    congr 1
    funext ps
    exact (List.append_assoc ..).symm
  | eof silent fits more same sound ended read =>
    exact .eof silent fits (stored ++ more) (by rw [same, List.append_assoc]) sound ended (by rw [read]; rfl)

theorem run_outcome (n : Nat) (enough : lim - 1 < n + s.bp) (fits : s.bp ≤ lim - 1) (sync : Sync last s text) (valid : Quoted s.delim)
    (silent : s.error = []) : Outcome last s.line text (reads last (lim - 1 - s.bp) s.delim text) (Loop.run n s) := by
  induction n generalizing s text with
  | zero => omega
  | succ n ih =>
    unfold Loop.run
    by_cases left : s.bp < lim - 1
    · rw [if_pos left]
      have turned := turn_turned sync valid left silent
      generalize s.turn = result at turned
      cases turned with
      | on quiet valid' stored same sync' shorter room read =>
        rw [read]
        refine Outcome.after shorter ?_
        rw [← same]
        exact ih (by omega) room.2 sync' valid' quiet
      | wrong none reported => exact .error none (.inl (run_error n reported))
      | ends outcome => exact outcome
    · rw [if_neg left]
      have full : s.bp = lim - 1 := by omega
      refine .error ?_ (.inr full)
      rw [full, Nat.sub_self, reads_full]

end turn

/-- The line of an open file, as the loop leaves it. -/
theorem readline_open {fp : File} {s : Loop} (open_ : fp.feof = false) (run : Loop.run INPUTSIZ { file := fp } = s) :
    readline fp =
      if s.bp = lim - 1 then some ⟨s.line.dropLast ++ [.newline], s.error ++ ["line too long"], s.file⟩
      else some ⟨s.line ++ [.newline], s.error, s.file⟩ := by
  rw [readline, if_neg (by simp [open_]), ← run]

theorem readlines_open {n : Nat} {fp : File} {l : Line} (line : readline fp = some l) :
    readlines (n + 1) fp = l :: readlines n l.file := by
  rw [readlines, line]

theorem readlines_eof (n : Nat) {fp : File} (ended : fp.feof = true) : readlines n fp = [] := by
  cases n with
  | zero => rfl
  | succ n => rw [readlines, readline, if_pos ended]

/-- The lines of an open file are the pieces of its joined text, if they have no errors. -/
theorem readlines_pieces (n : Nat) {fp : File} (sound : Sound last fp) (open_ : fp.feof = false) (enough : (splice fp.rest).length < n) :
    ((∀ l ∈ readlines n fp, l.error = []) ∧ (∃ l ∈ readlines n fp, l.file.rest = []) ∧
      ∃ ps, reads last (lim - 1) none (splice fp.rest) = some ps ∧ (readlines n fp).flatMap Line.pieces = ps ++ [.newline]) ∨
    ((∃ l ∈ readlines n fp, l.error ≠ []) ∧ reads last (lim - 1) none (splice fp.rest) = none) := by
  induction n generalizing fp with
  | zero => cases enough
  | succ n ih =>
    have room : lim - 1 < INPUTSIZ + 0 ∧ 0 ≤ lim - 1 := by decide
    have outcome := run_outcome (s := { file := fp }) INPUTSIZ room.1 room.2 ⟨sound, rfl⟩ .none rfl
    simp only [show ({ file := fp } : Loop).bp = 0 from rfl, Nat.sub_zero] at outcome
    generalize run : Loop.run INPUTSIZ { file := fp } = s at outcome
    have line := readline_open open_ run
    cases outcome with
    | error none reported =>
      refine .inr ⟨?_, none⟩
      by_cases full : s.bp = lim - 1
      · rw [if_pos full] at line
        rw [readlines_open line]
        exact ⟨_, List.mem_cons_self, by simp⟩
      · rw [if_neg full] at line
        rw [readlines_open line]
        exact ⟨_, List.mem_cons_self, reported.resolve_right full⟩
    | line silent fits stored same sound' open' shorter read =>
      rw [if_neg (by omega)] at line
      rw [readlines_open line, read]
      rcases ih sound' open' (by omega) with ⟨quiet, ⟨l, member, all⟩, ps, rest, pieces⟩ | ⟨⟨l, member, reported⟩, none⟩
      · refine .inl ⟨?_, ⟨l, List.mem_cons_of_mem _ member, all⟩, stored ++ .newline :: ps, by rw [rest]; rfl, ?_⟩
        · intro l member
          rcases List.mem_cons.mp member with rfl | later
          · exact silent
          · exact quiet l later
        · rw [List.flatMap_cons, pieces, same]
          simp
      · exact .inr ⟨⟨l, List.mem_cons_of_mem _ member, reported⟩, by rw [none]; rfl⟩
    | eof silent fits stored same sound' ended read =>
      rw [if_neg (by omega)] at line
      rw [readlines_open line, readlines_eof n ended, read]
      refine .inl ⟨fun l member => ?_, ⟨_, List.mem_cons_self, sound'.done ended⟩, stored, rfl, ?_⟩
      · obtain rfl := List.mem_singleton.mp member
        exact silent
      · simp [same]

/-! The numbers of the lines. -/

theorem slash_moves (s : Loop) : Moves s.file s.slash.2.file := by
  have one := readchar_moves s.file
  have two : ∀ type fp, Moves fp (({ s with file := fp } : Loop).comment type).2.file :=
    fun type fp => comment_moves type (fp.rest.length + 2) [] fp
  unfold Loop.slash
  split
  · rename_i fp read
    rwa [read] at one
  · rename_i d fp read
    rw [read] at one
    simp only
    split
    · exact one.trans (two '\n' fp)
    · split
      · exact one.trans (two '*' fp)
      · exact one

theorem turn_moves (s : Loop) : Moves s.file s.turn.2.file := by
  have fetch : Moves s.file s.fetch.2.file := by
    unfold Loop.fetch
    split
    · exact .refl _
    · exact readchar_moves s.file
  unfold Loop.turn
  split
  · rename_i s' fetched
    rwa [fetched] at fetch
  · rename_i c s' fetched
    rw [fetched] at fetch
    split
    · exact fetch
    · split
      · have one := readchar_moves s'.file
        refine fetch.trans ?_
        unfold Loop.backslash
        split
        · rename_i fp read
          rwa [read] at one
        · rename_i d fp read
          rw [read] at one
          repeat' split
          all_goals exact one
      · simp only
        split
        · exact fetch
        · exact fetch.trans (slash_moves { s' with delim := delimiter s'.delim c })

theorem run_moves (n : Nat) (s : Loop) : Moves s.file (Loop.run n s).file := by
  induction n generalizing s with
  | zero => exact .refl _
  | succ n ih =>
    have turn := turn_moves s
    unfold Loop.run
    split
    · split
      · rename_i s' on
        rw [on] at turn
        exact turn.trans (ih s')
      · rename_i s' ends
        rwa [ends] at turn
    · exact .refl _

theorem readline_moves {fp : File} {l : Line} (line : readline fp = some l) : Moves fp l.file := by
  have run := run_moves INPUTSIZ { file := fp }
  unfold readline at line
  split at line
  · cases line
  · simp only at line
    split at line
    · cases line
      exact run
    · cases line
      exact run

theorem readlines_moves (n : Nat) (fp : File) : ∀ l ∈ readlines n fp, Moves fp l.file := by
  induction n generalizing fp with
  | zero => exact nofun
  | succ n ih =>
    intro l member
    cases line : readline fp with
    | none => simp [readlines, line] at member
    | some l' =>
      rw [readlines_open line] at member
      rcases List.mem_cons.mp member with rfl | later
      · exact readline_moves line
      · exact (readline_moves line).trans (ih l'.file l later)

theorem Moves.count {fp fp' : File} (moves : Moves fp fp') : fp'.lineno + fp'.rest.count '\n' = fp.lineno + fp.rest.count '\n' := by
  obtain ⟨read, same, number⟩ := moves
  rw [same, number, List.count_append, Nat.add_assoc]

theorem readfile_some {text : List Char} (few : ∀ l ∈ readlines (text.length + 2) ⟨text, 0, false⟩, l.file.lineno ≤ UINT_MAX) :
    readfile text = some (readlines (text.length + 2) ⟨text, 0, false⟩) := by
  simp only [readfile]
  rw [if_pos]
  simpa using few

theorem lineno_le {text : List Char} {lines : List Line} (read : readfile text = some lines) :
    ∀ l ∈ lines, l.file.lineno ≤ UINT_MAX := by
  simp only [readfile] at read
  split at read
  · rename_i few
    cases read
    simpa using few
  · cases read

/-- The lines of cc1 are what C reads in the text of a file, and its lines have their own numbers, where cc1
finds the ends of the literals and of the comments. -/
theorem readfile_pieces (text : List Char) :
    (∀ lines, readfile text = some lines → ∀ l ∈ lines, Moves ⟨text, 0, false⟩ l.file) ∧
      ∀ ps, Decomposes none (splice text) ps →
        ((∃ lines, readfile text = some lines ∧ lines.flatMap Line.pieces = ps ++ [.newline] ∧ ∀ l ∈ lines, l.error = []) ↔
          Agrees none ps ∧ Short 0 ps ∧ text.count '\n' ≤ UINT_MAX) := by
  have moves := readlines_moves (text.length + 2) ⟨text, 0, false⟩
  have given : ∀ lines, readfile text = some lines → lines = readlines (text.length + 2) ⟨text, 0, false⟩ := by
    intro lines read
    simp only [readfile] at read
    split at read
    · exact (Option.some.inj read).symm
    · cases read
  refine ⟨fun lines read => given lines read ▸ moves, fun ps decomposed => ?_⟩
  have sound : Sound (decide (text.getLast? = some '\\')) (⟨text, 0, false⟩ : File) := ⟨nofun, fun _ => by simp⟩
  have enough : (splice text).length < text.length + 2 := Nat.lt_succ_of_le (Nat.le_succ_of_le (splice_length text))
  have pieces := readlines_pieces (text.length + 2) sound rfl enough
  have agrees := matches_text (decide (text.getLast? = some '\\')) (splice text) 0 .none .none decomposed
  rw [Nat.sub_zero] at agrees
  rw [← and_assoc, ← agrees]
  constructor
  · rintro ⟨lines, read, same, quiet⟩
    obtain rfl := given lines read
    rcases pieces with ⟨-, ⟨l, member, all⟩, ps', reads', same'⟩ | ⟨⟨l, member, reported⟩, -⟩
    · have : ps' = ps := List.append_cancel_right (same'.symm.trans same)
      refine ⟨this ▸ reads', ?_⟩
      have number := (moves l member).count
      simp only [all, List.count_nil, Nat.add_zero, Nat.zero_add] at number
      rw [← number]
      exact lineno_le read l member
    · exact absurd (quiet l member) reported
  · rintro ⟨read, few⟩
    rcases pieces with ⟨quiet, -, ps', reads', same⟩ | ⟨-, none⟩
    · have : ps' = ps := Option.some.inj (reads'.symm.trans read)
      refine ⟨_, readfile_some fun l member => ?_, this ▸ same, quiet⟩
      have number := (moves l member).count
      simp only [Nat.zero_add] at number
      omega
    · rw [none] at read
      cases read

/-- After the asterisk in `/***/` the one that closes the comment is not looked at. -/
theorem asterisk_unterminated : Decomposes none (splice ['/', '*', '*', '*', '/', '\n']) [.block ['*'], .newline] ∧
    ¬ ∃ lines, readfile ['/', '*', '*', '*', '/', '\n'] = some lines ∧
      lines.flatMap Line.pieces = [.block ['*'], .newline, .newline] ∧ ∀ l ∈ lines, l.error = [] := by
  constructor
  · have first : ¬ ['*', '/'] <:+: ['*'] ++ ['*'] := by decide
    exact .block first (.newline (.done _))
  · rintro ⟨lines, read, -, quiet⟩
    have errors : (readfile ['/', '*', '*', '*', '/', '\n']).map (List.map Line.error) = some [["unterminated comment"]] := by
      decide +kernel
    rw [read] at errors
    obtain ⟨l, rest, rfl⟩ : ∃ l rest, lines = l :: rest := List.exists_cons_of_ne_nil (by rintro rfl; cases errors)
    have reported := (List.cons.inj (Option.some.inj errors)).1
    rw [quiet l List.mem_cons_self] at reported
    cases reported

end Scc.Cc1.Comments
