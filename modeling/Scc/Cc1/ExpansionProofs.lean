import Scc.Cc1.Expansion

set_option linter.all false

/-! When the expansion of a macro stays in its buffer, with the count of its free bytes in step. -/
namespace Scc.Cc1.Expansion
open Comments Memory Transition Text

variable {next : List Char → List (List Char)} {mp : Macro} {buffer : Buffer}
variable {bp : Cursor Char} {bufsiz : Int} {s rest out : List Char} {size : Nat}

/-- The text is in the buffer and `bufsiz` is what is left. -/
structure InStep (bp : Cursor Char) (bufsiz : Int) (out : List Char) : Prop where
  holds : bp.Holds INPUTSIZ out
  free : bufsiz = room - out.length
  le : out.length ≤ room

theorem room_lt : room < INPUTSIZ := by decide

theorem room_succ : room + 1 = INPUTSIZ := by decide

/-! The branches. -/

/-- The blanks before `##` are taken back, if there is anything else before them. -/
theorem blanks_some (n : Nat) (bufsiz : Int) (holds : bp.Holds size out) (enough : out.length < n) (some : ∃ c ∈ out, c ≠ ' ') :
    ∃ bp', blanks n bp bufsiz = .some (.fits bp' (bufsiz + (out.length - (out.rdropWhile (· = ' ')).length))) ∧
      bp'.Holds size (out.rdropWhile (· = ' ')) := by
  induction n generalizing bp bufsiz out with
  | zero => omega
  | succ n ih =>
    rcases List.eq_nil_or_concat out with rfl | ⟨front, c, rfl⟩
    · obtain ⟨c, member, -⟩ := some
      cases member
    · rw [List.concat_eq_append] at *
      have last : bp.filled.getLast? = .some c := by rw [holds.filled, List.getLast?_concat]
      unfold blanks
      rw [last]
      by_cases blank : c = ' '
      · simp only [if_pos blank]
        rw [List.rdropWhile_concat_pos _ _ _ (by simpa using blank)]
        obtain ⟨d, member, other⟩ := some
        have before : d ∈ front := by
          rcases List.mem_append.mp member with before | same
          · exact before
          · exact absurd ((List.mem_singleton.mp same).trans blank) other
        rw [List.length_append, List.length_singleton] at enough
        obtain ⟨bp', stops, holds'⟩ := ih (bufsiz + 1) (Cursor.Holds.back [c] holds) (by omega) ⟨d, before, other⟩
        refine ⟨bp', ?_, holds'⟩
        have back : bp.back [c].length = bp.back 1 := rfl
        rw [← back, stops]
        congr 2
        rw [List.length_append, List.length_singleton]
        omega
      · simp only [if_neg blank]
        rw [List.rdropWhile_concat_neg _ _ _ (by simpa using blank)]
        exact ⟨bp, by simp, holds⟩

theorem blanks_none (n : Nat) (holds : bp.Holds size out) (enough : out.length < n) (blank : ∀ c ∈ out, c = ' ') :
    blanks n bp bufsiz = none := by
  induction n generalizing bp bufsiz out with
  | zero => omega
  | succ n ih =>
    unfold blanks
    rcases List.eq_nil_or_concat out with rfl | ⟨front, c, rfl⟩
    · rw [holds.filled]
      rfl
    · rw [List.concat_eq_append] at *
      rw [holds.filled, List.getLast?_concat]
      simp only [blank c (List.mem_append_right _ (List.mem_singleton_self c)), if_true]
      rw [List.length_append, List.length_singleton] at enough
      exact ih (Cursor.Holds.back [c] holds) (by omega) fun d member => blank d (List.mem_append_left _ member)

def escape (c : Char) : List Char := if c = '"' then ['\\', '"'] else [c]

/-- In the stringizer the opening quote is not counted. -/
theorem quoted_fits (arg : List Char) (bufsiz : Int) (holds : bp.Holds INPUTSIZ out) (free : bufsiz = room + 1 - out.length)
    (fits : ((arg.flatMap escape).length : Int) + 1 ≤ bufsiz) :
    ∃ bp', quoted arg bp bufsiz = some (.fits bp' (bufsiz - (arg.flatMap escape).length)) ∧
      bp'.Holds INPUTSIZ (out ++ arg.flatMap escape) := by
  have size := room_succ
  induction arg generalizing bp bufsiz out with
  | nil => exact ⟨bp, by simp [quoted], by simpa using holds⟩
  | cons c arg ih =>
    rw [List.flatMap_cons, List.length_append] at fits
    rw [List.flatMap_cons, ← List.append_assoc, List.length_append]
    unfold quoted
    by_cases quote : c = '"'
    · have text : escape c = ['\\', '"'] := if_pos quote
      rw [text, List.length_cons, List.length_singleton] at fits
      obtain ⟨bp', stored, holds'⟩ := holds.puts (escape c) (by rw [text, List.length_cons, List.length_singleton]; omega)
      obtain ⟨bp'', later, holds''⟩ := ih (bufsiz - 2) holds'
        (by rw [text, List.length_append, List.length_cons, List.length_singleton]; omega) (by omega)
      refine ⟨bp'', ?_, holds''⟩
      rw [if_pos quote, if_neg (by omega), ← text, stored, Option.bind_some, later, text, List.length_cons, List.length_singleton]
      congr 2
      omega
    · have text : escape c = [c] := if_neg quote
      rw [text, List.length_singleton] at fits
      obtain ⟨bp', stored, holds'⟩ := holds.put (by omega) c
      obtain ⟨bp'', later, holds''⟩ := ih (bufsiz - 1) holds' (by rw [List.length_append, List.length_singleton]; omega) (by omega)
      refine ⟨bp'', ?_, by rwa [text]⟩
      rw [if_neg quote, if_neg (by omega), stored, Option.bind_some, later, text, List.length_singleton]
      congr 2
      omega

theorem quoted_long (arg : List Char) (bufsiz : Int) (holds : bp.Holds INPUTSIZ out) (free : bufsiz = room + 1 - out.length) (positive : 1 ≤ bufsiz)
    (long : ¬((arg.flatMap escape).length : Int) + 1 ≤ bufsiz) : quoted arg bp bufsiz = some .long := by
  have size := room_succ
  induction arg generalizing bp bufsiz out with
  | nil =>
    simp only [List.flatMap_nil, List.length_nil] at long
    omega
  | cons c arg ih =>
    rw [List.flatMap_cons, List.length_append] at long
    unfold quoted
    by_cases quote : c = '"'
    · have text : escape c = ['\\', '"'] := if_pos quote
      rw [text, List.length_cons, List.length_singleton] at long
      rw [if_pos quote]
      by_cases full : bufsiz < 3
      · rw [if_pos full]
      · obtain ⟨bp', stored, holds'⟩ := holds.puts ['\\', '"'] (by rw [List.length_cons, List.length_singleton]; omega)
        rw [if_neg full, stored, Option.bind_some]
        exact ih (bufsiz - 2) holds' (by rw [List.length_append, List.length_cons, List.length_singleton]; omega) (by omega) (by omega)
    · have text : escape c = [c] := if_neg quote
      rw [text, List.length_singleton] at long
      rw [if_neg quote]
      by_cases full : bufsiz < 2
      · rw [if_pos full]
      · obtain ⟨bp', stored, holds'⟩ := holds.put (by omega) c
        rw [if_neg full, stored, Option.bind_some]
        exact ih (bufsiz - 1) holds' (by rw [List.length_append, List.length_singleton]; omega) (by omega) (by omega)

def spaced (more : List (List Char)) : List Char := more.flatMap (· ++ [' '])

theorem spaced_length (yytext : List Char) (more : List (List Char)) :
    (spaced (yytext :: more)).length = yytext.length + 1 + (spaced more).length := by
  rw [spaced, List.flatMap_cons, List.length_append, List.length_append, List.length_singleton]
  rfl

/-- The tokens of an argument with a blank after each of them. -/
theorem tokens_fit (more : List (List Char)) (siz : Int) (instep : InStep bp bufsiz out)
    (fits : more = [] ∨ out.length + (spaced more).length < room) :
    ∃ bp', tokens more siz bp bufsiz = some (siz + (spaced more).length, bp') ∧ bp'.Holds INPUTSIZ (out ++ spaced more) := by
  have size := room_succ
  induction more generalizing bp bufsiz out siz with
  | nil => exact ⟨bp, by simp [tokens, spaced], by simpa [spaced] using instep.holds⟩
  | cons yytext more ih =>
    have short := fits.resolve_left (List.cons_ne_nil _ _)
    rw [spaced_length] at short
    have free := instep.free
    obtain ⟨bp', stored, holds'⟩ := instep.holds.puts yytext (by omega)
    obtain ⟨bp'', blank, holds''⟩ := holds'.put (by rw [List.length_append]; omega) ' '
    have length : (out ++ yytext ++ [' ']).length = out.length + yytext.length + 1 := by simp [Nat.add_assoc]
    have instep' : InStep bp'' (bufsiz - (yytext.length + 1)) (out ++ yytext ++ [' ']) := ⟨holds'', by omega, by omega⟩
    obtain ⟨last, later, holds⟩ := ih (siz + (yytext.length + 1)) instep' (.inr (by omega))
    refine ⟨last, ?_, by simpa [spaced] using holds⟩
    unfold tokens
    rw [if_neg (by omega), stored, Option.bind_some, blank, Option.bind_some, later, spaced_length]
    congr 2
    omega

theorem tokens_long (more : List (List Char)) (siz : Int) (instep : InStep bp bufsiz out)
    (long : ¬(more = [] ∨ out.length + (spaced more).length < room)) :
    ∃ bp' out', tokens more siz bp bufsiz = some (-1, bp') ∧ bp'.Holds INPUTSIZ out' ∧ out'.length ≤ room := by
  have size := room_succ
  induction more generalizing bp bufsiz out siz with
  | nil => exact absurd (.inl rfl) long
  | cons yytext more ih =>
    have free := instep.free
    unfold tokens
    by_cases full : bufsiz - 2 < yytext.length
    · rw [if_pos full]
      exact ⟨bp, out, rfl, instep.holds, instep.le⟩
    · obtain ⟨bp', stored, holds'⟩ := instep.holds.puts yytext (by omega)
      obtain ⟨bp'', blank, holds''⟩ := holds'.put (by rw [List.length_append]; omega) ' '
      have length : (out ++ yytext ++ [' ']).length = out.length + yytext.length + 1 := by simp [Nat.add_assoc]
      have instep' : InStep bp'' (bufsiz - (yytext.length + 1)) (out ++ yytext ++ [' ']) := ⟨holds'', by omega, by omega⟩
      rw [if_neg full, stored, Option.bind_some, blank, Option.bind_some]
      refine ih (siz + (yytext.length + 1)) instep' ?_
      rw [not_or, spaced_length] at long
      rintro (rfl | short)
      · simp only [spaced, List.flatMap_nil, List.length_nil] at long
        omega
      · omega

theorem expandarg_fits {concat : Bool} {arg : List Char} (instep : InStep bp bufsiz out) (fits : Fits next out (.parameter concat arg)) :
    ∃ (n : Nat) (buf : Cursor Char), expandarg next concat arg bp bufsiz = some ((n : Int), buf) ∧
      buf.Holds INPUTSIZ (expanded next out (.parameter concat arg)) ∧ (expanded next out (.parameter concat arg)).length = out.length + n ∧
      out.length + n ≤ room := by
  have free := instep.free
  have size := room_succ
  have le := instep.le
  cases concat with
  | true =>
    have fits : out.length + arg.length < room := fits
    obtain ⟨buf, stored, holds⟩ := instep.holds.puts arg (by omega)
    obtain ⟨buf', null, holds', -⟩ := holds.store (by rw [List.length_append]; omega) '\x00'
    refine ⟨arg.length, buf', ?_, holds', List.length_append, Nat.le_of_lt fits⟩
    simp [expandarg, show ¬bufsiz ≤ arg.length by omega, stored, null]
  | false =>
    have same : expanded next out (.parameter false arg) = out ++ spaced (next arg) := rfl
    have fits : next arg = [] ∨ out.length + (spaced (next arg)).length < room := by
      rw [← List.length_append]
      exact fits
    have short : out.length + (spaced (next arg)).length ≤ room := by
      rcases fits with nothing | short
      · rw [nothing]
        exact le
      · exact Nat.le_of_lt short
    obtain ⟨buf, stored, holds⟩ := tokens_fit (next arg) 0 instep fits
    obtain ⟨buf', null, holds', -⟩ := holds.store (by rw [List.length_append]; omega) '\x00'
    refine ⟨(spaced (next arg)).length, buf', ?_, holds', List.length_append, short⟩
    simp [expandarg, stored, null]

theorem expandarg_long {concat : Bool} {arg : List Char} (instep : InStep bp bufsiz out) (long : ¬Fits next out (.parameter concat arg)) :
    ∃ buf, expandarg next concat arg bp bufsiz = some (-1, buf) := by
  have free := instep.free
  have size := room_succ
  have le := instep.le
  cases concat with
  | true =>
    have long : ¬out.length + arg.length < room := long
    obtain ⟨buf, null, -⟩ := instep.holds.store (by omega) '\x00'
    exact ⟨buf, by simp [expandarg, show bufsiz ≤ arg.length by omega, null]⟩
  | false =>
    have long : ¬(next arg = [] ∨ out.length + (spaced (next arg)).length < room) := by
      rw [← List.length_append]
      exact long
    obtain ⟨buf, out', stored, holds, short⟩ := tokens_long (next arg) 0 instep long
    obtain ⟨buf', null, -⟩ := holds.store (by omega) '\x00'
    exact ⟨buf', by simp [expandarg, stored, null]⟩

/-- An item that fits keeps the variables in step, if it is neither a `#` nor a `##` behind nothing. -/
theorem copy_fits {item : Item} (instep : InStep bp bufsiz out) (fits : Fits next out item) (steady : Steady out item) :
    ∃ bp' bufsiz', copy next item bp bufsiz = some (.fits bp' bufsiz') ∧ InStep bp' bufsiz' (expanded next out item) := by
  have free := instep.free
  have size := room_succ
  have le := instep.le
  cases item with
  | literal text =>
    have fits : out.length + text.length ≤ room := fits
    have length : (expanded next out (.literal text)).length = out.length + text.length := List.length_append
    obtain ⟨bp', stored, holds⟩ := instep.holds.puts text (by omega)
    refine ⟨bp', bufsiz - text.length, ?_, holds, by omega, by omega⟩
    rw [copy, if_neg (by omega), stored]
    rfl
  | concat =>
    have shorter : (out.rdropWhile (· = ' ')).length ≤ out.length := (List.rdropWhile_prefix (fun c => decide (c = ' ')) out).length_le
    have same : expanded next out .concat = out.rdropWhile (· = ' ') := rfl
    obtain ⟨bp', stops, holds⟩ := blanks_some (out.length + 1) bufsiz instep.holds (Nat.lt_succ_self _) steady
    rw [same]
    refine ⟨bp', bufsiz + (out.length - (out.rdropWhile (· = ' ')).length), ?_, holds, by omega, by omega⟩
    rw [copy, instep.holds.pos]
    exact stops
  | stringize arg => cases steady
  | parameter concat arg =>
    obtain ⟨n, buf, got, holds, length, short⟩ := expandarg_fits instep fits
    refine ⟨buf, bufsiz - n, ?_, holds, by omega, by omega⟩
    have pos : bp.pos + n = buf.pos := by rw [instep.holds.pos, holds.pos, length]
    rw [copy, got, Option.bind_some]
    simp [pos, Cursor.seek_pos]
  | other c =>
    have fits : out.length < room := fits
    have length : (expanded next out (.other c)).length = out.length + 1 := List.length_append
    obtain ⟨bp', stored, holds⟩ := instep.holds.put (by omega) c
    refine ⟨bp', bufsiz - 1, ?_, holds, by omega, by omega⟩
    rw [copy, if_neg (by omega), stored]
    rfl

/-- The opening quote and the text of a stringizer. -/
theorem stringize_length (arg : List Char) :
    (expanded next out (.stringize arg)).length = out.length + 2 + (arg.flatMap escape).length := by
  have same : expanded next out (.stringize arg) = out ++ '"' :: arg.flatMap escape ++ ['"'] := rfl
  rw [same]
  simp only [List.length_append, List.length_cons, List.length_nil]
  omega

/-- What does not fit is reported. -/
theorem copy_long {item : Item} (instep : InStep bp bufsiz out) (long : ¬Fits next out item) : copy next item bp bufsiz = some .long := by
  have free := instep.free
  have size := room_succ
  have le := instep.le
  cases item with
  | literal text =>
    have long : ¬out.length + text.length ≤ room := long
    rw [copy, if_pos (by omega)]
  | concat => exact absurd trivial long
  | stringize arg =>
    have long : ¬(out.length + 3 ≤ room ∧ (expanded next out (.stringize arg)).length ≤ room + 1) := long
    rw [stringize_length] at long
    rw [copy]
    by_cases full : bufsiz < 3
    · rw [if_pos full]
    · obtain ⟨bp', stored, holds⟩ := instep.holds.put (by omega) '"'
      have text := quoted_long arg bufsiz holds (by rw [List.length_append, List.length_singleton]; omega) (by omega) (by omega)
      rw [if_neg full, stored, Option.bind_some, text]
      rfl
  | parameter concat arg =>
    obtain ⟨buf, got⟩ := expandarg_long instep long
    rw [copy, got]
    rfl
  | other c =>
    have long : ¬out.length < room := long
    rw [copy, if_pos (by omega)]

/-- A `##` behind nothing reads outside the buffer, and a `#` stores two bytes that are not counted. -/
theorem copy_unsteady {item : Item} (instep : InStep bp bufsiz out) (fits : Fits next out item) (unsteady : ¬Steady out item) :
    copy next item bp bufsiz = none ∨
      ∃ bp' bufsiz', copy next item bp bufsiz = some (.fits bp' bufsiz') ∧ bufsiz' ≠ room - bp'.pos := by
  have free := instep.free
  have size := room_succ
  have le := instep.le
  cases item with
  | literal text => exact absurd trivial unsteady
  | concat =>
    left
    have blank : ∀ c ∈ out, c = ' ' := by simpa [Steady] using unsteady
    rw [copy, instep.holds.pos]
    exact blanks_none _ instep.holds (Nat.lt_succ_self _) blank
  | stringize arg =>
    right
    have fits : out.length + 3 ≤ room ∧ (expanded next out (.stringize arg)).length ≤ room + 1 := fits
    rw [stringize_length] at fits
    obtain ⟨bp', stored, holds⟩ := instep.holds.put (by omega) '"'
    have length : (out ++ ['"']).length = out.length + 1 := by simp
    obtain ⟨bp'', text, holds'⟩ := quoted_fits arg bufsiz holds (by omega) (by omega)
    obtain ⟨last, stored', holds''⟩ := holds'.put (by rw [List.length_append]; omega) '"'
    refine ⟨last, bufsiz - (arg.flatMap escape).length, ?_, ?_⟩
    · rw [copy, if_neg (by omega), stored, Option.bind_some, text, Option.bind_some]
      simp only [stored', Option.map_some]
    · rw [holds''.pos, List.length_append, List.length_append, List.length_singleton]
      omega
  | parameter concat arg => exact absurd trivial unsteady
  | other c => exact absurd trivial unsteady

/-! Runs. -/

variable {t t' : State} {item : Item} {after : Option (List Char)}

theorem step_item (fetched : fetch mp t.s = some (item, after)) :
    step next mp t = proceed (copy next item t.bp t.bufsiz) after := by
  have left : t.s ≠ [] := by
    intro nothing
    rw [nothing] at fetched
    cases fetched
  rw [step, if_neg left, fetched]

theorem step_end (ended : t.s = []) (instep : InStep t.bp t.bufsiz out) :
    ∃ size buffer, step next mp t = .done (.copied size buffer) := by
  have size := room_succ
  have le := instep.le
  obtain ⟨bp, stored, -⟩ := instep.holds.store (by omega) '\x00'
  exact ⟨bp.pos, bp.bytes, by rw [step, if_pos ended, stored]⟩

/-- The loop comes where the definition leads it, as long as the variables stay in step on the way. -/
theorem reached_runs (buffer : Buffer)
    (keeps : ∀ n t out item rest, Runs (step next mp) n (start mp buffer) [] t → Reached next mp t.s out →
      InStep t.bp t.bufsiz out → fetch mp t.s = some (item, some rest) → Fits next out item → Steady out item)
    (reached : Reached next mp s out) :
    ∃ n t, Runs (step next mp) n (start mp buffer) [] t ∧ t.s = s ∧ InStep t.bp t.bufsiz out := by
  induction reached with
  | start => exact ⟨0, start mp buffer, .refl _, rfl, buffer.fresh, by simp [start], Nat.zero_le _⟩
  | @item s rest out item before fetched fits ih =>
    obtain ⟨n, t, run, rfl, instep⟩ := ih
    have steady := keeps n t out item rest run before instep fetched fits
    obtain ⟨bp, bufsiz, copied, instep'⟩ := copy_fits instep fits steady
    have head : step next mp t = .more [] ⟨rest, bp, bufsiz⟩ := by rw [step_item fetched, copied, proceed]
    exact ⟨n + 1, ⟨rest, bp, bufsiz⟩, run.trans (.one head), rfl, instep'⟩

/-- In the buffer, with the count in step, the loop meets no `#` that it carries out, no `##` behind nothing and no
end of the definition inside an item. -/
theorem copies_steady (copies : Copies next mp buffer) {n : Nat} (run : Runs (step next mp) n (start mp buffer) [] t)
    (instep : InStep t.bp t.bufsiz out) (fetched : fetch mp t.s = some (item, after)) (fits : Fits next out item) :
    Steady out item ∧ after.isSome := by
  have inside := copies.inside n [] t run
  rw [step_item fetched] at inside
  have steady : Steady out item := by
    by_contra unsteady
    rcases copy_unsteady instep fits unsteady with outside | ⟨bp, bufsiz, copied, apart⟩
    · rw [outside] at inside
      exact inside rfl
    · cases after with
      | none =>
        rw [copied] at inside
        exact inside rfl
      | some rest =>
        have head : step next mp t = .more [] ⟨rest, bp, bufsiz⟩ := by rw [step_item fetched, copied, proceed]
        exact apart (copies.counted (n + 1) [] _ (run.trans (.one head)))
  refine ⟨steady, ?_⟩
  obtain ⟨bp, bufsiz, copied, -⟩ := copy_fits instep fits steady
  rw [copied] at inside
  cases after with
  | none => exact absurd rfl inside
  | some rest => rfl

theorem copies_stays (copies : Copies next mp buffer) : StaysSteady next mp := by
  intro s out reached left
  obtain ⟨n, t, run, rfl, instep⟩ := reached_runs buffer (fun n t out item rest run _ instep fetched fits =>
    (copies_steady copies run instep fetched fits).1) reached
  cases fetched : fetch mp t.s with
  | none =>
    refine absurd ?_ (copies.inside n [] t run)
    rw [step, if_neg left, fetched]
  | some found =>
    obtain ⟨item, after⟩ := found
    exact ⟨item, after, rfl, copies_steady copies run instep fetched⟩

/-- A turn where the variables stay in step. -/
theorem step_steady (steady : StaysSteady next mp) (reached : Reached next mp t.s out) (instep : InStep t.bp t.bufsiz out) :
    (∃ size buffer, step next mp t = .done (.copied size buffer)) ∨ step next mp t = .done .long ∨
      ∃ t' out', step next mp t = .more [] t' ∧ Reached next mp t'.s out' ∧ InStep t'.bp t'.bufsiz out' := by
  by_cases ended : t.s = []
  · exact .inl (step_end ended instep)
  · obtain ⟨item, after, fetched, keeps⟩ := steady t.s out reached ended
    by_cases fits : Fits next out item
    · obtain ⟨kept, more⟩ := keeps fits
      obtain ⟨rest, rfl⟩ := Option.isSome_iff_exists.mp more
      obtain ⟨bp, bufsiz, copied, instep'⟩ := copy_fits instep fits kept
      refine .inr (.inr ⟨⟨rest, bp, bufsiz⟩, _, ?_, .item reached fetched fits, instep'⟩)
      rw [step_item fetched, copied, proceed]
    · refine .inr (.inl ?_)
      rw [step_item fetched, copy_long instep fits, proceed]

theorem runs_steady (steady : StaysSteady next mp) {n : Nat} {es : List Unit} (run : Runs (step next mp) n (start mp buffer) es t) :
    ∃ out, Reached next mp t.s out ∧ InStep t.bp t.bufsiz out := by
  refine run.invariant (P := fun t => ∃ out, Reached next mp t.s out ∧ InStep t.bp t.bufsiz out) ?_ ?_
  · rintro t es t' ⟨out, reached, instep⟩ head
    rcases step_steady steady reached instep with ⟨size, buffer, ends⟩ | ends | ⟨u, out', goes, reached', instep'⟩
    · rw [ends] at head
      cases head
    · rw [ends] at head
      cases head
    · rw [goes] at head
      cases head
      exact ⟨out', reached', instep'⟩
  · exact ⟨[], .start, buffer.fresh, by simp [start], Nat.zero_le _⟩

/-- What is expanded fits, or there is an item on the way to it that does not. -/
theorem expands_reached (expands : Expands next mp s out) :
    Reached next mp s out ∨ ∃ s' out' item after, Reached next mp s' out' ∧ fetch mp s' = some (item, after) ∧ ¬Fits next out' item := by
  induction expands with
  | start => exact .inl .start
  | @item s rest out item before fetched ih =>
    rcases ih with reached | stopped
    · by_cases fits : Fits next out item
      · exact .inl (.item reached fetched fits)
      · exact .inr ⟨s, out, item, some rest, reached, fetched, fits⟩
    · exact .inr stopped

theorem stays_copies (steady : StaysSteady next mp) : Copies next mp buffer where
  inside n es t run outside := by
    obtain ⟨out, reached, instep⟩ := runs_steady steady run
    rcases step_steady steady reached instep with ⟨size, buffer, ends⟩ | ends | ⟨u, out', goes, -⟩
    · rw [ends] at outside
      cases outside
    · rw [ends] at outside
      cases outside
    · rw [goes] at outside
      cases outside
  counted n es t run := by
    obtain ⟨out, -, instep⟩ := runs_steady steady run
    rw [instep.holds.pos]
    exact instep.free
  reported out expands long := by
    have keeps : ∀ n t out item rest, Runs (step next mp) n (start mp buffer) [] t → Reached next mp t.s out →
        InStep t.bp t.bufsiz out → fetch mp t.s = some (item, some rest) → Fits next out item → Steady out item := by
      intro n t out item rest _ reached _ fetched fits
      have left : t.s ≠ [] := by
        intro nothing
        rw [nothing] at fetched
        cases fetched
      obtain ⟨item', after, fetched', kept⟩ := steady t.s out reached left
      cases fetched.symm.trans fetched'
      exact (kept fits).1
    rcases expands_reached expands with reached | ⟨s, out', item, after, reached, fetched, more⟩
    · obtain ⟨n, t, -, -, instep⟩ := reached_runs buffer keeps reached
      exact absurd instep.le (Nat.not_le_of_lt long)
    · obtain ⟨n, t, run, rfl, instep⟩ := reached_runs buffer keeps reached
      exact ⟨n, t, run, by rw [step_item fetched, copy_long instep more, proceed]⟩

/-! The symbols that are printed. -/

theorem decimal_length (lineno : BitVec 32) : (decimal lineno.toInt).length ≤ 11 := by
  have small : lineno.toInt.natAbs < 10 ^ 10 := by
    have := lineno.toInt_lt
    have := lineno.le_toInt
    omega
  have digits := numeral_length_le (k := 9) (by decide) Nat.digitChar small
  rw [decimal, List.length_append]
  split
  · rw [List.length_singleton]
    omega
  · rw [List.length_nil]
    omega

theorem sprintf_fits {text : List Char} (short : text.length < INPUTSIZ) : (sprintf buffer.line text).isSome := by
  obtain ⟨b, stored, holds⟩ := buffer.fresh.puts text (by rw [List.length_nil]; omega)
  obtain ⟨b', null, -⟩ := holds.store (by simpa using short) '\x00'
  rw [sprintf, stored, Option.bind_some, null]
  rfl

theorem printed_length {sym : Sym} {text : List Char} (prints : printed sym = some text) : text.length < INPUTSIZ := by
  have size : INPUTSIZ = 4095 := rfl
  cases sym with
  | symfile filenam short =>
    cases prints
    have name : FILENAME_MAX = 256 := rfl
    simp only [List.length_append, List.length_cons, List.length_nil]
    omega
  | symline lineno =>
    cases prints
    have digits := decimal_length lineno
    simp only [List.length_append, List.length_cons, List.length_nil]
    omega
  | defined => cases prints

/-- An expansion is right if and only if the loop stays in the definition and in step. -/
theorem copymacro_right (next : List Char → List (List Char)) (mp : Macro) (buffer : Buffer) :
    Right next mp buffer ↔ (printed mp.sym = none → StaysSteady next mp) := by
  unfold Right
  cases prints : printed mp.sym with
  | some text => exact iff_of_true (sprintf_fits (printed_length prints)) nofun
  | none => exact ⟨fun copies _ => copies_stays copies, fun steady => stays_copies (steady rfl)⟩

/-- `#define s(x) #x`, called with one letter. -/
def stringizer : Macro := ⟨.defined, [STRINGIZE, MACROPAR, '0', '0', MACROPAR, ' '], [['a']]⟩

def emptyBuffer : Buffer := ⟨.blank INPUTSIZ '\x00', Cursor.blank_holds _ _⟩

theorem stringizer_uncounted : ¬Right (fun _ => []) stringizer emptyBuffer := by
  intro right
  obtain ⟨item, after, fetched, keeps⟩ := copies_stays right stringizer.body [] .start (List.cons_ne_nil _ _)
  have read : fetch stringizer stringizer.body = some (.stringize ['a'], some [' ']) := by decide
  cases read.symm.trans fetched
  have fits : Fits (fun _ => []) [] (.stringize ['a']) := by
    constructor <;> decide
  exact (keeps fits).1

end Scc.Cc1.Expansion
