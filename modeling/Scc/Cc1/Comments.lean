import Mathlib.Data.List.Basic

set_option linter.all false

/-! How cc1 reads the lines of a file and discards comments (`readchar`, `comment` and `readline` in `lex.c`).
A byte of `input->line` is kept together with what was read for it. -/
namespace Scc.Cc1.Comments

def INPUTSIZ : Nat := 4095

/-- A `FILE`, with what `getc` has not given yet and what `feof` says, and the line number. -/
structure File where
  rest : List Char
  lineno : Nat := 0
  feof : Bool := false
  deriving DecidableEq, Repr

/-- `getc` until a character is there; `none` is `EOF`. -/
def getchars (lineno : Nat) (feof : Bool) : List Char → Option Char × File
  | [] => (none, ⟨[], lineno, true⟩)
  | '\\' :: '\n' :: rest => getchars (lineno + 1) feof rest
  -- `ungetc` of `EOF` does nothing, and `feof` stays.
  | ['\\'] => (some '\\', ⟨[], lineno, true⟩)
  | '\n' :: rest => (some '\n', ⟨rest, lineno + 1, feof⟩)
  | c :: rest => (some c, ⟨rest, lineno, feof⟩)

def readchar (fp : File) : Option Char × File := getchars fp.lineno fp.feof fp.rest

/-- Whether the comment ends, and what it skips. -/
def comment (type : Char) : Nat → List Char → File → Bool × List Char × File
  | 0, skipped, fp => (false, skipped, fp)
  | n + 1, skipped, fp =>
    match readchar fp with
    | (none, fp) => (false, skipped, fp)
    | (some c, fp) =>
      if c ≠ type then comment type n (skipped ++ [c]) fp
      else if type ≠ '*' then (true, skipped, fp)
      else
        match readchar fp with
        | (some '/', fp) => (true, skipped, fp)
        | (some d, fp) => comment type n (skipped ++ [c, d]) fp
        | (none, fp) => comment type n (skipped ++ [c]) fp

/-- A part of a file after the lines have been joined: a character that is kept, a comment without what
opens and closes it, or the end of a line. -/
inductive Piece where
  | char (c : Char)
  | block (body : List Char)
  | line (body : List Char)
  | newline
  deriving DecidableEq, Repr

/-- What the lexer gets. -/
def Piece.byte : Piece → Option Char
  | .char c => some c
  | .block _ => some ' '
  | .line _ => none
  | .newline => some '\n'

/-- The variables of `readline`; `peekc` is `none` when it is 0, as it is for a null character, and `error` is
what `errorp` was called with. -/
structure Loop where
  line : List Piece := []
  peekc : Option (Option Char) := none
  delim : Option Char := none
  file : File
  error : List String := []
  deriving DecidableEq, Repr

/-- `bp - input->line` -/
def Loop.bp (s : Loop) : Nat := (s.line.filterMap Piece.byte).length

/-- `lim - input->line` -/
def lim : Nat := INPUTSIZ - 1

def delimiter (delim : Option Char) (c : Char) : Option Char :=
  if delim = some c then none
  else if delim = none ∧ (c = '"' ∨ c = '\'') then some c
  else delim

/-- `comment`, with its error. -/
def Loop.comment (s : Loop) (type : Char) : List Char × Loop :=
  let (closed, body, fp) := Comments.comment type (s.file.rest.length + 2) [] s.file
  (body, { s with file := fp, error := if closed then s.error else s.error ++ ["unterminated comment"] })

/-- `c = (peekc) ? peekc : readchar()` -/
def Loop.fetch (s : Loop) : Option Char × Loop :=
  match s.peekc with
  | some c => (c, { s with peekc := none })
  | none => ((readchar s.file).1, { s with file := (readchar s.file).2 })

/-- After a backslash. -/
def Loop.backslash (s : Loop) : Bool × Loop :=
  match readchar s.file with
  | (none, fp) => (true, { s with line := s.line ++ [.char '\\'], peekc := some none, file := fp })
  | (some d, fp) =>
    if d = '\n' then (true, { s with line := s.line ++ [.char '\\'], peekc := some (some d), file := fp })
    else if s.bp = lim - 2 then (false, { s with file := fp })
    else (true, { s with line := s.line ++ [.char '\\', .char d], file := fp })

/-- After a slash outside literals. -/
def Loop.slash (s : Loop) : Bool × Loop :=
  match readchar s.file with
  | (none, fp) => (true, { s with line := s.line ++ [.char '/'], peekc := some none, file := fp })
  | (some d, fp) =>
    let s := { s with file := fp }
    if d = '/' then (false, { (s.comment '\n').2 with line := s.line ++ [.line (s.comment '\n').1] })
    else if d = '*' then (true, { (s.comment '*').2 with line := s.line ++ [.block (s.comment '*').1] })
    else (true, { s with line := s.line ++ [.char '/'], peekc := if d = '\x00' then none else some (some d) })

/-- A turn of the loop in `readline`, and whether it goes on. -/
def Loop.turn (s : Loop) : Bool × Loop :=
  match s.fetch with
  | (none, s) => (false, s)
  | (some c, s) =>
    if c = '\n' then (false, s)
    else if c = '\\' then s.backslash
    else
      let s := { s with delim := delimiter s.delim c }
      if c ≠ '/' ∨ s.delim.isSome then (true, { s with line := s.line ++ [.char c] }) else s.slash

/-- The loop of `readline`. Each turn that goes on stores a byte. -/
def Loop.run : Nat → Loop → Loop
  | 0, s => s
  | n + 1, s =>
    if s.bp < lim - 1 then
      match s.turn with
      | (true, s) => run n s
      | (false, s) => s
    else s

/-- A call of `readline`: the line, the errors and the file after it. -/
structure Line where
  pieces : List Piece
  error : List String
  file : File
  deriving DecidableEq, Repr

def readline (fp : File) : Option Line :=
  if fp.feof then none
  else
    let s := Loop.run INPUTSIZ { file := fp }
    if s.bp = lim - 1 then some ⟨s.line.dropLast ++ [.newline], s.error ++ ["line too long"], s.file⟩
    else some ⟨s.line ++ [.newline], s.error, s.file⟩

/-- The calls of `readline` until it returns 0. -/
def readlines : Nat → File → List Line
  | 0, _ => []
  | n + 1, fp =>
    match readline fp with
    | none => []
    | some l => l :: readlines n l.file

def UINT_MAX : Nat := 4294967295

/-- The lines of a file. The program ends when the number of a line does not fit in an `unsigned`. -/
def readfile (text : List Char) : Option (List Line) :=
  let lines := readlines (text.length + 2) ⟨text, 0, false⟩
  if lines.all fun l => l.file.lineno ≤ UINT_MAX then some lines else none

end Scc.Cc1.Comments
