import Mathlib.Data.List.Basic
import Scc.Make.Rules

set_option linter.all false

/-! The macros of `make` and how a line is expanded by them (make/parser.c). -/
namespace Scc.Make

/-- A string, which has neither a NUL in it nor the character that `nextc` gives at the end. -/
abbrev Text := List Char

def MAXREPL : Nat := 30

def MAXTOKEN : Nat := 256

/-- The definitions, with what the environment has. -/
abbrev Macros := List (Name × Text)

/-- A macro that is not defined is empty. -/
def getmacro (table : Macros) (name : Name) : Text := (table.lookup name).getD []

/-- The target whose actions are expanded, with the names of what it needs that is newer. -/
structure Tp where
  target : Text
  req : Text
  newer : List Text

/-- What `expansion` reads behind a `$`. -/
inductive Reference where
  | internal (c : Char)
  | macro_ (name repl to_ : Text)
  deriving DecidableEq

def validchar (c : Char) : Bool := c = '.' || c = '/' || c = '_' || c = '-' || c.isAlphanum

/-- The loop between the parentheses: the macro, then what is replaced and by what. `n` characters have
been read. -/
def readref (delim : Char) (st : Nat) (name repl to_ : Text) (n : Nat) : Text → Except String (Reference × Nat)
  | [] => .error "found eof while parsing expansion"
  | c :: s =>
    if c = delim then
      if st > 0 && (name.isEmpty || repl.isEmpty) then .error "invalid macro expansion"
      else .ok (.macro_ name repl to_, n + 1)
    else
      match st with
      | 0 =>
        if c = ':' then readref delim 1 name repl to_ (n + 1) s
        else if !validchar c then .error "invalid macro name in expansion"
        else if name.length = MAXTOKEN - 1 then .error "expansion text too long"
        else readref delim 0 (name ++ [c]) repl to_ (n + 1) s
      | 1 =>
        if c = '=' then readref delim 2 name repl to_ (n + 1) s
        else if repl.length = MAXREPL - 1 then .error "macro replacement too big"
        else readref delim 1 name (repl ++ [c]) to_ (n + 1) s
      | _ =>
        if to_.length = MAXREPL - 1 then .error "macro substiturion too big"
        else readref delim 2 name repl (to_ ++ [c]) (n + 1) s

/-- The reference at the beginning of a text, and how many characters of it are read. At the end the name
is what the end of the input is as a character. -/
def expansion : Text → Except String (Reference × Nat)
  | [] => .ok (.macro_ [Char.ofNat 255] [] [], 0)
  | '(' :: s => readref ')' 0 [] [] [] 1 s
  | '{' :: s => readref '}' 0 [] [] [] 1 s
  | c :: _ => if c ∈ ['@', '<', '*', '?'] then .ok (.internal c, 1) else .ok (.macro_ [c] [] [], 1)

/-- The name without its suffix. -/
def stem (target : Text) : Text :=
  match target.reverse.dropWhile (· ≠ '.') with
  | [] => target
  | _ :: s => s.reverse

/-- What is pushed for an internal macro; without a target it is nothing. -/
def expandsimple : Option Tp → Char → Text
  | none, _ => []
  | some tp, '@' => tp.target
  | some tp, '<' => tp.req
  | some tp, '*' => stem tp.target
  | some tp, _ => tp.newer.reverse.flatMap (· ++ [' '])

/-- The loop of `expandmacro`, which passes over the rest of a text that it has replaced. -/
def replace (repl to_ : Text) : Nat → Text → Text
  | _, [] => []
  | skip + 1, _ :: s => replace repl to_ skip s
  | 0, c :: s =>
    if !repl.isEmpty && repl.isPrefixOf (c :: s) then to_ ++ replace repl to_ (repl.length - 1) s
    else c :: replace repl to_ 0 s

/-- The input stack as the characters that `nextc` reads one after another. A character is marked where
it comes out of an expansion, not of the line itself. -/
abbrev Input := List (Char × Bool)

def Input.line (s : Text) : Input := s.map fun c => (c, false)

def push (s : Text) (input : Input) : Input := s.map (fun c => (c, true)) ++ input

/-- The text that a line is expanded to, and whether a `$` that came out of an expansion was taken for more
than itself. -/
structure Expanded where
  text : Except String Text
  taken : Bool

def Expanded.prepend (s : Text) (e : Expanded) : Expanded := { e with text := (s ++ ·) <$> e.text }

def Expanded.take (taken : Bool) (e : Expanded) : Expanded := { e with taken := taken || e.taken }

/-- At most so many steps are made, one behind the other or inside a value. -/
def expandstring (table : Macros) : Nat → Option Tp → Input → Option Expanded
  | 0, _, _ => none
  | _ + 1, _, [] => some ⟨.ok [], false⟩
  | steps + 1, tp, (c, out) :: input =>
    if c ≠ '$' then (expandstring table steps tp input).map (.prepend [c])
    else if (input.head?.map Prod.fst) = some '$' then
      (expandstring table steps tp input.tail).map fun e => (e.prepend ['$']).take out
    else
      match expansion (input.map Prod.fst) with
      | .error msg => some ⟨.error msg, out⟩
      | .ok (.internal i, n) =>
        (expandstring table steps tp (push (expandsimple tp i) (input.drop n))).map (.take out)
      | .ok (.macro_ name repl to_, n) => do
        let value ← expandstring table steps none (.line ( getmacro table name))
        match value.text with
        | .error msg => return ⟨.error msg, out || value.taken⟩
        | .ok s => do
          let e ← expandstring table steps tp (push (replace repl to_ 0 s) (input.drop n))
          return e.take (out || value.taken)

/-! What the expansion should be: a reference stands for a text that is not read again. -/

/-- What a text stands for, where each text that takes the place of a reference is one that is allowed. The
first error ends the expansion. -/
inductive Expands (allowed : Text → Prop) (table : Macros) : Option Tp → Text → Except String Text → Prop where
  | nil {tp : Option Tp} : Expands allowed table tp [] (.ok [])
  | char {tp : Option Tp} {c : Char} {s : Text} {r : Except String Text} (plain : c ≠ '$')
      (rest : Expands allowed table tp s r) : Expands allowed table tp (c :: s) (([c] ++ ·) <$> r)
  | dollar {tp : Option Tp} {s : Text} {r : Except String Text} (rest : Expands allowed table tp s r) :
      Expands allowed table tp ('$' :: '$' :: s) ((['$'] ++ ·) <$> r)
  | invalid {tp : Option Tp} {s : Text} {msg : String} (single : s.head? ≠ some '$')
      (read : expansion s = .error msg) : Expands allowed table tp ('$' :: s) (.error msg)
  | internal {tp : Option Tp} {s : Text} {c : Char} {n : Nat} {r : Except String Text} (single : s.head? ≠ some '$')
      (read : expansion s = .ok (.internal c, n)) (text : allowed (expandsimple tp c))
      (rest : Expands allowed table tp (s.drop n) r) :
      Expands allowed table tp ('$' :: s) ((expandsimple tp c ++ ·) <$> r)
  | failed {tp : Option Tp} {s name repl to_ : Text} {n : Nat} {msg : String} (single : s.head? ≠ some '$')
      (read : expansion s = .ok (.macro_ name repl to_, n))
      (value : Expands allowed table none ( getmacro table name) (.error msg)) :
      Expands allowed table tp ('$' :: s) (.error msg)
  | macro_ {tp : Option Tp} {s name repl to_ v : Text} {n : Nat} {r : Except String Text} (single : s.head? ≠ some '$')
      (read : expansion s = .ok (.macro_ name repl to_, n))
      (value : Expands allowed table none ( getmacro table name) (.ok v)) (text : allowed (replace repl to_ 0 v))
      (rest : Expands allowed table tp (s.drop n) r) :
      Expands allowed table tp ('$' :: s) ((replace repl to_ 0 v ++ ·) <$> r)

/-- What a text stands for. -/
abbrev Stands : Macros → Option Tp → Text → Except String Text → Prop := Expands fun _ => True

/-- It stands for it without a text with a `$` in the place of a reference. -/
abbrev Free : Macros → Option Tp → Text → Except String Text → Prop := Expands fun s => '$' ∉ s

/-- The expansion ends with what the text stands for, and no `$` that came out of a reference was taken for
the beginning of one. -/
def Once (table : Macros) (tp : Option Tp) (s : Text) : Prop :=
  ∃ steps r, expandstring table steps tp (.line s) = some ⟨r, false⟩ ∧ Stands table tp s r

/-- The macros that a text refers to up to its first invalid reference. -/
def references : Nat → Text → List Name
  | _, [] => []
  | skip + 1, _ :: s => references skip s
  | 0, c :: s =>
    if c ≠ '$' then references 0 s
    else if s.head? = some '$' then references 1 s
    else
      match expansion s with
      | .error _ => []
      | .ok (.internal _, n) => references n s
      | .ok (.macro_ name _ _, n) => name :: references n s

/-- The value of the macro refers to the other one. -/
def Refers (table : Macros) (name other : Name) : Prop := other ∈ references 0 ( getmacro table name)

end Scc.Make
