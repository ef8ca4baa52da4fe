import Scc.As.Symbol

set_option linter.all false

/-! The fields of a line in the assembler (`field`, `validlabel`, `extract` and `nextline` in as/parser.c). A
pointer in the line is the text from there to its end. -/
namespace Scc.As.Fields

def isspace (c : Char) : Bool := c = ' ' || ('\t' ≤ c && c ≤ '\r')

def NUL : Char := '\x00'

/-- A string in the buffer. -/
def cstring (buff : List Char) : List Char := buff.takeWhile (· ≠ NUL)

/-- `while (t >= s && isspace(*t)) *t-- = '\0'`, from the bytes before `t`, last one first, and those from `t`. -/
def trim : List Char → List Char → List Char
  | before, [] => before.reverse
  | before, c :: t =>
    if isspace c then
      match before with
      | [] => NUL :: t
      | b :: before => trim before (b :: NUL :: t)
    else before.reverse ++ c :: t

/-- The field that starts at a pointer, and where the next one starts; `none` is a null pointer. -/
def field : Option (List Char) → Option (List Char) × Option (List Char)
  | none => (none, none)
  | some begin =>
    let s := begin.dropWhile fun c => isspace c && c ≠ '\t'
    if s = [] ∨ s.head? = some '#' then (none, none)
    else
      let before := s.takeWhile (· ≠ '\t')
      let (before, t) :=
        match s.dropWhile (· ≠ '\t') with
        | [] => (before, [])
        | _ :: t => (before ++ [NUL], t)
      let buff := trim before.reverse t
      (if cstring buff ≠ [] then some (cstring buff) else none, some (cstring (buff.drop before.length)))

/-- The label without the colon at its end, if it is valid. -/
def validlabel : List Char → Option (List Char)
  | [] => some []
  | c :: name =>
    if c.isAlphanum || c = '_' || c = '.' || c = '$' then (validlabel name).map (c :: ·)
    else if c = ':' ∧ name = [] then some []
    else none

/-- What becomes of a line. -/
inductive Outcome where
  | skipped
  | error (msg : String)
  | fields (label op args : Option (List Char))
  deriving DecidableEq

/-- `extract`, with the test of its result in `nextline`. -/
def extract (s : List Char) : Outcome :=
  let (label, s) := field (some s)
  let (op, s) := field s
  let (args, s) := field s
  match s with
  | some (c :: _) => if c ≠ '#' then .error "trailing characters at the end of the line" else found label op args
  | _ => found label op args
where
  found (label op args : Option (List Char)) : Outcome :=
    match label with
    | none => if op = none ∧ args = none then .skipped else .fields none op args
    | some label =>
      match validlabel label with
      | none => .error "incorrect label name '%s'"
      | some label => .fields (some label) op args

/-! What a line says. -/

/-- The parts between the tabs. -/
def parts (line : List Char) : List (List Char) := line.splitOn '\t'

/-- Without the blanks before it. -/
def ltrim (part : List Char) : List Char := part.dropWhile isspace

def rtrim (part : List Char) : List Char := (part.reverse.dropWhile isspace).reverse

def comment (part : List Char) : Bool :=
  match ltrim part with
  | '#' :: _ => true
  | _ => false

/-- The parts before the one that begins the comment. -/
def uncommented (parts : List (List Char)) : List (List Char) := parts.takeWhile fun part => !comment part

/-- A part without the blanks around it, absent if there is nothing else. -/
def text (part : List Char) : Option (List Char) := if rtrim (ltrim part) = [] then none else some (rtrim (ltrim part))

/-- The label, the operation and the arguments are the first three parts, and a line with a part is not skipped. -/
def Right (line : List Char) : Prop :=
  (∀ label op args, extract line = .fields label op args →
    label = (((uncommented (parts line))[0]?.bind text).bind validlabel) ∧
      op = (uncommented (parts line))[1]?.bind text ∧ args = (uncommented (parts line))[2]?.bind text) ∧
    (extract line = .skipped → ∀ part ∈ uncommented (parts line), text part = none)

/-- White space follows the tab. -/
def Lost : List (List Char) → Prop
  | [] => False
  | [] :: ps => ps ≠ []
  | (c :: _) :: _ => isspace c

/-- No field that is read ends with a blank, and after a tab with white space behind it there is no other field to
be read, where so many are left; if there has been none before, there is none at all. -/
def Tidy : Nat → Prop → List (List Char) → Prop
  | 0, seen, ps => seen ∨ ∀ q ∈ uncommented ps, text q = none
  | _, _, [] => True
  | n + 1, seen, p :: ps =>
    comment p ∨
      (∀ c, (ltrim p).getLast? = some c → isspace c = false) ∧
        ((Lost ps ∧ (∀ q ∈ (uncommented ps).take n, text q = none) ∧ ((seen ∨ ltrim p ≠ []) ∨ ∀ q ∈ uncommented ps, text q = none)) ∨
          ¬ Lost ps ∧ Tidy n (seen ∨ ltrim p ≠ []) ps)

/-- A label with a character that none can have. -/
def BadLabel (ps : List (List Char)) : Prop := ∃ p rest, ps = p :: rest ∧ comment p = false ∧ validlabel (ltrim p) = none

/-- A character that is read after so many fields. -/
def Trailing : Nat → List (List Char) → Prop
  | 0, ps => ∃ d rest more, ps = (d :: rest) :: more ∧ d ≠ '#'
  | _, [] => False
  | n + 1, p :: ps => comment p = false ∧ ps ≠ [] ∧ ¬ Lost ps ∧ Trailing n ps

end Scc.As.Fields
