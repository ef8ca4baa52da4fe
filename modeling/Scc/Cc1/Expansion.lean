import Scc.Cc1.Comments
import Scc.Memory.Buffer
import Scc.Text.Numeral
import Scc.Transition.Runs
import Mathlib.Data.List.DropRight

set_option linter.all false

/-! The expansion of a macro (`copymacro` in `cpp.c`) in the buffer that `expand` gives it. Texts are without
their NUL. -/
namespace Scc.Cc1.Expansion
open Comments Memory Transition Text

def MACROPAR : Char := '\x11'

def CONCAT : Char := '\x12'

def STRINGIZE : Char := '\x13'

def FILENAME_MAX : Nat := 256

/-- `mp->bufsiz`: the last byte of the buffer is for the NUL. -/
def room : Nat := INPUTSIZ - 1

/-- `symfile` and `symline`, with what is printed for them (`setloc` bounds the name), or another symbol. -/
inductive Sym where
  | symfile (filenam : List Char) (short : filenam.length < FILENAME_MAX)
  | symline (lineno : BitVec 32)
  | defined

/-- A macro: `body` is `def`. -/
structure Macro where
  sym : Sym
  body : List Char
  arglist : List (List Char)

def isspace (c : Char) : Bool := c = ' ' || ('\t' ≤ c && c ≤ '\r')

/-- `atoi`; a number that does not fit is as far from any argument. -/
def atoi (s : List Char) : Int :=
  let digits (t : List Char) : Nat := readDigits 10 (fun c => c.toNat - 48) (t.takeWhile Char.isDigit)
  match s.dropWhile isspace with
  | '-' :: t => -digits t
  | '+' :: t => digits t
  | t => digits t

/-- `arglist[atoi(s)]` -/
def argument (arglist : List (List Char)) (s : List Char) : Option (List Char) :=
  if 0 ≤ atoi s then arglist[(atoi s).toNat]? else none

/-- The texts before `cur` and from `cur` on. -/
def concatoper (before cur : List Char) : Bool :=
  ((cur.drop 4).dropWhile isspace).head? = some CONCAT || (before.reverse.dropWhile isspace).head? = some CONCAT

/-! What is copied next. -/

/-- What a turn of the loop is about. -/
inductive Item where
  | literal (text : List Char)
  | concat
  | stringize (arg : List Char)
  | parameter (concat : Bool) (arg : List Char)
  | other (c : Char)
  deriving DecidableEq

/-- The rest of a literal and what follows it. One that is not closed is taken with the NUL, and the loop goes on
behind it. -/
def literal (delim : Char) (esc : Bool) : List Char → List Char × Option (List Char)
  | [] => (['\x00'], none)
  | c :: s =>
    if c = '\\' ∧ esc = false then (c :: (literal delim true s).1, (literal delim true s).2)
    else if c = delim ∧ esc = false then ([c], some s)
    else (c :: (literal delim false s).1, (literal delim false s).2)

/-- The item at `cur` and where the loop goes on, if that is in the definition. There is no item where `arglist`
or the definition has nothing to read. -/
def fetch (mp : Macro) (cur : List Char) : Option (Item × Option (List Char)) :=
  match cur with
  | [] => none
  | c :: s =>
    if c = '\'' ∨ c = '"' then some (.literal (c :: (literal c false s).1), (literal c false s).2)
    else if c = CONCAT then some (.concat, some (s.dropWhile (· = ' ')))
    else if c = STRINGIZE then
      if cur.length < 2 then none
      else (argument mp.arglist (cur.drop 2)).map fun arg => (.stringize arg, if cur.length < 5 then none else some (cur.drop 5))
    else if c = MACROPAR then
      if cur.length < 4 then none
      else (argument mp.arglist s).map fun arg =>
        (.parameter (concatoper (mp.body.take (mp.body.length - cur.length)) cur) arg, some (cur.drop 4))
    else some (.other c, some s)

/-! Copying: there is no result where the buffer is left. -/

inductive Copied where
  | fits (bp : Cursor Char) (bufsiz : Int)
  | long

/-- `while (bp[-1] == ' ') --bp, ++bufsiz;` -/
def blanks : Nat → Cursor Char → Int → Option Copied
  | 0, _, _ => none
  | n + 1, bp, bufsiz =>
    match bp.filled.getLast? with
    | none => none
    | some c => if c = ' ' then blanks n (bp.back 1) (bufsiz + 1) else some (.fits bp bufsiz)

/-- The loop of the stringizer. -/
def quoted : List Char → Cursor Char → Int → Option Copied
  | [], bp, bufsiz => some (.fits bp bufsiz)
  | c :: arg, bp, bufsiz =>
    if c = '"' then
      if bufsiz < 3 then some .long else (bp.puts ['\\', '"']).bind fun bp => quoted arg bp (bufsiz - 2)
    else if bufsiz < 2 then some .long
    else (bp.put c).bind fun bp => quoted arg bp (bufsiz - 1)

/-- The loop of `expandarg` over the tokens of the argument, with `siz`. -/
def tokens : List (List Char) → Int → Cursor Char → Int → Option (Int × Cursor Char)
  | [], siz, buf, _ => some (siz, buf)
  | yytext :: more, siz, buf, bufsiz =>
    if bufsiz - 2 < yytext.length then some (-1, buf)
    else
      (buf.puts yytext).bind fun buf =>
        (buf.put ' ').bind fun buf => tokens more (siz + (yytext.length + 1)) buf (bufsiz - (yytext.length + 1))

section
variable (next : List Char → List (List Char))

/-- `next` gives the texts of the tokens in an argument. -/
def expandarg (concat : Bool) (arg : List Char) (buf : Cursor Char) (bufsiz : Int) : Option (Int × Cursor Char) :=
  let copied :=
    if concat then if bufsiz ≤ arg.length then some (-1, buf) else (buf.puts arg).map fun buf => ((arg.length : Int), buf)
    else tokens (next arg) 0 buf bufsiz
  copied.bind fun (siz, buf) => (buf.store '\x00').map fun buf => (siz, buf)

def copy : Item → Cursor Char → Int → Option Copied
  | .literal text, bp, bufsiz =>
    if bufsiz < text.length then some .long else (bp.puts text).map fun bp => .fits bp (bufsiz - text.length)
  | .concat, bp, bufsiz => blanks (bp.pos + 1) bp bufsiz
  | .stringize arg, bp, bufsiz =>
    if bufsiz < 3 then some .long
    else
      (bp.put '"').bind fun bp =>
        (quoted arg bp bufsiz).bind fun copied =>
          match copied with
          | .long => some .long
          | .fits bp bufsiz => (bp.put '"').map fun bp => .fits bp bufsiz
  | .parameter concat arg, bp, bufsiz =>
    (expandarg next concat arg bp bufsiz).bind fun (size, buf) =>
      if size < 0 then some .long
      else (buf.seek (bp.pos + size.toNat)).map fun bp => .fits bp (bufsiz - size)
  | .other c, bp, bufsiz =>
    -- `bufsiz-- == 0` stops at no other value.
    if bufsiz = 0 then some .long else (bp.put c).map fun bp => .fits bp (bufsiz - 1)

/-- The variables of `copymacro` at the test of its loop. -/
structure State where
  s : List Char
  bp : Cursor Char
  bufsiz : Int

/-- How the loop ends. -/
inductive End where
  | outside
  | long
  | copied (size : Nat) (buffer : List Char)

/-- Where the loop goes from an item. -/
def proceed : Option Copied → Option (List Char) → Next State Unit End
  | none, _ => .done .outside
  | some .long, _ => .done .long
  | some (.fits _ _), none => .done .outside
  | some (.fits bp bufsiz), some s => .more [] ⟨s, bp, bufsiz⟩

def step (mp : Macro) (t : State) : Next State Unit End :=
  if t.s = [] then
    match t.bp.store '\x00' with
    | none => .done .outside
    | some bp => .done (.copied bp.pos bp.bytes)
  else
    match fetch mp t.s with
    | none => .done .outside
    | some (item, rest) => proceed (copy next item t.bp t.bufsiz) rest

/-- The buffer as `addinput` allocates it. -/
structure Buffer where
  line : Cursor Char
  fresh : line.Holds INPUTSIZ []

def start (mp : Macro) (buffer : Buffer) : State := ⟨mp.body, buffer.line, room⟩

def decimal (i : Int) : List Char := (if i < 0 then ['-'] else []) ++ numeral 10 Nat.digitChar i.natAbs

/-- What `sprintf` prints for a symbol. -/
def printed : Sym → Option (List Char)
  | .symfile filenam _ => some ('"' :: filenam ++ ['"', ' '])
  | .symline lineno => some (decimal lineno.toInt ++ [' '])
  | .defined => none

def sprintf (b : Cursor Char) (text : List Char) : Option (Cursor Char) := (b.puts text).bind (·.store '\x00')

/-! The expansion. -/

/-- What an item adds to what is expanded before it. -/
def expanded (out : List Char) : Item → List Char
  | .literal text => out ++ text
  | .concat => out.rdropWhile (· = ' ')
  | .stringize arg => out ++ '"' :: (arg.flatMap fun c => if c = '"' then ['\\', '"'] else [c]) ++ ['"']
  | .parameter true arg => out ++ arg
  | .parameter false arg => out ++ (next arg).flatMap (· ++ [' '])
  | .other c => out ++ [c]

/-- What the definition is expanded to, whatever its length. -/
inductive Expands (mp : Macro) : List Char → List Char → Prop
  | start : Expands mp mp.body []
  | item {s rest out : List Char} {item : Item} (before : Expands mp s out) (fetched : fetch mp s = some (item, some rest)) :
      Expands mp rest (expanded next out item)

/-- Every byte that is read or written is in the buffer, `bufsiz` is what is left of it in every turn, and an
expansion that is longer is reported. -/
structure Copies (mp : Macro) (buffer : Buffer) : Prop where
  inside : ∀ n es t, Runs (step next mp) n (start mp buffer) es t → step next mp t ≠ .done .outside
  counted : ∀ n es t, Runs (step next mp) n (start mp buffer) es t → t.bufsiz = room - t.bp.pos
  reported : ∀ out, Expands next mp [] out → room < out.length → Ends (step next mp) (start mp buffer) [] .long

def Right (mp : Macro) (buffer : Buffer) : Prop :=
  match printed mp.sym with
  | some text => (sprintf buffer.line text).isSome
  | none => Copies next mp buffer

/-! When the two variables stay in step. -/

/-- The item is copied, for what the code wants free. -/
def Fits (out : List Char) : Item → Prop
  | .literal text => out.length + text.length ≤ room
  | .concat => True
  | .stringize arg => out.length + 3 ≤ room ∧ (expanded next out (.stringize arg)).length ≤ room + 1
  | .parameter true arg => out.length + arg.length < room
  | .parameter false arg => next arg = [] ∨ (expanded next out (.parameter false arg)).length < room
  | .other _ => out.length < room

/-- `##` comes after something, and there is no `#`. -/
def Steady (out : List Char) : Item → Prop
  | .concat => ∃ c ∈ out, c ≠ ' '
  | .stringize _ => False
  | _ => True

/-- The loop comes to `s` when it has copied `out`. -/
inductive Reached (mp : Macro) : List Char → List Char → Prop
  | start : Reached mp mp.body []
  | item {s rest out : List Char} {item : Item} (before : Reached mp s out) (fetched : fetch mp s = some (item, some rest))
      (fits : Fits next out item) : Reached mp rest (expanded next out item)

/-- Wherever the loop comes, there is an item in the definition, and if it is copied, it keeps them in step. -/
def StaysSteady (mp : Macro) : Prop :=
  ∀ s out, Reached next mp s out → s ≠ [] →
    ∃ item rest, fetch mp s = some (item, rest) ∧ (Fits next out item → Steady out item ∧ rest.isSome)

end

section
attribute [local simp] copy fetch
end

end Scc.Cc1.Expansion
