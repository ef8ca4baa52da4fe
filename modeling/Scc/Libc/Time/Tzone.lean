import Scc.Text.Numeral

set_option linter.all false

/-! The zones that TZ names (arch/posix/_tzone.c), and their syntax in POSIX. Texts are without their NUL. An offset of
-1 is none: `localtime` then looks for the name in a table. -/
namespace Scc.Libc.Tzone
open Text

def TOKENSIZ : Nat := 10

def SECMIN : Int := 60

def SECHOUR : Int := 60 * SECMIN

/-- `EOS`, `NUM` and `STR`, or a character that is a token. -/
inductive Tok where
  | EOS
  | NUM
  | STR
  | char (c : Char)
  deriving DecidableEq

/-- What is left of the string, and the last token. -/
structure Lexer where
  s : List Char
  tok : Tok
  tokstr : List Char

/-- The characters of `case '+'` and the following ones. -/
def Mark (c : Char) : Prop := c = '+' ∨ c = '-' ∨ c = ':' ∨ c = ','

instance (c : Char) : Decidable (Mark c) := inferInstanceAs (Decidable (_ ∨ _))

section
/- What the memory behind the map of `strcspn` says of the characters without an entry. -/
variable (beyond : Char → Bool)

/-- The set of `strcspn`. -/
def stop (c : Char) : Bool := if c.toNat < 128 then c ∈ "+-0123456789".toList else beyond c

/-- The token at the beginning of a string, and its length. -/
def token : List Char → Tok × Nat
  | [] => (.EOS, 0)
  | c :: s =>
    if c.isDigit then (.NUM, ((c :: s).takeWhile Char.isDigit).length)
    else if Mark c then (.char c, 1)
    else (.STR, ((c :: s).takeWhile fun c => !stop beyond c).length)

/-- None for -1. -/
def next (l : Lexer) : Option Tok × Lexer :=
  let (t, n) := token beyond l.s
  if n ≥ TOKENSIZ - 1 then (none, l) else (some t, ⟨l.s.drop n, t, l.s.take n⟩)

/-- The result is a truth value, and -1 is true. -/
def accept (c : Char) (l : Lexer) : Bool × Lexer :=
  if l.tok ≠ .char c then (false, l) else ((next beyond l).1 ≠ some .EOS, (next beyond l).2)

/-- The number that digits write. -/
def value (digits : List Char) : Nat := readDigits 10 (fun c => c.toNat - 48) digits

def num (max : Nat) (l : Lexer) : Int :=
  match l.tok with
  | .EOS => 0
  | .NUM => if value (l.tokstr.takeWhile Char.isDigit) > max then -1 else value (l.tokstr.takeWhile Char.isDigit)
  | _ => -1

/-! `offset`, a function for every number. -/

def seconds (sign off : Int) (l : Lexer) : Int × Lexer :=
  let n := num 60 l
  if n < 0 then (-1, l) else (sign * (off + n), (next beyond l).2)

def minutes (sign off : Int) (l : Lexer) : Int × Lexer :=
  let n := num 60 l
  if n < 0 then (-1, l)
  else
    let off := off + n * SECMIN
    let l := (next beyond l).2
    if l.tok = .EOS then (sign * off, l)
    else
      let (yes, l) := accept beyond ':' l
      if yes then seconds beyond sign off l else (-1, l)

def hours (sign : Int) (l : Lexer) : Int × Lexer :=
  let n := num 24 l
  if n < 0 then (-1, l)
  else
    let off := n * SECHOUR
    let l := (next beyond l).2
    if l.tok = .EOS then (sign * off, l)
    else
      let (yes, l) := accept beyond ':' l
      if yes then minutes beyond sign off l else (-1, l)

def offset (l : Lexer) : Int × Lexer :=
  match l.tok with
  | .char '+' => hours beyond (-1) (next beyond l).2
  | .char '-' => hours beyond 1 (next beyond l).2
  | _ => (-1, l)

/-- The variables of the file; `_tzname` is `st` and `ds`. -/
structure Tz where
  lexer : Lexer
  st : List Char
  ds : List Char
  tzstdoff : Int
  tzdstoff : Int
  tzstart : Int
  tzend : Int
  tzjulian : Int

def std (v : Tz) : Bool × Tz :=
  if v.lexer.tok ≠ .STR then (false, v)
  else
    let off := offset beyond (next beyond v.lexer).2
    let v := { v with st := v.lexer.tokstr, lexer := off.2 }
    if off.1 = -1 then (false, v) else (true, { v with tzstdoff := off.1 })

def dst (v : Tz) : Bool × Tz :=
  if v.lexer.tok ≠ .STR then (false, v)
  else
    let off := offset beyond (next beyond v.lexer).2
    let v := { v with ds := v.lexer.tokstr, lexer := off.2 }
    (true, { v with tzdstoff := if off.1 = -1 then off.1 else v.tzstdoff + SECHOUR })

def yday (v : Tz) : Int × Tz :=
  if v.lexer.tok = .STR ∧ v.lexer.tokstr = ['J'] then
    let l := (next beyond v.lexer).2
    let n := num 365 l
    let v := { v with lexer := (next beyond l).2 }
    if n = 0 then (-1, v) else (n, { v with tzjulian := 1 })
  else if v.lexer.tok = .NUM then (num 365 v.lexer, { v with lexer := (next beyond v.lexer).2 })
  else (-1, v)

/-- Its result decides nothing. -/
def rule (v : Tz) : Tz :=
  if v.lexer.tok = .EOS then v
  else
    let (yes, l) := accept beyond ',' v.lexer
    let v := { v with lexer := l }
    if !yes then v
    else
      let (n, v) := yday beyond v
      let v := { v with tzstart := n }
      if n = -1 then v
      else
        let (yes, l) := accept beyond ',' v.lexer
        let v := { v with lexer := l }
        if !yes then v
        else
          let (n, v) := yday beyond v
          { v with tzend := n }

/-- `tz` is what `getenv` gives. -/
def tzset (tz : Option (List Char)) (v : Tz) : Tz :=
  let v := { v with tzstdoff := -1, tzdstoff := -1, tzstart := -1, tzend := -1, tzjulian := 0 }
  match tz with
  | none => v
  | some tz =>
    let (yes, v) := std beyond { v with lexer := (next beyond { v.lexer with s := tz }).2 }
    if !yes then v
    else
      let (yes, v) := dst beyond v
      if !yes then v else rule beyond v

end

/-- The variables before the first call. -/
def Tz.fresh : Tz := ⟨⟨[], .EOS, []⟩, [], [], 0, 0, 0, 0, 0⟩

/-! The syntax. -/

/-- One or more digits. -/
structure Number (max : Nat) where
  digits : List Char
  nonempty : digits ≠ []
  decimal : ∀ c ∈ digits, c.isDigit
  le : value digits ≤ max

/-- A name of the least length (3 in POSIX), in `<` and `>` where it is not of letters only. -/
inductive Name (least : Nat) where
  | letters (name : List Char) (nonempty : name ≠ []) (long : least ≤ name.length) (alpha : ∀ c ∈ name, c.isAlpha)
  | quoted (name : List Char) (nonempty : name ≠ []) (long : least ≤ name.length)
      (legal : ∀ c ∈ name, c.isAlphanum ∨ c = '+' ∨ c = '-')

def Name.name {least : Nat} : Name least → List Char
  | .letters name .. => name
  | .quoted name .. => name

def Name.text {least : Nat} : Name least → List Char
  | .letters name .. => name
  | .quoted name .. => '<' :: name ++ ['>']

/-- `hh[:mm[:ss]]` -/
inductive Clock where
  | h (hours : Number 24)
  | hm (hours : Number 24) (minutes : Number 59)
  | hms (hours : Number 24) (minutes seconds : Number 59)

def Clock.text : Clock → List Char
  | .h hours => hours.digits
  | .hm hours minutes => hours.digits ++ ':' :: minutes.digits
  | .hms hours minutes seconds => hours.digits ++ ':' :: (minutes.digits ++ ':' :: seconds.digits)

def Clock.seconds : Clock → Int
  | .h hours => value hours.digits * 3600
  | .hm hours minutes => value hours.digits * 3600 + value minutes.digits * 60
  | .hms hours minutes seconds => value hours.digits * 3600 + value minutes.digits * 60 + value seconds.digits

inductive Sign where
  | plus
  | minus

def Sign.char : Sign → Char
  | .plus => '+'
  | .minus => '-'

/-- A positive offset is west of Greenwich, where one adds it to get the universal time. -/
def Sign.east : Sign → Int
  | .plus => -1
  | .minus => 1

structure Offset where
  sign : Option Sign
  clock : Clock

def Offset.text (o : Offset) : List Char := o.sign.elim [] (fun sign => [sign.char]) ++ o.clock.text

/-- What one adds to the universal time (`tm_gmtoff`). -/
def Offset.seconds (o : Offset) : Int := (o.sign.getD .plus).east * o.clock.seconds

/-- `Jn`, `n` and `Mm.w.d` -/
inductive Date where
  | julian (n : Number 365) (positive : 0 < value n.digits)
  | day (n : Number 365)
  | week (m : Number 12) (w : Number 5) (d : Number 6) (month : 0 < value m.digits) (first : 0 < value w.digits)

def Date.text : Date → List Char
  | .julian n _ => 'J' :: n.digits
  | .day n => n.digits
  | .week m w d .. => 'M' :: (m.digits ++ '.' :: (w.digits ++ '.' :: d.digits))

/-- A date, and the time of the change. -/
structure Change where
  date : Date
  time : Option Clock

def Change.text (c : Change) : List Char := c.date.text ++ c.time.elim [] fun time => '/' :: time.text

structure Rule where
  start : Change
  finish : Change

def Rule.text (r : Rule) : List Char := ',' :: (r.start.text ++ ',' :: r.finish.text)

structure Summer (least : Nat) where
  name : Name least
  offset : Option Offset
  rule : Option Rule

def Summer.text {least : Nat} (d : Summer least) : List Char :=
  d.name.text ++ (d.offset.elim [] Offset.text ++ d.rule.elim [] Rule.text)

/-- `stdoffset[dst[offset][,rule]]` -/
structure Zone (least : Nat) where
  std : Name least
  offset : Offset
  dst : Option (Summer least)

def Zone.text {least : Nat} (z : Zone least) : List Char :=
  z.std.text ++ (z.offset.text ++ z.dst.elim [] Summer.text)

/-- One hour ahead by default. -/
def Zone.summer {least : Nat} (z : Zone least) (d : Summer least) : Int :=
  d.offset.elim (z.offset.seconds + 3600) Offset.seconds

/-- The names and the offsets are those of the zone, and no offset is taken for an error. -/
structure Agrees {least : Nat} (z : Zone least) (v : Tz) : Prop where
  st : v.st = z.std.name
  tzstdoff : v.tzstdoff = z.offset.seconds
  known : v.tzstdoff ≠ -1
  dst : ∀ d, z.dst = some d → v.ds = d.name.name ∧ v.tzdstoff = z.summer d ∧ v.tzdstoff ≠ -1
  none : z.dst = none → v.tzdstoff = -1

/-- The text is read, or rejected where no zone is written like it. -/
structure Right (least : Nat) (text : List Char) (v : Tz) : Prop where
  agrees : ∀ z : Zone least, z.text = text → Agrees z v
  rejects : (∀ z : Zone least, z.text ≠ text) → v.tzstdoff = -1 ∧ v.tzdstoff = -1

end Scc.Libc.Tzone
