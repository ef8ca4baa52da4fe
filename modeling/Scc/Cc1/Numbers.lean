import Scc.Cc1.Node
import Scc.Text.Numeral

set_option linter.all false

/-! Integer constants in cc1 (`lex.c`): how their text is divided, and the type and the value
that `readint` gives them. -/
namespace Scc.Cc1.Numbers

def INTIDENTSIZ : Nat := 63

/-- The `L` and `LL` of a suffix. -/
inductive Size where
  | INT | LONG | LLONG
  deriving DecidableEq

/-- A constant: its type and `u.i` or `u.u`, which share their bits. -/
structure Constant where
  type : CType
  u : BitVec 64
  deriving DecidableEq

/-- `ctype` of the integer types without `short`; `sign` is whether it is `UNSIGNED`. -/
def ctype (sign : Bool) : Size → CType
  | .INT => if sign then uinttype else inttype
  | .LONG => if sign then ulongtype else longtype
  | .LLONG => if sign then ullongtype else llongtype

def octals : List Char := ['0', '1', '2', '3', '4', '5', '6', '7']
def decimals : List Char := octals ++ ['8', '9']
def letters : List Char := decimals ++ ['A', 'B', 'C', 'D', 'E', 'F']

def isxdigit (c : Char) : Bool := c ∈ letters ++ ['a', 'b', 'c', 'd', 'e', 'f']

/-- `strchr(letters, toupper(c)) - letters` -/
def val (c : Char) : Nat := letters.idxOf c.toUpper

/-- The type that follows one which is too small. -/
def widen (base : Nat) (sign : Bool) (tp : CType) : Option CType :=
  if tp.tsigned then
    if tp = inttype then some (if base = 10 then longtype else uinttype)
    else if tp = longtype then some (if base = 10 then llongtype else ulongtype)
    else none
  else
    if tp = uinttype then some (if sign then ulongtype else longtype)
    else if tp = ulongtype then some (if sign then ullongtype else llongtype)
    else none

/-- How often a type can still be replaced. -/
def narrow (tp : CType) : Nat :=
  if tp = inttype then 4 else if tp = uinttype then 3 else if tp = longtype then 2 else if tp = ulongtype then 1 else 0

theorem widen_narrow {base : Nat} {sign : Bool} {tp tp' : CType} (wider : widen base sign tp = some tp') :
    narrow tp' < narrow tp := by
  unfold widen at wider
  split at wider
  all_goals
    split at wider
    case isTrue known =>
      cases wider
      rw [known]
      split <;> decide
  all_goals
    split at wider
    case isTrue known =>
      cases wider
      rw [known]
      split <;> decide
    case isFalse => cases wider

/-- The loop at `repeat`: the first type from this one on that holds `u * base + val`. -/
def settle (base : Nat) (sign : Bool) (u val : Nat) (tp : CType) : Option CType :=
  let max := maxLimit tp
  if u ≤ max / base ∧ u * base ≤ max - val then some tp
  else
    match _wider : widen base sign tp with
    | none => none
    | some tp => settle base sign u val tp
termination_by narrow tp
decreasing_by exact widen_narrow _wider

/-- The loop over the digits, whose value has the 64 bits of `TUINT`. -/
def digitLoop (base : Nat) (sign : Bool) : List Char → CType → Nat → Except String Constant
  | [], tp, u => .ok ⟨tp, BitVec.ofNat 64 u⟩
  | c :: s, tp, u =>
    if isxdigit c then
      match settle base sign u (val c) tp with
      | none => .error "overflow in integer constant"
      | some tp => digitLoop base sign s tp ((u * base + val c) % 2 ^ 64)
    else .ok ⟨tp, BitVec.ofNat 64 u⟩

/-- `if (*s == '0') ++s;` -/
def skipZero (s : List Char) : List Char := if s.head? = some '0' then s.tail else s

/-- `if (toupper(*s) == 'X') ++s;` -/
def skipX (s : List Char) : List Char := if s.head?.map Char.toUpper = some 'X' then s.tail else s

def readint (s : List Char) (base : Nat) (sign : Bool) (tp : CType) : Except String Constant :=
  digitLoop base sign (skipX (skipZero s)) tp 0

/-- The loop of `integer`: the suffix, and what follows it. -/
def suffix : List Char → Size → Bool → Except String (Size × Bool × List Char)
  | [], size, sign => .ok (size, sign, [])
  | c :: p, size, sign =>
    if c.toUpper = 'L' then
      if size = .LLONG then .error "invalid suffix in integer constant"
      else suffix p (if size = .LONG then .LLONG else .LONG) sign
    else if c.toUpper = 'U' then
      if sign then .error "invalid suffix in integer constant"
      else suffix p size true
    else .ok (size, sign, c :: p)

/-- A character that `digits` passes. -/
def isdigit (base : Nat) (c : Char) : Bool :=
  if base = 8 then c ∈ octals else if base = 10 then c ∈ decimals else isxdigit c

/-- `integer` of a text whose digits end at `p`; the token is what lies before the rest. -/
def integer (text p : List Char) (base : Nat) : Except String (Constant × List Char) := do
  let (size, sign, rest) ← suffix p .INT false
  let yytext := text.take (text.length - rest.length)
  if yytext.length > INTIDENTSIZ then .error "token too big"
  else return (← readint yytext base sign (ctype sign size), rest)

def number (text : List Char) : Except String (Constant × List Char) :=
  if text.head? ≠ some '0' then integer text (text.dropWhile (isdigit 10)) 10
  else if text.tail.head?.map Char.toUpper = some 'X' then integer text (text.tail.tail.dropWhile (isdigit 16)) 16
  else integer text (text.tail.dropWhile (isdigit 8)) 8

end Scc.Cc1.Numbers

/-! String literals and character constants in cc1 (`lex.c`). A text is the bytes from `input->p`
to the one before its NUL. -/
namespace Scc.Cc1.Literals
open Numbers Text

def STRINGSIZ : Nat := 4095

def quote : UInt8 := Char.toUInt8 '"'
def apostrophe : UInt8 := Char.toUInt8 '\''
def backslash : UInt8 := Char.toUInt8 '\\'

def isspace (c : UInt8) : Bool := Char.ofUInt8 c ∈ [' ', '\t', '\n', '\x0b', '\x0c', '\r']

/-- A digit of a base, 8, 10 or 16. -/
def digit (base : Nat) (c : UInt8) : Bool := isdigit base (Char.ofUInt8 c)

def read (base : Nat) (digits : List UInt8) : Nat := readDigits base (fun c => val (Char.ofUInt8 c)) digits

/-- The sign that `strtoul` takes. -/
def sign : List UInt8 → Bool × List UInt8
  | [] => (false, [])
  | c :: s =>
    if Char.ofUInt8 c = '-' then (true, s)
    else if Char.ofUInt8 c = '+' then (false, s)
    else (false, c :: s)

/-- The `0x` that `strtoul` passes in base 16: only before a digit. -/
def prefixed : List UInt8 → Bool
  | z :: x :: d :: _ => Char.ofUInt8 z = '0' && Char.ofUInt8 x ∈ ['x', 'X'] && digit 16 d
  | _ => false

/-- C's `strtoul`: the value and the text behind the number, the text itself where there is none. -/
def strtoul (s : List UInt8) (base : Nat) : Nat × List UInt8 :=
  let (negative, t) := sign (s.dropWhile isspace)
  let t := if base = 16 && prefixed t then t.drop 2 else t
  let n := read base (t.takeWhile (digit base))
  if t.takeWhile (digit base) = [] then (0, s)
  else (if n ≥ 2 ^ 64 then 2 ^ 64 - 1 else if negative then (2 ^ 64 - n) % 2 ^ 64 else n, t.dropWhile (digit base))

/-- The end of `escape`: `--input->p` is undone by the caller's `++input->p`. -/
def numeric (base : Nat) (p : List UInt8) : UInt32 × List UInt8 :=
  let (c, p) := strtoul p base
  (UInt32.ofNat c, p)

/-- `escape` on the text behind the backslash, and the text where its caller goes on.
There is none when the caller passes the NUL. -/
def escape : List UInt8 → Option (UInt32 × List UInt8)
  | [] => none
  | e :: p =>
    some <| match Char.ofUInt8 e with
    | 'a' => (7, p)
    | 'b' => (8, p)
    | 'f' => (12, p)
    | 'n' => (10, p)
    | 'r' => (13, p)
    | 't' => (9, p)
    | 'v' => (11, p)
    | '"' => (34, p)
    | '\'' => (39, p)
    | '\\' => (92, p)
    | '?' => (63, p)
    | 'u' => numeric 10 p
    | 'x' => numeric 16 p
    | '0' => numeric 8 p
    | _ => (32, p)

/-- A `char` as an `int`. -/
def signExtend (c : UInt8) : UInt32 := UInt32.ofNat (if c < 128 then c.toNat else 2 ^ 32 - 256 + c.toNat)

/-- The loop of `utf8rune` that counts the leading ones. -/
def leading : Nat → UInt8 → Nat
  | 0, _ => 0
  | n + 1, c => if c &&& 0x80 = 0 then 0 else leading n (c <<< 1) + 1

/-- The loop of `utf8rune` over the bytes behind the first one; without a rune
the sequence is invalid. -/
def continued : Nat → UInt32 → List UInt8 → Option UInt32 × List UInt8
  | 0, wc, p => (some wc, p)
  | _ + 1, _, [] => (none, [])
  | n + 1, wc, c :: p =>
    if c &&& 0xc0 = 0x80 then continued n (wc <<< 6 ||| (c &&& 0x3f).toUInt32) p else (none, c :: p)

def utf8rune (c : UInt8) (p : List UInt8) : Option UInt32 × List UInt8 :=
  match leading 8 c with
  | 0 => (some (signExtend c), p)
  | 1 | 8 => (none, p)
  | len => continued (len - 1) ((c <<< UInt8.ofNat len) >>> UInt8.ofNat len).toUInt32 p

/-- What `decode` returns, whether it reports an error, and the text where its caller goes on. -/
def decode (multi : Bool) (c : UInt8) (p : List UInt8) : Option (UInt32 × Bool × List UInt8) :=
  if c = backslash then (escape p).map fun (r, p) => (r, false, p)
  else if multi then
    match utf8rune c p with
    | (some r, p) => some (r, false, p)
    | (none, p) => some (0xfffd, true, p)
  else some (signExtend c, false, p)

section character
variable (multi : Bool)

/-- The variables of the loop in `character`. -/
structure Runes where
  p : List UInt8
  i : Nat
  r : UInt32
  d : UInt32
  invalid : Bool
  deriving DecidableEq

/-- One turn of the loop: none at the apostrophe, and none when the text has ended. -/
def Runes.turn (s : Runes) : Option Runes :=
  match s.p with
  | [] => none
  | c :: p =>
    if c = apostrophe then none
    else (decode multi c p).map fun (r, invalid, p) => ⟨p, s.i + 1, r, s.d ||| r, s.invalid || invalid⟩

/-- A constant whose value is in `sym->u.i`, and the messages about it. -/
structure Constant where
  i : UInt32
  type : CType
  errors : List String
  deriving DecidableEq

def wchartype : CType := integerType 'Z' 4 3 true

/-- The turns of the loop, as many as the text allows. -/
def Runes.loop : Nat → Runes → Runes
  | 0, s => s
  | n + 1, s =>
    match s.turn multi with
    | none => s
    | some s => loop n s

/-- `character` behind its first apostrophe. Without a result the loop leaves the text. -/
def character (text : List UInt8) : Option (Constant × List UInt8) :=
  let s := Runes.loop multi text.length ⟨text, 0, 0, 0, false⟩
  match s.p with
  | [] => none
  | c :: p =>
    if c = apostrophe then
      some
        (⟨s.d, if multi then wchartype else inttype,
          (if s.invalid then ["invalid multibyte sequence"] else []) ++
            if s.i = 0 then ["empty character constant"] else []⟩, p)
    else none

end character

section string
variable (disescape : Bool)

/-- The variables of the loop in `string`: `bytes` are those between `yytext + 1` and `bp`. -/
structure Bytes where
  p : List UInt8
  bytes : List UInt8
  esc : Bool
  deriving DecidableEq

/-- How the loop is left: the bytes, the message, and the text behind, if there is one. -/
structure Literal where
  bytes : List UInt8
  error : Option String
  rest : Option (List UInt8)
  deriving DecidableEq

/-- What is skipped after a string that is too long, up to the next quote and with it. -/
def skipped : List UInt8 → Option (List UInt8)
  | [] => none
  | c :: p =>
    if c = quote then some p
    else if c = backslash then
      match p with
      | [] => none
      | _ :: p => skipped p
    else skipped p

/-- One turn of the loop. The empty result is the loss of the text. -/
def Bytes.turn (s : Bytes) : Option (Literal ⊕ Bytes) :=
  match s.p with
  | [] => some (.inl ⟨s.bytes, some "missing terminating '\"' character", none⟩)
  | c :: p =>
    if c = quote && !s.esc then some (.inl ⟨s.bytes, none, some p⟩)
    else
      let esc := c = backslash && !s.esc && disescape
      (if c = backslash && !esc then escape p else some (signExtend c, p)).map fun (c, p) =>
        if s.bytes.length = STRINGSIZ then .inl ⟨s.bytes.dropLast, some "string too long", skipped p⟩
        else .inr ⟨p, s.bytes ++ [c.toUInt8], esc⟩

def Bytes.loop : Nat → Bytes → Option Literal
  | 0, _ => none
  | n + 1, s =>
    match s.turn disescape with
    | none => none
    | some (.inl l) => some l
    | some (.inr s) => loop n s

/-- `string` behind its first quote. -/
def string (text : List UInt8) : Option Literal := Bytes.loop disescape (text.length + 1) ⟨text, [], false⟩

end string

section
attribute [local simp] Bytes.turn
end

end Scc.Cc1.Literals
