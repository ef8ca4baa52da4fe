import Scc.Cc1.Fold
import Scc.Cc1.Stmt
import Scc.Text.Numeral

set_option linter.all false

/-! The intermediate representation as cc1 prints it (`code.c`): trees in reverse Polish
notation, every token after a tab, and the lines of the statements of a function. -/
namespace Scc.Cc1
open Text

/-- `"%u"` -/
def decimal (n : Nat) : List Char := numeral 10 Nat.digitChar n

def hexDigit (d : Nat) : Char := "0123456789ABCDEF".toList.getD d '0'

/-- `"%llX"` -/
def hexadecimal (n : Nat) : List Char := numeral 16 hexDigit n

/-- `optxt` for the operators of trees; `OCOLON` has no text. -/
def optxt : Op → Option (List Char)
  | .OADD => some ['+']
  | .OSUB => some ['-']
  | .OMUL => some ['*']
  | .OINC => some [':', 'i']
  | .ODEC => some [':', 'd']
  | .OPTR => some ['@']
  | .OMOD => some ['%']
  | .ODIV => some ['/']
  | .OSHL => some ['l']
  | .OSHR => some ['r']
  | .OLT => some ['<']
  | .OGT => some ['>']
  | .OGE => some [']']
  | .OLE => some ['[']
  | .OEQ => some ['=']
  | .ONE => some ['!']
  | .OBAND => some ['&']
  | .OBXOR => some ['^']
  | .OBOR => some ['|']
  | .OASSIGN => some [':']
  | .OA_MUL => some [':', '*']
  | .OA_DIV => some [':', '/']
  | .OA_MOD => some [':', '%']
  | .OA_ADD => some [':', '+']
  | .OA_SUB => some [':', '-']
  | .OA_SHL => some [':', 'l']
  | .OA_SHR => some [':', 'r']
  | .OA_AND => some [':', '&']
  | .OA_XOR => some [':', '^']
  | .OA_OR => some [':', '|']
  | .OADDR => some ['\'']
  | .OSNEG => some ['_']
  | .ONEG => some ['n']
  | .OCPL => some ['~']
  | .OAND => some ['a']
  | .OOR => some ['o']
  | .OASK => some ['?']
  | .OCOMMA => some [',']
  | .OPAR => some ['p']
  | .OCALL => some ['c']
  | .OCALLE => some ['z']
  | .OFIELD => some ['.']
  | .OCOLON | .OCAST | .OSYM | .OBUILTIN => none

def emitletter (tp : CType) : List Char :=
  (if tp.tellipsis then 'E' else tp.letter) ::
    match tp.op with
    | .ARY | .STRUCT | .UNION => decimal tp.id
    | _ => []

def emitvar (sym : Symbol) : List Char :=
  let c :=
    if sym.slocal then 'T'
    else if sym.sprivate then 'Y'
    else if sym.sglobal then 'G'
    else if sym.sregister then 'R'
    else if sym.sfield then 'M'
    else if sym.sextern then 'X'
    else 'A'
  c :: decimal sym.id

/-- An integer constant; others abort, and print nothing here. -/
def emitconst (type : CType) (sym : Symbol) : List Char :=
  '#' :: type.letter :: hexadecimal (sym.u &&& ones type.size).toNat

/-- The text of a tree, for a node of each operator in `opcode`. -/
def emitnode : Node → List Char
  | .nil => []
  | .mk .OSYM nconst type (some sym) _ _ =>
    (if sym.sinitlst then [] else ['\t']) ++
      (if nconst then emitconst type sym else emitvar sym)
  | .mk .OSYM _ _ none _ _ => []
  | .mk .OCAST _ type _ left _ =>
    emitnode left ++ (if type = voidtype then [] else ['\t', 'g', type.letter])
  | .mk .OBUILTIN _ type sym left right =>
    emitnode left ++ emitnode right ++
      '\t' :: '"' :: ((sym.map fun sym => sym.name.toList).getD []) ++ '\t' :: 'm' :: emitletter type
  | .mk op _ type _ left right =>
    emitnode left ++ emitnode right ++
      match optxt op with
      | some s => '\t' :: (s ++ emitletter type)
      | none => []

/-- The declaration of a variable. -/
def emitdcl (sym : Symbol) (type : CType) : List Char :=
  emitvar sym ++ '\t' :: emitletter type ++ '\t' :: '"' :: sym.name.toList ++ ['\n']

/-- What `emit` prints; the texts of the loop markers are those of `optxt`. -/
def emit : Emit → List Char
  | .ODECL sym type => emitdcl sym type
  | .OEXPR np => emitnode np ++ ['\n']
  | .OLABEL sym => 'L' :: decimal sym ++ ['\n']
  | .OJUMP sym => "\tj\tL".toList ++ decimal sym ++ ['\n']
  | .OBRANCH sym => "\ty\tL".toList ++ decimal sym
  | .OBLOOP => "\te\n".toList
  | .OELOOP => "\tb\n".toList
  | .ORET => "\th".toList
  | .OBSWITCH => "\ts".toList
  | .OESWITCH sym => "\tt\tL".toList ++ decimal sym ++ ['\n']
  | .OCASE sym => "\tv\tL".toList ++ decimal sym
  | .ODEFAULT sym => "\tf\tL".toList ++ decimal sym ++ ['\n']
  | .OEFUN => "\x7d\n".toList

end Scc.Cc1

/-! Initialised data as cc1 prints it (`code.c`): an integer constant in one line, a string
in runs of printable bytes and in escaped bytes. -/
namespace Scc.Cc1

/-- `isprint` in the C locale, for ASCII; the others are negative as a `char`, and what it
yields for them is left open. -/
def isprint (high : UInt8 → Bool) (c : UInt8) : Bool :=
  if c < 128 then 32 ≤ c && c < 127 else high c

def rawChar (c : UInt8) : Char := Char.ofNat c.toNat

/-- A line of `emitstring`. -/
inductive Piece where
  | run (s : List UInt8)
  | escaped (c : UInt8)
  deriving DecidableEq, Repr

def Piece.text : Piece → List Char
  | .run s => '\t' :: '#' :: '"' :: s.map rawChar
  | .escaped c =>
    ['\t', '#', chartype.letter, hexDigit (c.toNat / 16), hexDigit (c.toNat % 16)]

def Piece.bytes : Piece → List UInt8
  | .run s => s
  | .escaped c => [c]

/-- The printable bytes that `emitstring` prints in one line: a single one is left to the
bytes after it. -/
def run (isprint : UInt8 → Bool) (bytes : List UInt8) : List UInt8 :=
  let s := bytes.takeWhile isprint
  if 1 < s.length then s else []

def printed (isprint : UInt8 → Bool) (bytes : List UInt8) : List Piece :=
  if run isprint bytes = [] then [] else [.run (run isprint bytes)]

/-- The loop of `emitstring`. -/
def pieces (isprint : UInt8 → Bool) (bytes : List UInt8) : List Piece :=
  printed isprint bytes ++
    match rest : bytes.drop (run isprint bytes).length with
    | [] => []
    | c :: bp =>
      have : (bp.dropWhile (!isprint ·)).length < bytes.length := by
        have shorter := (List.dropWhile_sublist (l := bp) (!isprint ·)).length_le
        have inside := congrArg List.length rest
        simp only [List.length_drop, List.length_cons] at inside
        omega
      (c :: bp.takeWhile (!isprint ·)).map .escaped ++ pieces isprint (bp.dropWhile (!isprint ·))
termination_by bytes.length

def emitstring (high : UInt8 → Bool) (bytes : List UInt8) : List Char :=
  (pieces (isprint high) bytes).flatMap fun piece => piece.text ++ ['\n']

/-- What `emitdesig` comes to in an initialiser: an integer constant, or the bytes of a
string that its array has place for. -/
inductive Datum where
  | const (type : CType) (u : BitVec 64)
  | string (bytes : List UInt8)

def emitdatum (high : UInt8 → Bool) : Datum → List Char
  | .const type u => emit (.OEXPR (constnode type u))
  | .string bytes => emitstring high bytes

def emitinit (high : UInt8 → Bool) (data : List Datum) : List Char :=
  "\t(\n".toList ++ data.flatMap (emitdatum high) ++ ")\n".toList

end Scc.Cc1
