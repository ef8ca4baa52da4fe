import Scc.As.Expr
import Scc.As.Numbers
import Scc.As.Fields

set_option linter.all false

/-! The tokens of an operand field in the assembler (as/parser.c). A cursor is the text from there to the NUL;
a read behind that is a `fault`. -/
namespace Scc.As.Args
open Numbers Fields

/-! The codes of the tokens; the other ones are characters. -/

def EOS : Int := -1
def IDEN : Int := 1
def NUMBER : Int := 2
def REG : Int := 3
def STRING : Int := 4
def SHL : Int := 6
def SHR : Int := 7
def GE : Int := 8
def LE : Int := 9

/-- A character as an `int`; `char` is signed. -/
def code (c : Char) : Int := if c.toNat < 128 then c.toNat else c.toNat - 256

/-- A symbol of the table, or one of `tmpsym`. -/
inductive Sym where
  | table (i : Nat)
  | tmp (k : Nat)
  deriving DecidableEq

structure Tmp where
  value : Nat
  name : Option Name

/-- The variables of the tokens, and the symbols. -/
structure Reader where
  textp : List Char
  endp : List Char
  regmode : Bool
  yytoken : Int
  yylval : Option Sym
  yytext : Name
  state : State
  tmps : List Tmp

namespace Reader

def tmpsym (r : Reader) (val : Nat) (name : Option Name) : Reader :=
  { r with tmps := r.tmps ++ [⟨val, name⟩], yylval := some (.tmp r.tmps.length) }

def tok2str (r : Reader) : M Reader := do
  let text ← Numbers.tok2str r.textp r.endp
  return { r with yytext := text, textp := r.endp }

def idchar (c : Char) : Bool := c.isAlphanum || c = '\'' || c = '_' || c = '.' || c = '$'

def iden (r : Reader) : M Reader := do
  let r ← { r with endp := r.endp.dropWhile idchar }.tok2str
  let (state, i) ← r.state.lookup r.yytext
  let sym ← state.sym i
  return { r with state := state, yylval := some (.table i), yytoken := if sym.flags.FREG then REG else IDEN }

def number (r : Reader) : M Reader := do
  let (n, endp) ← Numbers.number r.endp
  let r ← { r with endp := endp }.tok2str
  return { r.tmpsym n none with yytoken := NUMBER }

/-- The loop ends where it starts, at the quote. -/
def character (r : Reader) : M Reader :=
  match r.endp.dropWhile (· ≠ '\'') with
  | [] => .error .fault
  | c :: endp => return { r with endp := c :: endp, yytoken := NUMBER }

def string (r : Reader) : M Reader :=
  match r.endp.tail.dropWhile (· ≠ '"') with
  | [] => .error .fault
  | _ :: endp => do
    let r ← { r with endp := endp }.tok2str
    return { r.tmpsym 0 (some ((r.yytext.drop 1).take (r.yytext.length - 2))) with yytoken := STRING }

/-- The token, and where `textp` is behind it. -/
def follow (textp : List Char) (expect1 expect2 : Char) (ifyes1 ifyes2 ifno : Int) : Int × List Char :=
  if textp.tail.head? = some expect1 then (ifyes1, textp.tail)
  else if textp.tail.head? = some expect2 then (ifyes2, textp.tail)
  else (ifno, textp)

def operator (r : Reader) (c : Char) : M Reader := do
  let (token, textp) :=
    if c = '>' then follow r.textp '=' '>' LE SHL (code '>')
    else if c = '<' then follow r.textp '=' '<' GE SHR (code '>')
    else (code c, r.textp)
  let r ← { r with textp := textp, endp := r.endp.tail }.tok2str
  return { r with yytoken := token }

/-- The code of the next character, which is not read. -/
def ahead (r : Reader) : Int × Reader :=
  let textp := r.textp.dropWhile isspace
  ((textp.head?.map code).getD EOS, { r with textp := textp })

def next (r : Reader) : M Reader :=
  let textp := r.textp.dropWhile isspace
  let r := { r with textp := textp, endp := textp }
  match textp with
  | [] => return { r with yytext := ['E', 'O', 'S'], yytoken := EOS }
  | c :: _ =>
    if c = '"' then r.string
    else if c = '\'' then r.character
    else if c = '%' then if r.regmode then r.iden else r.operator c
    else if c = '.' || c = '_' then r.iden
    else if c.isDigit then r.number
    else if c.isAlpha then r.iden
    else r.operator c

end Reader

/-! The nodes. -/

def AIMM : Int := 1
def ASTR : Int := 2
def AREG : Int := 3
def ANUMBER : Int := 4
def AINDIR : Int := 12
def AINDEX : Int := 13
def ADIRECT : Int := 14
def AREG_OFF : Int := 15

/-- A node; `node` does not set its `addr`. -/
inductive Node where
  | mk (op : Int) (addr : Option Int) (sym : Option Sym) (left right : Option Node)

namespace Node

def node (op : Int) (left right : Option Node) : Node := ⟨op, none, none, left, right⟩

def op : Node → Int
  | ⟨op, _, _, _, _⟩ => op

def addr : Node → Option Int
  | ⟨_, addr, _, _, _⟩ => addr

def sym : Node → Option Sym
  | ⟨_, _, sym, _, _⟩ => sym

def setAddr (addr : Int) : Node → Node
  | ⟨op, _, sym, left, right⟩ => ⟨op, some addr, sym, left, right⟩

/-- A node without children. -/
def leaf (op addr : Int) (sym : Option Sym) : Node := ⟨op, some addr, sym, none, none⟩

end Node

/-! The expressions, as `fold` and its callers see their nodes. -/

namespace Reader

/-- Whether `FDEF` is set in the symbol, and its value. -/
def deref (r : Reader) : Option Sym → M (Bool × Nat)
  | none => .error .fault
  | some (.table i) => do
    let sym ← r.state.sym i
    return (sym.flags.FDEF, sym.value)
  | some (.tmp k) =>
    match r.tmps[k]? with
    | some tmp => return (false, tmp.value)
    | none => .error .fault

def constant (r : Reader) (np : Node) : M Bool :=
  if np.op = NUMBER then return true
  else if np.op = IDEN then do return (← r.deref np.sym).1
  else return false

def value (r : Reader) (np : Node) : M Nat := do return (← r.deref np.sym).2

def setValue (r : Reader) (val : Nat) : Option Sym → M Reader
  | none => .error .fault
  | some (.table i) => return { r with state := r.state.setSym i fun sym => { sym with value := val } }
  | some (.tmp k) => return { r with tmps := r.tmps.modify k fun tmp => { tmp with value := val } }

end Reader

def binop (op : Int) : Option Binop :=
  if op = code '*' then some .times
  else if op = code '/' then some .divide
  else if op = code '%' then some .mod
  else if op = SHL then some .SHL
  else if op = SHR then some .SHR
  else if op = code '+' then some .plus
  else if op = code '-' then some .minus
  else if op = code '<' then some .lt
  else if op = code '>' then some .gt
  else if op = code '=' then some .eq
  else if op = GE then some .GE
  else if op = LE then some .LE
  else if op = code '|' then some .or
  else if op = code '^' then some .xor
  else none

namespace Reader

/-- `fold`, and `none` where it gives a null pointer. -/
def fold (r : Reader) (op : Int) (l np : Node) : M (Option (Reader × Node)) := do
  if ← r.constant l then
    if ← r.constant np then
      let lv ← r.value l
      let rv ← r.value np
      match binop op with
      | none => .error .abort
      | some op => do
        let val ← As.fold op lv rv
        let sym := Sym.tmp r.tmps.length
        return some ({ r with tmps := r.tmps ++ [⟨val, none⟩] }, .leaf NUMBER ANUMBER (some sym))
    else return none
  else return none

def binary (r : Reader) (op : Int) (l np : Node) : M (Reader × Node) := do
  match ← r.fold op l np with
  | some result => return result
  | none => .error .abort

def unaryop (r : Reader) (op : Int) (np : Node) : M (Reader × Node) :=
  if np.addr ≠ some ANUMBER then error "invalid argument for unary operator"
  else if np.op ≠ NUMBER then return (r, (Node.node op (some np) none).setAddr ANUMBER)
  else do
    let val ← r.value np
    let val ←
      if op = code '!' then pure (if val = 0 then 1 else 0)
      else if op = code '+' then pure val
      else if op = code '-' then pure ((2 ^ 64 - val) % 2 ^ 64)
      else .error .abort
    return (← r.setValue val np.sym, np)

end Reader

end Scc.As.Args
