import Scc.Cc2.Statement
import Scc.Text.Numeral
import Scc.Text.Tokens

set_option linter.all false

/-! How cc2 reads the body of a function (`parser.c`): the tokens of a line operate on a
stack, and the node left there joins the statement list. Nodes of statements have an
identity, since a switch remembers where its table ends. -/
namespace Scc.Cc2
open Text

def STACKSIZ : Nat := 50
def NR_BLOCK : Nat := 127
def LINESIZ : Nat := 4095
def USHRT_MAX : Nat := 65535

inductive Error where
  | ESYNTAX | ESTACKA | ESTACKO | ESTACKU | ELNLINE | ELNBLNE | EBADID | EWTACKO | EWTACKU
  | EBBUILT
  /-- A null or mistyped pointer is used. -/
  | crash
  deriving DecidableEq, Repr

inductive Elem where
  | node (np : Node)
  | stmt (id : Nat) (np : Stmt Node)
  | type (tp : CType)
  | name (name : List Char)

/-- `struct swtch`; nodes are given by their identities. -/
structure Swtch where
  nr : Nat
  first : Nat
  last : Nat

/-- The globals of the parser; `table` is the types in the symbol table, `swtbl` has the
innermost switch first, and `data` is what `data()` has been called with. -/
structure State where
  stack : List Elem
  table : Nat → CType
  stmts : List (Nat × Stmt Node)
  curstmt : Option Nat
  swtbl : List Swtch
  num : Nat
  endf : Bool
  ininit : Bool := false
  data : List Node := []

/-- The statements with an operand, or without one, after the label that `jump` reads. -/
inductive Jump where
  | OJMP | OBRANCH | OCASE | ODEFAULT | OESWITCH
  deriving DecidableEq

inductive Parse where
  | type (tp : CType)
  | composed
  | getname
  | symbol (op : Op)
  | unary (op : Op)
  | binary (op : Op)
  | builtin
  | assign
  | ternary
  | call (op : Op)
  | constant
  | jump (op : Jump)
  | oreturn
  | oloop (np : Stmt Node)
  | bswitch
  | binit
  | einit

/-- `optbl[c].parse`, with its argument. -/
def optbl : Char → Option Parse
  | 'A' => some (.symbol .OAUTO)
  | 'R' => some (.symbol .OREG)
  | 'G' | 'X' | 'Y' | 'T' | 'M' => some (.symbol .OMEM)
  | 'L' => some (.symbol .OLABEL)
  | 'C' => some (.type int8type)
  | 'I' => some (.type int16type)
  | 'W' => some (.type int32type)
  | 'Q' => some (.type int64type)
  | 'K' => some (.type uint8type)
  | 'N' => some (.type uint16type)
  | 'Z' => some (.type uint32type)
  | 'O' => some (.type uint64type)
  | 'J' => some (.type float32type)
  | 'D' => some (.type float64type)
  | 'H' => some (.type float80type)
  | '0' => some (.type voidtype)
  | 'B' => some (.type booltype)
  | 'P' => some (.type ptrtype)
  | 'E' => some (.type funetype)
  | '1' => some (.type argtype)
  | 'F' => some (.type funtype)
  | 'V' | 'U' | 'S' => some .composed
  | '"' => some .getname
  | '~' => some (.unary .OCPL)
  | '_' => some (.unary .OSNEG)
  | '\'' => some (.unary .OADDR)
  | '@' => some (.unary .OPTR)
  | 'g' => some (.unary .OCAST)
  | 'p' => some (.unary .OPAR)
  | 'n' => some (.unary .ONEG)
  | 'a' => some (.binary .OAND)
  | 'o' => some (.binary .OOR)
  | '.' => some (.binary .OFIELD)
  | '+' => some (.binary .OADD)
  | '-' => some (.binary .OSUB)
  | '*' => some (.binary .OMUL)
  | '%' => some (.binary .OMOD)
  | '/' => some (.binary .ODIV)
  | 'l' => some (.binary .OSHL)
  | 'r' => some (.binary .OSHR)
  | '<' => some (.binary .OLT)
  | '>' => some (.binary .OGT)
  | '[' => some (.binary .OLE)
  | ']' => some (.binary .OGE)
  | '=' => some (.binary .OEQ)
  | '!' => some (.binary .ONE)
  | '&' => some (.binary .OBAND)
  | '|' => some (.binary .OBOR)
  | '^' => some (.binary .OBXOR)
  | ',' => some (.binary .OCOMMA)
  | 'm' => some .builtin
  | ':' => some .assign
  | '?' => some .ternary
  | 'c' => some (.call .OCALL)
  | 'z' => some (.call .OCALLE)
  | '#' => some .constant
  | 'j' => some (.jump .OJMP)
  | 'y' => some (.jump .OBRANCH)
  | 'h' => some .oreturn
  | 'b' => some (.oloop .OBLOOP)
  | 'e' => some (.oloop .OELOOP)
  | 'v' => some (.jump .OCASE)
  | 'f' => some (.jump .ODEFAULT)
  | 't' => some (.jump .OESWITCH)
  | 's' => some .bswitch
  | '(' => some .binit
  | ')' => some .einit
  | _ => none

/-- `optbl[c].u.op` of the characters that `assign` takes for an operator. -/
def subop : Char → Option Op
  | '+' => some .OADD
  | '-' => some .OSUB
  | '*' => some .OMUL
  | '%' => some .OMOD
  | '/' => some .ODIV
  | 'l' => some .OSHL
  | 'r' => some .OSHR
  | '&' => some .OBAND
  | '|' => some .OBOR
  | '^' => some .OBXOR
  | 'i' => some .OINC
  | 'd' => some .ODEC
  | _ => none

abbrev Token := List Char

def push (elem : Elem) (s : State) : Except Error State :=
  if s.stack.length = STACKSIZ then .error .ESTACKO
  else .ok { s with stack := elem :: s.stack }

def pop (s : State) : Except Error (Elem × State) :=
  match s.stack with
  | [] => .error .ESTACKU
  | elem :: stack => .ok (elem, { s with stack := stack })

/-- `pop()` where the code takes the result for the node of a tree. -/
def popnode (s : State) : Except Error (Node × State) :=
  match s.stack with
  | [] => .error .ESTACKU
  | .node np :: stack => .ok (np, { s with stack := stack })
  | _ => .error .crash

def atoi (text : List Char) : Nat :=
  readDigits 10 (fun c => c.toNat - '0'.toNat) (text.takeWhile Char.isDigit)

/-- The number of a symbol, which `getsym` checks. -/
def getsym (text : List Char) : Except Error Nat :=
  if atoi text ≥ USHRT_MAX then .error .EBADID else .ok (atoi text)

/-- The type of a token, which passes through the stack. -/
def gettype (token : Token) (s : State) : Except Error CType :=
  match token with
  | [] => .error .ESYNTAX
  | c :: text =>
    match optbl c with
    | none => .error .ESYNTAX
    | some (.type tp) => if s.stack.length = STACKSIZ then .error .ESTACKO else .ok tp
    | some .composed => do
      let id ← getsym text
      if s.stack.length = STACKSIZ then .error .ESTACKO else .ok { s.table id with id := id }
    | some _ => .error .crash

def hexValue (c : Char) : Nat := "0123456789ABCDEF".toList.idxOf c

def constant (token : Token) (s : State) : Except Error State :=
  match token with
  | '"' :: text =>
    let tp := { zerotype with strf := true, size := text.length, align := int8type.align }
    push (.node (.mk .OSTRING tp (.s text) .nil .nil)) s
  | _ => do
    let tp ← gettype token s
    let v := token.tail.foldl (fun (v : BitVec 64) c => (v <<< 4) + .ofNat 64 (hexValue c)) 0
    push (.node (.mk .OCONST tp (.i v) .nil .nil)) s

def assign (token : Token) (s : State) : Except Error State := do
  let (u, token) : Payload × Token :=
    match token with
    | c :: rest =>
      match subop c with
      | some op => (.subop op, rest)
      | none => (.zero, token)
    | [] => (.zero, [])
  let tp ← gettype token s
  let (right, s) ← popnode s
  let (left, s) ← popnode s
  push (.node (.mk .OASSIG tp u left right)) s

def ternary (token : Token) (s : State) : Except Error State := do
  let tp ← gettype token s
  let (other, s) ← popnode s
  let (yes, s) ← popnode s
  let (cond, s) ← popnode s
  push (.node (.mk .OASK tp .zero cond (.mk .OCOLON zerotype .zero yes other))) s

def unary (op : Op) (token : Token) (s : State) : Except Error State := do
  let tp ← gettype token s
  let (left, s) ← popnode s
  push (.node (.mk op tp .zero left .nil)) s

def binary (op : Op) (token : Token) (s : State) : Except Error State := do
  let tp ← gettype token s
  let (right, s) ← popnode s
  let (left, s) ← popnode s
  push (.node (.mk op tp .zero left right)) s

/-- The arguments on the stack, chained in front of `par`, and the function under them. -/
def popargs : List Elem → Node → Except Error (Node × Node × List Elem)
  | .node (.mk .OPAR type u left _) :: stack, par => popargs stack (.mk .OPAR type u left par)
  | .node np :: stack, par => .ok (np, par, stack)
  | [], _ => .error .ESTACKU
  | _, _ => .error .crash

def call (op : Op) (token : Token) (s : State) : Except Error State := do
  let (np, par, stack) ← popargs s.stack .nil
  let s := { s with stack := stack }
  let tp ← gettype token s
  push (.node (.mk op tp .zero np par)) s

/-- The builtin of a name, and whether it has two operands. -/
def builtins (name : List Char) : Option (Builtin × Bool) :=
  if name = "__builtin_va_arg".toList then some (.BVA_ARG, false)
  else if name = "__builtin_va_start".toList then some (.BVA_START, true)
  else if name = "__builtin_va_end".toList then some (.BVA_END, false)
  else if name = "__builtin_va_copy".toList then some (.BVA_COPY, true)
  else none

def builtin (token : Token) (s : State) : Except Error State := do
  let tp ← gettype token s
  let (elem, s) ← pop s
  match elem with
  | .name name =>
    match builtins name with
    | none => .error .EBBUILT
    | some (subop, two) => do
      let (right, s) ← if two then popnode s else .ok (.nil, s)
      let (left, s) ← popnode s
      push (.node (.mk .OBUILTIN tp (.builtin subop) left right)) s
  | _ => .error .crash

/-- The token handlers that read no further token. -/
def parseToken (p : Parse) (text : List Char) (s : State) : Except Error State :=
  match p with
  | .type tp => push (.type tp) s
  | .composed => do
    let id ← getsym text
    push (.type { s.table id with id := id }) s
  | .getname => push (.name text) s
  | .symbol op => do
    let id ← getsym text
    push (.node (.mk op (s.table id) (.sym (.named id)) .nil .nil)) s
  | .unary op => unary op text s
  | .binary op => binary op text s
  | .builtin => builtin text s
  | .assign => assign text s
  | .ternary => ternary text s
  | .call op => call op text s
  | .constant => constant text s
  | .oloop np => push (.stmt s.num np) { s with num := s.num + 1 }
  | .binit => .ok { s with ininit := true }
  | .einit => .ok { s with ininit := false }
  | _ => .error .crash

/-! The statement list. -/

/-- A node becomes the next one of the node with this identity. -/
def insertAfter (id : Nat) (np : Nat × Stmt Node) : List (Nat × Stmt Node) → List (Nat × Stmt Node)
  | [] => []
  | first :: rest => if first.1 = id then first :: np :: rest else first :: insertAfter id np rest

/-- `addstmt(np, SETCUR)` -/
def addstmt (np : Nat × Stmt Node) (s : State) : State :=
  { s with
    stmts := match s.curstmt with
      | some cur => insertAfter cur np s.stmts
      | none => [np]
    curstmt := some np.1 }

def waft (np : Nat × Stmt Node) (s : State) : Except Error State :=
  match s.swtbl with
  | [] => .error .EWTACKU
  | cur :: outer => .ok
    { s with
      stmts := insertAfter cur.last np s.stmts
      curstmt := if s.curstmt = some cur.last then some np.1 else s.curstmt
      swtbl := { cur with last := np.1, nr := cur.nr + 1 } :: outer }

/-- `cur->first->u.i = cur->nr` -/
def setnr (first nr : Nat) (stmts : List (Nat × Stmt Node)) : List (Nat × Stmt Node) :=
  stmts.map fun np =>
    match np with
    | (id, .OBSWITCH left old) => (id, .OBSWITCH left (if id = first then nr else old))
    | np => np

/-- The node that `jump` builds from its operands on the stack. -/
def jump (op : Jump) (s : State) : Except Error (Stmt Node × State) := do
  let (left, s) ← if op = .OBRANCH ∨ op = .OCASE then popnode s else .ok (.nil, s)
  let (aux, s) ← popnode s
  match aux with
  | .mk _ _ (.sym sym) _ _ =>
    let np := match op with
      | .OJMP => .OJMP sym
      | .OBRANCH => .OBRANCH sym left
      | .OCASE => .OCASE sym left
      | .ODEFAULT => .ODEFAULT sym
      | .OESWITCH => .OESWITCH sym
    .ok (np, s)
  | _ => .error .crash

/-- Where the node of a line with a label goes: the entries of a switch join its table. -/
def place (op : Jump) (id : Nat) (np : Stmt Node) (s : State) : Except Error State :=
  match op with
  | .OJMP | .OBRANCH => push (.stmt id np) s
  | .OCASE | .ODEFAULT => waft (id, np) s
  | .OESWITCH => do
    let s ← waft (id, np) s
    match s.swtbl with
    | [] => .error .EWTACKU
    | cur :: outer => .ok { s with swtbl := outer, stmts := setnr cur.first cur.nr s.stmts }

/-- `eval`; the statements that read further tokens read all of them. -/
def eval : List Token → State → Except Error State
  | [], s => .ok s
  | [] :: _, s => .ok s
  | (c :: text) :: rest, s =>
    match optbl c with
    | none => .ok s
    | some (.jump op) => do
      if rest = [] then .error .crash
      let (np, s') ← (← eval rest { s with num := s.num + 1 }) |> jump op
      place op s.num np s'
    | some .oreturn => do
      let s' ← eval rest { s with num := s.num + 1 }
      match s'.stack with
      | [] => push (.stmt s.num (.ORET none)) s'
      | _ => do
        let (left, s') ← popnode s'
        push (.stmt s.num (.ORET (some left))) s'
    | some .bswitch => do
      if s.swtbl.length = NR_BLOCK then .error .EWTACKO
      if rest = [] then .error .crash
      let s' ← eval rest { s with num := s.num + 1, swtbl := ⟨0, s.num, s.num⟩ :: s.swtbl }
      let (left, s') ← popnode s'
      push (.stmt s.num (.OBSWITCH left 0)) s'
    | some p => do
      let s' ← parseToken p text s
      eval rest s'

/-! Lines. -/

/-- The declaration of a variable, or of a function, which has two types. -/
def vardecl (s : State) : Except Error State :=
  match s.stack with
  | .name _ :: .type tp :: stack =>
    let stack := if tp.funf then stack.tail else stack
    match stack with
    | .node (.mk _ _ (.sym (.named id)) _ _) :: stack =>
      let type := if s.ininit then { tp with initf := true } else tp
      .ok { s with stack := stack, table := Function.update s.table id type }
    | _ => .error .crash
  | _ => .error .crash

def labeldcl (s : State) : Except Error State := do
  let (np, s) ← popnode s
  match np with
  | .mk _ _ (.sym sym) _ _ => .ok (addstmt (s.num, .ONOP sym) { s with num := s.num + 1 })
  | _ => .error .crash

def stmt (s : State) : Except Error State :=
  match s.stack with
  | [] => .ok s
  | .stmt id np :: stack =>
    if s.ininit then .error .crash else .ok (addstmt (id, np) { s with stack := stack })
  | .node np :: stack =>
    if s.ininit then .ok { s with stack := stack, data := s.data ++ [np] }
    else .ok (addstmt (s.num, .expr np) { s with stack := stack, num := s.num + 1 })
  | _ => .error .crash

def endfun (s : State) : State :=
  addstmt (s.num, .OEFUN) { s with num := s.num + 1, endf := true }

/-- `optbl[c].eval`, for the lines of a function body and of initialisers. -/
def evalLine (c : Char) (s : State) : Except Error State :=
  match c with
  | 'A' | 'R' | 'G' | 'X' | 'Y' | 'T' => vardecl s
  | 'L' => labeldcl s
  | '\t' => stmt s
  | '}' => .ok (endfun s)
  | _ => .ok s

def delim (c : Char) : Bool := c = '\t' || c = '\n'

/-- A line, without its newline. -/
def nextline (line : List Char) (s : State) : Except Error State :=
  match line with
  | [] => .ok s
  | c :: _ => do
    if line.length + 1 ≥ LINESIZ then .error .ELNLINE
    if tokens delim line = [] then .error .crash
    let s ← eval (tokens delim line) s
    let s ← evalLine c s
    if s.stack = [] then .ok s else .error .ESTACKA

/-- The lines of a text up to the end of the function. -/
def lines : List (List Char) → State → Except Error State
  | [], s => .ok s
  | line :: rest, s =>
    if s.endf then .ok s
    else
      match nextline line s with
      | .ok s => lines rest s
      | .error e => .error e

/-- A text whose last line ends with a newline. -/
def parse (text : List Char) (s : State) : Except Error State :=
  let split := text.splitOn '\n'
  if split.getLast? = some [] then lines split.dropLast s else .error .ELNBLNE

end Scc.Cc2
