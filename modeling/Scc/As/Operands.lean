import Scc.As.Tokens
import Scc.Transition.Runs

set_option linter.all false

/-! How an operand field is split (as/expr.c, `operand` and `getargs` in as/parser.c, `moperand` in
x80/ins.c). The functions call each other without a bound, so they are a machine: `control` is where the
running function stands, and each frame is a call that has not returned. -/
namespace Scc.As.Args
open Transition

/-- The functions of the grammar. -/
inductive Fn where
  | expr
  | and
  | relational
  | add
  | mul
  | unary
  | primary
  deriving DecidableEq

namespace Fn

/-- The operators in the loop of the function. -/
def takes : Fn → Int → Bool
  | .expr, t => t = code '|' || t = code '^'
  | .and, t => t = code '&'
  | .relational, t => t = code '<' || t = code '>' || t = code '=' || t = GE || t = LE
  | .add, t => t = code '+' || t = code '-'
  | .mul, t => t = code '*' || t = code '/' || t = code '%' || t = SHL || t = SHR
  | _, _ => false

/-- What gives the first operand. -/
def left : Fn → Fn
  | .expr => .and
  | .and => .relational
  | .relational => .add
  | .add => .mul
  | .mul => .unary
  | _ => .primary

/-- What gives the operand behind an operator. -/
def right : Fn → Fn
  | .mul => .primary
  | f => f.left

end Fn

inductive Control where
  /-- `next()` is called, and then goes on. -/
  | read (k : Control)
  /-- The loop of `getargs` calls `operand`. -/
  | operand
  /-- `operand`, behind its first token. -/
  | switch
  | moperand
  /-- `moperand`, behind the parenthesis. -/
  | indirect
  /-- `moperand`, behind the register in parentheses. -/
  | sign (reg : Node)
  /-- `moperand`, behind an offset and the parenthesis. -/
  | base (off : Node)
  /-- `moperand` expects the last parenthesis. -/
  | close (np : Node)
  /-- The end of `operand`. -/
  | finish (np : Node)
  | call (f : Fn)
  /-- The loop of a function of the grammar. -/
  | loop (f : Fn) (np : Node)
  | ret (np : Node)

inductive Frame where
  | left (f : Fn)
  | right (f : Fn) (op : Int) (l : Node)
  | unary (op : Int)
  | paren
  /-- `operand`, of an immediate one. -/
  | imm
  /-- `moperand`, of a direct address. -/
  | dir
  /-- `moperand`, of an offset behind a register. -/
  | regoff (reg : Node)
  /-- `moperand`, of an offset before a register. -/
  | off

/-- `args` are the operands so far. -/
structure Machine where
  reader : Reader
  args : List Node
  control : Control
  stack : List Frame

/-- A token: the text where it starts, the one behind it, and what is copied of it. -/
structure Reading where
  before : List Char
  after : List Char
  text : Name

namespace Machine

abbrev Step := Next Machine Reading (M (List Node))

def goto (m : Machine) (k : Control) : Step := .more [] { m with control := k }

/-- A call of a function of the grammar. -/
def enter (m : Machine) (frame : Frame) (k : Control) : Step :=
  .more [] { m with control := k, stack := frame :: m.stack }

def unexpected : Step := .done (error "unexpected '%s'")

def expect (m : Machine) (token : Int) (k : Control) : Step :=
  if m.reader.yytoken ≠ token then unexpected else m.goto (.read k)

def getreg (m : Machine) (k : Node → Control) : Step :=
  m.expect REG (k (.leaf REG AREG m.reader.yylval))

def operand (m : Machine) : Step :=
  if m.args.length = NARGS - 1 then .done (error "too many arguments in one instruction")
  else .more [] { m with reader := { m.reader with textp := m.reader.endp, regmode := true }, control := .read .switch }

def switch (m : Machine) : Step :=
  let token := m.reader.yytoken
  if token = EOS then .done (.ok m.args)
  else if token = REG then m.getreg .finish
  else if token = STRING then m.goto (.read (.finish (.leaf token ASTR m.reader.yylval)))
  else if token = IDEN then
    let (c, reader) := m.reader.ahead
    let m := { m with reader := reader }
    if c ≠ EOS ∧ c ≠ code ',' then m.goto .moperand
    else m.goto (.read (.finish (.leaf IDEN ANUMBER reader.yylval)))
  else if token = code '$' then m.enter .imm (.read (.call .expr))
  else m.goto .moperand

def moperand (m : Machine) : Step :=
  if m.reader.yytoken = code '(' then m.goto (.read .indirect) else m.enter .off (.call .expr)

def indirect (m : Machine) : Step :=
  if m.reader.yytoken ≠ REG then m.enter .dir (.call .expr) else m.getreg .sign

/-- The node of a register and an offset. -/
def index (reg off : Node) : Node := (Node.node AINDEX (some (.node AREG_OFF (some reg) (some off))) none).setAddr AINDEX

def sign (m : Machine) (reg : Node) : Step :=
  if m.reader.yytoken = code '+' ∨ m.reader.yytoken = code '-' then m.enter (.regoff reg) (.call .expr)
  else if m.reader.yytoken = code ')' then m.goto (.close ((Node.node AINDIR (some reg) none).setAddr AINDIR))
  else unexpected

def finish (m : Machine) (np : Node) : Step :=
  if m.reader.yytoken ≠ code ',' ∧ m.reader.yytoken ≠ EOS then .done (error "trailing characters in expression '%s'")
  else .more [] { m with args := m.args ++ [np], control := .operand }

def unary (m : Machine) : Step :=
  let token := m.reader.yytoken
  if token = code '!' ∨ token = code '-' ∨ token = code '+' then m.enter (.unary token) (.read (.call .primary))
  else m.goto (.call .primary)

def primary (m : Machine) : Step :=
  let token := m.reader.yytoken
  if token = IDEN ∨ token = NUMBER then m.goto (.read (.ret (.leaf token ANUMBER m.reader.yylval)))
  else if token = code '(' then m.enter .paren (.call .expr)
  else unexpected

def regctx (m : Machine) (mode : Bool) : Machine := { m with reader := { m.reader with regmode := mode } }

def call (m : Machine) : Fn → Step
  | .unary => m.unary
  | .primary => m.primary
  | .expr => (m.regctx false).enter (.left .expr) (.call Fn.expr.left)
  | f => m.enter (.left f) (.call f.left)

def loop (m : Machine) (f : Fn) (np : Node) : Step :=
  let token := m.reader.yytoken
  if f.takes token then m.enter (.right f token np) (.read (.call f.right))
  else if f = .expr then (m.regctx true).goto (.ret np)
  else m.goto (.ret np)

/-- The loop of `mul` goes on with the node of its left operand, which `fold` has given back. -/
def ret (m : Machine) (np : Node) : Frame → Step
  | .left f => m.goto (.loop f np)
  | .right f op l =>
    match m.reader.binary op l np with
    | .error stop => .done (.error stop)
    | .ok (reader, np) => if f = .mul then .done (.error .fault) else { m with reader := reader }.goto (.loop f np)
  | .unary op =>
    match m.reader.unaryop op np with
    | .error stop => .done (.error stop)
    | .ok (reader, np) => { m with reader := reader }.goto (.ret np)
  | .paren => m.expect (code ')') (.ret np)
  | .imm => m.goto (.finish (np.setAddr AIMM))
  | .dir => m.goto (.close ((Node.node ADIRECT (some np) none).setAddr ADIRECT))
  | .regoff reg => m.goto (.close (index reg np))
  | .off => m.expect (code '(') (.base np)

def step (m : Machine) : Step :=
  match m.control with
  | .read k =>
    match m.reader.next with
    | .error stop => .done (.error stop)
    | .ok r => .more [⟨m.reader.textp.dropWhile Fields.isspace, r.endp, r.yytext⟩] { m with reader := r, control := k }
  | .operand => m.operand
  | .switch => m.switch
  | .moperand => m.moperand
  | .indirect => m.indirect
  | .sign reg => m.sign reg
  | .base off => m.getreg fun reg => .close (index reg off)
  | .close np => m.expect (code ')') (.ret np)
  | .finish np => m.finish np
  | .call f => m.call f
  | .loop f np => m.loop f np
  | .ret np =>
    match m.stack with
    | [] => m.goto (.finish np)
    | frame :: stack => { m with stack := stack }.ret np frame

/-- `getargs` is called for a field; the variables have the values that they happen to have. -/
def getargs (r : Reader) (field : List Char) : Machine :=
  { reader := { r with endp := field }, args := [], control := .operand, stack := [] }

end Machine

/-! What the splitting of a field should be. -/

/-- A token of the field: at least one character, and no more than there is room for. -/
structure Reading.Sound (field : List Char) (token : Reading) : Prop where
  inside : token.before <:+ field
  rest : token.after <:+ token.before
  progress : token.before ≠ [] → token.after.length < token.before.length
  fits : token.text.length ≤ INTIDENTSIZ

/-- From here the field is split in operands, or there is an error. -/
structure Machine.Splits (field : List Char) (m : Machine) : Prop where
  ends : ∃ es result, Ends Machine.step m es result ∧ ∀ stop, result = .error stop → ∃ msg, stop = .error msg
  tokens : ∀ es, Emits Machine.step m es → ∀ token ∈ es, token.Sound field

/-! The condition on a state. -/

/-- The token that starts here is no quote, ends where it is a string, and is no `%` where registers are read. -/
structure Readable (regmode : Bool) (text : List Char) : Prop where
  quote : text.head? ≠ some '\''
  closed : text.head? = some '"' → '"' ∈ text.tail
  percent : text.head? = some '%' → regmode = false

/-- An operand that is known, and its value. -/
def Reader.Known (r : Reader) (np : Node) (val : Nat) : Prop := r.constant np = .ok true ∧ r.value np = .ok val

/-- Both operands are known, and the operator is no `&`, and none of `mul` but a division by zero. -/
def Reader.Computes (r : Reader) (f : Fn) (op : Int) (l np : Node) : Prop :=
  ∃ lv rv, r.Known l lv ∧ r.Known np rv ∧
    if f = .mul then (op = code '/' ∨ op = code '%') ∧ rv = 0 else op ≠ code '&'

/-- A token that is read is readable, an operand of an expression does not begin with a parenthesis, and an
operator has operands that it can be computed of. -/
def Machine.Fine (m : Machine) : Prop :=
  match m.control, m.stack with
  | .read _, _ => Readable m.reader.regmode (m.reader.textp.dropWhile Fields.isspace)
  | .call .primary, _ => m.reader.yytoken ≠ code '('
  | .ret np, .right f op l :: _ => m.reader.Computes f op l np
  | .ret np, .unary _ :: _ => np.addr = some ANUMBER → np.op = NUMBER → ∃ val, m.reader.value np = .ok val
  | _, _ => True

/-- The condition, on every state from here on. -/
def Machine.Steady (m : Machine) : Prop := ∀ n es t, Runs Machine.step n m es t → t.Fine

end Scc.As.Args
