import Scc.As.OperandsProofs

set_option linter.all false

/-! What the value of an expression is in the assembler: its tokens as they are written, the levels of the
grammar in as/expr.c, and the operators in words of 64 bits. -/
namespace Scc.As.Args
open Transition Fields

inductive Lexeme where
  | number (val : Nat)
  | name (text : Name)
  | op (op : Binop)
  | not
  | open_
  | close
  deriving DecidableEq

namespace Lexeme

/-- The operators of two characters. -/
def double : Char → Char → Option Binop
  | '<', '<' => some .SHL
  | '>', '>' => some .SHR
  | '<', '=' => some .LE
  | '>', '=' => some .GE
  | _, _ => none

def single : Char → Option Lexeme
  | '*' => some (.op .times)
  | '/' => some (.op .divide)
  | '%' => some (.op .mod)
  | '+' => some (.op .plus)
  | '-' => some (.op .minus)
  | '<' => some (.op .lt)
  | '>' => some (.op .gt)
  | '=' => some (.op .eq)
  | '|' => some (.op .or)
  | '^' => some (.op .xor)
  | '&' => some (.op .and)
  | '!' => some .not
  | '(' => some .open_
  | ')' => some .close
  | _ => none

end Lexeme

/-- A text of numbers, names, parentheses and operators. A number has the value that is read for it; it does not
matter what follows one that is reported as wrong. -/
inductive Lexes : List Char → List Lexeme → Prop where
  | nil : Lexes [] []
  | blank {c : Char} {s : List Char} {xs : List Lexeme} (space : isspace c = true) (rest : Lexes s xs) : Lexes (c :: s) xs
  | number {c : Char} {s rest : List Char} {v : Nat} {xs : List Lexeme} (digit : c.isDigit = true)
      (read : Numbers.number (c :: s) = .ok (v, rest)) (later : Lexes rest xs) : Lexes (c :: s) (.number v :: xs)
  | wrong {c : Char} {s : List Char} {xs : List Lexeme} (digit : c.isDigit = true) {stop : Stop}
      (reported : Numbers.number (c :: s) = .error stop) : Lexes (c :: s) xs
  | name {c : Char} {s : List Char} {xs : List Lexeme} (first : c.isAlpha = true ∨ c = '_' ∨ c = '.')
      (rest : Lexes ((c :: s).dropWhile Reader.idchar) xs) : Lexes (c :: s) (.name ((c :: s).takeWhile Reader.idchar) :: xs)
  | double {c d : Char} {s : List Char} {op : Binop} {xs : List Lexeme} (two : Lexeme.double c d = some op)
      (rest : Lexes s xs) : Lexes (c :: d :: s) (.op op :: xs)
  | single {c : Char} {s : List Char} {x : Lexeme} {xs : List Lexeme} (one : Lexeme.single c = some x)
      (alone : ∀ d, s.head? = some d → Lexeme.double c d = none) (rest : Lexes s xs) : Lexes (c :: s) (x :: xs)

end Scc.As.Args

namespace Scc.As.Binop
open Args

/-- The function of the grammar that has the operator. -/
def fn : Binop → Fn
  | .or | .xor => .expr
  | .and => .and
  | .lt | .gt | .eq | .GE | .LE => .relational
  | .plus | .minus => .add
  | .times | .divide | .mod | .SHL | .SHR => .mul

/-- The operators in words of 64 bits. -/
def meaning (op : Binop) (l r : Nat) : Option Nat :=
  match op with
  | .times => some (l * r % 2 ^ 64)
  | .divide => if r = 0 then none else some (l / r)
  | .mod => if r = 0 then none else some (l % r)
  | .SHL => some (l * 2 ^ r % 2 ^ 64)
  | .SHR => some (l / 2 ^ r)
  | .plus => some ((l + r) % 2 ^ 64)
  | .minus => some ((l + (2 ^ 64 - r)) % 2 ^ 64)
  | .lt => some (if l < r then 1 else 0)
  | .gt => some (if l > r then 1 else 0)
  | .eq => some (if l = r then 1 else 0)
  | .GE => some (if l ≥ r then 1 else 0)
  | .LE => some (if l ≤ r then 1 else 0)
  | .or => some (l ||| r)
  | .xor => some (l ^^^ r)
  | .and => some (l &&& r)

end Scc.As.Binop

namespace Scc.As.Args
open Transition Fields

/-- The unary operators. -/
def Lexeme.unop : Lexeme → Option (Nat → Nat)
  | .not => some fun v => if v = 0 then 1 else 0
  | .op .plus => some id
  | .op .minus => some fun v => (2 ^ 64 - v) % 2 ^ 64
  | _ => none

/-- The value of the tokens, as the function of the grammar derives them: with the precedence of the levels, and
from the left in each of them. -/
inductive Value (env : Name → Nat) : Fn → List Lexeme → Nat → Prop where
  | number {v : Nat} : Value env .primary [.number v] v
  | name {n : Name} : Value env .primary [.name n] (env n)
  | paren {xs : List Lexeme} {v : Nat} (inner : Value env .expr xs v) : Value env .primary (.open_ :: xs ++ [.close]) v
  | unary {x : Lexeme} {xs : List Lexeme} {f : Nat → Nat} {v : Nat} (op : x.unop = some f) (operand : Value env .primary xs v) :
      Value env .unary (x :: xs) (f v)
  | first {f : Fn} {xs : List Lexeme} {v : Nat} (operand : Value env f.left xs v) : Value env f xs v
  | binary {op : Binop} {xs ys : List Lexeme} {l r v : Nat} (left : Value env op.fn xs l) (right : Value env op.fn.right ys r)
      (result : op.meaning l r = some v) : Value env op.fn (xs ++ .op op :: ys) v

/-- The value of a name; a symbol that is not in the table yet has the value 0. -/
def nameValue (s : State) (n : Name) : Nat :=
  match s.qualify n with
  | .error _ => 0
  | .ok full => ((s.find full).map s.valueOf).getD 0

/-- There is an error, or one operand with the value of the tokens. -/
def Machine.Evaluates (env : Name → Nat) (xs : List Lexeme) (m : Machine) : Prop :=
  ∃ n es t, Runs Machine.step n m es t ∧
    ((∃ msg, t.step = .done (error msg)) ∨
      ∃ np v, t.step = .done (.ok [np]) ∧ t.reader.value np = .ok v ∧ Value env .expr xs v)

/-- The condition on a state: a field is split there, `<` is not read as an operator of its own, and a unary operator is
applied to a number. -/
structure Machine.Exact (m : Machine) : Prop where
  fine : m.Fine
  less : ∀ k s, m.control = .read k → m.reader.textp.dropWhile isspace = '<' :: s → s.head? = some '<' ∨ s.head? = some '='
  number : ∀ np op st, m.control = .ret np → m.stack = .unary op :: st → np.op = NUMBER

end Scc.As.Args
