import Scc.Libc.Stdio.Numtostr

set_option linter.all false

/-! The conversions of integers, as the C standard describes them: how they are written and what they are to put. -/
namespace Scc.Libc.Stdio.Printf
open Text

inductive Flag where
  | minus
  | plus
  | space
  | hash
  | zero
  deriving DecidableEq

inductive Width where
  | omitted
  | number (lead : Fin 9) (rest : List (Fin 10))
  | star
  deriving DecidableEq

inductive Precision where
  | omitted
  | number (digits : List (Fin 10))
  | star

inductive Modifier where
  | none
  | hh
  | h
  | l
  | ll
  | j
  | z
  | t
  deriving DecidableEq

inductive Letter where
  | d
  | i
  | u
  | o
  | x
  | X
  deriving DecidableEq

structure Conversion where
  flags : List Flag
  width : Width
  precision : Precision
  modifier : Modifier
  letter : Letter

/-! ## How a conversion is written -/

def Flag.char : Flag → Int
  | .minus => 45
  | .plus => 43
  | .space => 32
  | .hash => 35
  | .zero => 48

def digitChar (d : Fin 10) : Int := 48 + d.val

/-- A width starts with another digit than 0, which is a flag. -/
def Width.chars : Width → List Int
  | .omitted => []
  | .number lead rest => (lead.succ :: rest).map digitChar
  | .star => [42]

def Precision.chars : Precision → List Int
  | .omitted => []
  | .number digits => 46 :: digits.map digitChar
  | .star => [46, 42]

def Modifier.chars : Modifier → List Int
  | .none => []
  | .hh => [104, 104]
  | .h => [104]
  | .l => [108]
  | .ll => [108, 108]
  | .j => [106]
  | .z => [122]
  | .t => [116]

def Letter.char : Letter → Int
  | .d => 100
  | .i => 105
  | .u => 117
  | .o => 111
  | .x => 120
  | .X => 88

def Conversion.chars (c : Conversion) : List Int :=
  c.flags.map Flag.char ++ (c.width.chars ++ (c.precision.chars ++ (c.modifier.chars ++ [c.letter.char])))

def Width.args (given : BitVec 64) : Width → List Arg
  | .star => [.word given]
  | _ => []

def Precision.args (given : BitVec 64) : Precision → List Arg
  | .star => [.word given]
  | _ => []

/-- What is passed for a conversion: a width and a precision where there are stars for them, and the number. -/
structure Given where
  width : BitVec 64
  precision : BitVec 64
  number : BitVec 64

def Conversion.args (c : Conversion) (given : Given) : List Arg :=
  c.width.args given.width ++ (c.precision.args given.precision ++ [.word given.number])

/-! ## What is to be put -/

/-- The number that the digits write. -/
def decimalValue (digits : List (Fin 10)) : Nat := readDigits 10 Fin.val digits

/-- The bits of the type that the modifier names. -/
def Modifier.bits : Modifier → Nat
  | .none => 32
  | .hh => 8
  | .h => 16
  | _ => 64

def Letter.signed : Letter → Bool
  | .d => true
  | .i => true
  | _ => false

def Letter.base : Letter → Nat
  | .o => 8
  | .x => 16
  | .X => 16
  | _ => 10

def Letter.digs : Letter → List Int
  | .x => lowerDigs
  | _ => upperDigs

namespace Conversion
variable (c : Conversion) (given : Given)

/-- The argument, converted to the type that the modifier names. -/
def number : Int :=
  if c.letter.signed then (given.number.setWidth c.modifier.bits).toInt
  else (given.number.setWidth c.modifier.bits).toNat

/-- The field width; a negative one is on the left. -/
def columns : Int :=
  match c.width with
  | .omitted => 0
  | .number lead rest => decimalValue (lead.succ :: rest)
  | .star => (given.width.setWidth 32).toInt

/-- The precision; a negative one is as if it were omitted. -/
def atLeast : Option Nat :=
  match c.precision with
  | .omitted => none
  | .number digits => some (decimalValue digits)
  | .star => if (given.precision.setWidth 32).toInt < 0 then none else some (given.precision.setWidth 32).toInt.toNat

/-- The field is filled on the right. -/
def justified : Prop := .minus ∈ c.flags ∨ c.columns given < 0

instance : Decidable (c.justified given) := inferInstanceAs (Decidable (_ ∨ _))

/-- The sign of a signed conversion. -/
def signs : List Int :=
  if c.letter.signed then
    if c.number given < 0 then [45] else if .plus ∈ c.flags then [43] else if .space ∈ c.flags then [32] else []
  else []

/-- The prefix of the alternate form. -/
def marks : List Int :=
  if .hash ∈ c.flags ∧ c.letter.base = 16 ∧ c.number given ≠ 0 then [48, c.letter.digs.getD 16 0] else []

/-- The digits: as many as the precision asks for, none for a zero where it is 0, and a zero first in the alternate form of
`o`. -/
def figures : List Int :=
  let ds := if c.atLeast given = some 0 ∧ c.number given = 0 then [] else
    numeral c.letter.base (digit c.letter.digs) (c.number given).natAbs
  let ds := List.replicate ((c.atLeast given).getD 1 - ds.length) 48 ++ ds
  if .hash ∈ c.flags ∧ c.letter.base = 8 ∧ ds.head? ≠ some 48 then 48 :: ds else ds

/-- What the conversion is to put. -/
def prescribed : List Int :=
  let pad := (c.columns given).natAbs - (c.signs given ++ c.marks given ++ c.figures given).length
  if c.justified given then c.signs given ++ c.marks given ++ c.figures given ++ List.replicate pad 32
  else if .zero ∈ c.flags ∧ c.atLeast given = none then c.signs given ++ c.marks given ++ List.replicate pad 48 ++ c.figures given
  else List.replicate pad 32 ++ c.signs given ++ c.marks given ++ c.figures given

end Conversion

end Scc.Libc.Stdio.Printf
