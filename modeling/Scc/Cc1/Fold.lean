import Scc.Arithmetic.Integer
import Scc.Cc1.Node

set_option linter.all false

/-! Constant folding in cc1 (`fold.c`). `TINT` and `TUINT` have 64 bits; of an operation
that C leaves undefined the result is `none`. Floating arithmetic is a parameter. -/
namespace Scc.Cc1

def ones (nbytes : Nat) : BitVec 64 :=
  if nbytes = 8 then BitVec.allOnes 64 else ~~~(BitVec.allOnes 64 <<< (nbytes * 8))

namespace Fold
open Arithmetic

def tint : IntType := ⟨64, true⟩
def tuint : IntType := ⟨64, false⟩
def cint : IntType := ⟨32, true⟩

/-- `struct limits` of an integer type. -/
structure Limits where
  max : BitVec 64
  min : BitVec 64

/-- `getlimits`, which has no other sizes. -/
def getlimits (tp : CType) : Option Limits :=
  match tp.op with
  | .ENUM | .INT =>
    match tp.tsigned, tp.size with
    | false, 1 => some ⟨0xff, 0⟩
    | false, 2 => some ⟨0xffff, 0⟩
    | false, 4 => some ⟨0xffffffff, 0⟩
    | false, 8 => some ⟨0xffffffffffffffff, 0⟩
    | true, 1 => some ⟨0x7f, -0x7f - 1⟩
    | true, 2 => some ⟨0x7fff, -0x7fff - 1⟩
    | true, 4 => some ⟨0x7fffffff, -0x7fffffff - 1⟩
    | true, 8 => some ⟨0x7fffffffffffffff, -0x7fffffffffffffff - 1⟩
    | _, _ => none
  | _ => none

def addi (l r : Int) (tp : CType) : Option Bool := do
  let lim ← getlimits tp
  let max := lim.max.toInt
  let min := lim.min.toInt
  lor [
    land (l < 0 && r < 0) (do return l ≥ (← tint.sub min r)),
    some (l = 0),
    some (r = 0),
    some (l < 0 && r > 0),
    some (l > 0 && r < 0),
    land (l > 0 && r > 0) (do return l ≤ (← tint.sub max r))]

def subi (l r : Int) (tp : CType) : Option Bool := do
  addi l (← tint.neg r) tp

def muli (l r : Int) (tp : CType) : Option Bool := do
  let lim ← getlimits tp
  let max := lim.max.toInt
  let min := lim.min.toInt
  lor [
    some (l > -1 && l ≤ 1),
    some (r > -1 && r ≤ 1),
    land (l < 0 && r < 0) (do return (← tint.neg l) ≤ (← tint.div max (← tint.neg r))),
    land (l < 0 && r > 0) (do return l ≥ (← tint.div min r)),
    land (l > 0 && r < 0) (do return r ≥ (← tint.div min l)),
    land (l > 0 && r > 0) (do return l ≤ (← tint.div max r))]

/-- The negation and the comparison with the minimum are those of `TUINT`. -/
def divi (l r : Int) (tp : CType) : Option Bool := do
  let lim ← getlimits tp
  return !(r = 0 || (BitVec.ofInt 64 l = -lim.min && r = -1))

/-- The power of two is an `int`. -/
def lshi (l r : Int) (tp : CType) : Option Bool :=
  if r < 0 || r ≥ tp.size * 8 then some false
  else do
    muli l (← cint.shl 1 r) tp

def rshi (_l r : Int) (tp : CType) : Option Bool :=
  some !(r < 0 || r ≥ tp.size * 8)

def validate (op : Op) (l r : Int) (tp : CType) : Option Bool :=
  match op with
  | .OADD => addi l r tp
  | .OSUB => subi l r tp
  | .OMUL => muli l r tp
  | .ODIV => divi l r tp
  | .OSHL => lshi l r tp
  | .OSHR => rshi l r tp
  | .OMOD => divi l r tp
  | _ => some true

def truth (b : Bool) : Int := if b then 1 else 0

/-- What a folding function does with the result symbol. -/
inductive Folding (α : Type) where
  | refused
  | stored (u : α)
  deriving DecidableEq, Repr

def foldint (op : Op) (tp : CType) (l r : Int) : Option (Folding Int) := do
  if !(← validate op l r tp) then
    return .refused
  match op with
  | .OADD => .stored <$> tint.add l r
  | .OSUB => .stored <$> tint.sub l r
  | .OMUL => .stored <$> tint.mul l r
  | .ODIV => .stored <$> tint.div l r
  | .OMOD => .stored <$> tint.mod l r
  | .OSHL => .stored <$> tint.shl l r
  | .OSHR => .stored <$> tint.shr l r
  | .OBAND => return .stored (tint.bitwise (fun _ a b => a &&& b) l r)
  | .OBXOR => return .stored (tint.bitwise (fun _ a b => a ^^^ b) l r)
  | .OBOR => return .stored (tint.bitwise (fun _ a b => a ||| b) l r)
  | .OAND => return .stored (truth (l ≠ 0 && r ≠ 0))
  | .OOR => return .stored (truth (l ≠ 0 || r ≠ 0))
  | .OLT => return .stored (truth (l < r))
  | .OGT => return .stored (truth (l > r))
  | .OGE => return .stored (truth (l ≥ r))
  | .OLE => return .stored (truth (l ≤ r))
  | .OEQ => return .stored (truth (l = r))
  | .ONE => return .stored (truth (l ≠ r))
  | .ONEG => return .stored (truth (l = 0))
  | .OSNEG => .stored <$> tint.neg l
  | .OCPL => return .stored (tint.cpl l)
  | _ => return .refused

def folduint (op : Op) (tp : CType) (l r : BitVec 64) : Option (Folding (BitVec 64)) :=
  let store (u : BitVec 64) : Option (Folding (BitVec 64)) := some (.stored (u &&& ones tp.size))
  let sign (i : Bool) : Option (Folding (BitVec 64)) := some (.stored (if i then 1 else 0))
  match op with
  | .OADD => store (l + r)
  | .OSUB => store (l - r)
  | .OMUL => store (l * r)
  | .ODIV => if r = 0 then none else store (l / r)
  | .OMOD => if r = 0 then none else store (l % r)
  | .OSHL => if r.toNat ≥ 64 then none else store (l <<< r)
  | .OSHR => if r.toNat ≥ 64 then none else store (l >>> r)
  | .OBAND => store (l &&& r)
  | .OBXOR => store (l ^^^ r)
  | .OBOR => store (l ||| r)
  | .ONEG => store (if l = 0 then 1 else 0)
  | .OSNEG => store (-l)
  | .OCPL => store (~~~l)
  | .OAND => sign (l ≠ 0 && r ≠ 0)
  | .OOR => sign (l ≠ 0 || r ≠ 0)
  | .OLT => sign (l.ult r)
  | .OGT => sign (r.ult l)
  | .OGE => sign (r.ule l)
  | .OLE => sign (l.ule r)
  | .OEQ => sign (l = r)
  | .ONE => sign (l ≠ r)
  | _ => some .refused

-- The equations of the folding, once for the modules on top.
section
attribute [local simp] foldint
end

end Fold

end Scc.Cc1
