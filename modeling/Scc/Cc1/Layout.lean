import Scc.Arithmetic.Rounding

set_option linter.all false

/-! Sizes, alignments and member offsets of types in cc1 (`types.c`). -/
namespace Scc.Cc1.Sizes
open Arithmetic

/-- What `typesize` reads of a type and sets: `size` is an `unsigned long`, `align` an `unsigned char`. -/
structure Layout where
  size : BitVec 64
  align : Nat
  deriving DecidableEq

/-- The variables of the loop over the members. -/
structure Progress where
  offset : BitVec 64
  size : BitVec 64
  align : Nat

/-- `(offset + a) & ~a`, where `a` is an `int`. -/
def rounded (offset : BitVec 64) (a : Int) : BitVec 64 :=
  (offset + BitVec.ofInt 64 a) &&& ~~~BitVec.ofInt 64 a

/-- One member: its `u.i`, and the variables after it. -/
def field (struct : Bool) (type : Layout) (s : Progress) : BitVec 64 × Progress :=
  let a : Int := type.align
  let align := if type.align > s.align then type.align else s.align
  if struct then
    let a := a - 1
    let offset := if a ≠ 0 then rounded s.offset a else s.offset
    (offset, ⟨offset + type.size, offset + type.size, align⟩)
  else (0, ⟨s.offset, if type.size > s.size then type.size else s.size, align⟩)

def fieldLoop (struct : Bool) : List Layout → Progress → List (BitVec 64) × Progress
  | [], s => ([], s)
  | type :: rest, s =>
    let (offset, s) := field struct type s
    let (offsets, s) := fieldLoop struct rest s
    (offset :: offsets, s)

/-- `typesize` of an aggregate. -/
def aggregate (struct : Bool) (types : List Layout) : Layout × List (BitVec 64) :=
  let (offsets, s) := fieldLoop struct types ⟨0, 0, 0⟩
  let size := if struct && s.align > 1 then rounded s.size ((s.align : Int) - 1) else s.size
  (⟨size, s.align⟩, offsets)

mutual

/-- The types that have a size; `basic` are those whose layout the target sets. -/
inductive Ty where
  | basic (layout : Layout)
  | PTR
  | ENUM
  | ARY (type : Ty) (nelem : BitVec 64)
  | STRUCT (fields : Fields)
  | UNION (fields : Fields)

inductive Fields where
  | nil
  | cons (type : Ty) (rest : Fields)

end

def pvoidtype : Layout := ⟨8, 8⟩
def inttype : Layout := ⟨4, 4⟩

/-- The layouts of the arithmetic types and of `va_type` on amd64. -/
def basics : List Layout := [⟨1, 1⟩, ⟨2, 2⟩, ⟨4, 4⟩, ⟨8, 8⟩, ⟨16, 16⟩, ⟨24, 8⟩]

mutual

/-- `typesize`, with which every type gets its layout when it is complete. -/
def Ty.typesize : Ty → Layout
  | .basic layout => layout
  | .PTR => pvoidtype
  | .ENUM => inttype
  | .ARY type nelem => ⟨nelem * type.typesize.size, type.typesize.align⟩
  | .STRUCT fields => (aggregate true fields.typesizes).1
  | .UNION fields => (aggregate false fields.typesizes).1

def Fields.typesizes : Fields → List Layout
  | .nil => []
  | .cons type rest => type.typesize :: rest.typesizes

end

mutual

/-- The basic types in a type are those of the target. -/
def Ty.Targeted : Ty → Prop
  | .basic layout => layout ∈ basics
  | .PTR | .ENUM => True
  | .ARY type _ => type.Targeted
  | .STRUCT fields | .UNION fields => fields.Targeted

def Fields.Targeted : Fields → Prop
  | .nil => True
  | .cons type rest => type.Targeted ∧ rest.Targeted

end

end Scc.Cc1.Sizes
