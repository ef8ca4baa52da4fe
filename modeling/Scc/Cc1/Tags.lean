import Mathlib.Data.List.Nodup
import Mathlib.Data.List.TakeWhile

set_option linter.all false

/-! Tags of cc1 (`newtag`, `structdcl`, `enumdcl` and `field` of `decl.c`, the contexts of
`symbol.c`, `typesize` of `types.c`): what the specifiers of structures, unions and
enumerations in nested scopes declare. -/
namespace Scc.Cc1.Tags

def NR_BLOCK : Nat := 127
def NR_FIELDS : Nat := 1023
def NR_STRUCT_LEVEL : Nat := 63
def NR_MAXSTRUCTS : Nat := 127

inductive Tag where
  | STRUCT | UNION | ENUM
  deriving DecidableEq, Repr

/-- The type of a member: a structure, union or enumeration is given by its number, all others
by what `typesize` reads. -/
inductive FieldType where
  | sized (size align : Nat)
  | tagged (tp : Nat)
  deriving DecidableEq, Repr

def inttype : FieldType := .sized 4 4

/-- The symbol of a member; `freed` once its context has been popped. -/
structure Field where
  name : String
  ctx : Nat
  type : FieldType
  off : Nat := 0
  freed : Bool := false
  deriving DecidableEq, Repr

/-- `struct type`; `p.fields` and `n.elem` are the list. -/
structure TagType where
  op : Tag
  defined : Bool := false
  fields : List Field := []
  size : Nat := 0
  align : Nat := 0
  deriving DecidableEq, Repr

/-- A declared symbol of `NS_TAG`. -/
structure Symbol where
  name : Option String
  ctx : Nat
  type : Nat
  deriving DecidableEq, Repr

inductive Message where
  | redefinitionOfStruct | redefinitionOfEnum | wrongKind | tooManyTags | tooManyLevels
  | tooManyBlocks | duplicatedMember | incompleteType | tooManyFields
  deriving DecidableEq, Repr

/-- The tags in `head` with the newest first, the types by their numbers, the type that the
last specifier gave, and the messages of `errorp`. -/
structure State where
  curctx : Nat := 0
  head : List Symbol := []
  types : List TagType := []
  last : Nat := 0
  errors : List Message := []
  deriving DecidableEq, Repr

/-- `lookup(NS_TAG, name, NOALLOC)` -/
def State.lookup (s : State) (name : String) : Option Symbol :=
  s.head.find? fun sym => sym.name = some name

def pushctx (s : State) : Except Message State :=
  if s.curctx = NR_BLOCK then .error .tooManyBlocks else .ok { s with curctx := s.curctx + 1 }

/-- What is left of a type when the symbols of a context are killed. -/
def TagType.killed (ctx : Nat) (syms : List Symbol) (i : Nat) (tp : TagType) : TagType :=
  { tp with
    defined := tp.defined && !syms.any (·.type = i)
    fields := tp.fields.map fun f => if f.ctx = ctx then { f with freed := true } else f }

def popctx (s : State) : State :=
  let syms := s.head.takeWhile (·.ctx = s.curctx)
  { s with
    curctx := s.curctx - 1
    head := s.head.dropWhile (·.ctx = s.curctx)
    types := s.types.mapIdx (TagType.killed s.curctx syms) }

/-- The symbol of a tag, which is declared unless the lookup has found one. -/
def newtag (tag : Tag) (name : Option String) (s : State) : Except Message (Symbol × State) :=
  match name.bind s.lookup with
  | some sym =>
    if (s.types[sym.type]?).map (·.op) = some tag then .ok (sym, s) else .error .wrongKind
  | none =>
    if s.types.length = NR_MAXSTRUCTS then .error .tooManyTags
    else
      let sym : Symbol := ⟨name, s.curctx, s.types.length⟩
      .ok (sym, { s with head := sym :: s.head, types := s.types ++ [{ op := tag }] })

def State.defined (s : State) (tp : Nat) : Bool := ((s.types[tp]?).map (·.defined)).getD false

def State.errorp (message : Message) (s : State) : State :=
  { s with errors := s.errors ++ [message] }

/-! The layout of a type. -/

def State.sizeof (s : State) : FieldType → Nat × Nat
  | .sized size align => (size, align)
  | .tagged tp => ((s.types[tp]?).map fun tp => (tp.size, tp.align)).getD (0, 0)

/-- `n + (a - 1) & ~(a - 1)`, for an alignment that is zero or a power of two. -/
def roundup (n a : Nat) : Nat := (n + a - 1) / a * a

/-- The loop of `typesize` for a structure: the fields with their offsets, and the end. -/
def place (sizeof : FieldType → Nat × Nat) (offset : Nat) : List Field → List Field × Nat
  | [] => ([], offset)
  | f :: fields =>
    let start := roundup offset (sizeof f.type).2
    let (placed, size) := place sizeof (start + (sizeof f.type).1) fields
    ({ f with off := start } :: placed, size)

def typesize (sizeof : FieldType → Nat × Nat) (tp : TagType) : TagType :=
  let align := (tp.fields.map fun f => (sizeof f.type).2).foldl max 0
  match tp.op with
  | .STRUCT =>
    let (fields, size) := place sizeof 0 tp.fields
    { tp with fields := fields, align := align, size := if align > 1 then roundup size align else size }
  | .UNION =>
    { tp with
      fields := tp.fields.map fun f => { f with off := 0 }
      align := align
      size := (tp.fields.map fun f => (sizeof f.type).1).foldl max 0 }
  | .ENUM => { tp with size := 4, align := 4 }

def deftype (tp : Nat) (s : State) : State :=
  { s with types := s.types.modify tp fun type => typesize s.sizeof { type with defined := true } }

/-! Specifiers. -/

/-- What a specifier with a list does before the list. -/
def opens (tag : Tag) (name : Option String) (nested : Nat) (s : State) :
    Except Message (Nat × State) := do
  let (sym, s) ← newtag tag name s
  if tag = .ENUM then
    let s := if s.defined sym.type then s.errorp .redefinitionOfEnum else s
    .ok (sym.type, deftype sym.type s)
  else if s.defined sym.type ∧ sym.ctx = s.curctx then .error .redefinitionOfStruct
  else if nested = NR_STRUCT_LEVEL then .error .tooManyLevels
  else .ok (sym.type, s)

/-- What it does after the list. -/
def closes (tag : Tag) (tp : Nat) (s : State) : State :=
  let s := if tag = .ENUM then s else deftype tp s
  { s with last := tp }

def State.fields (s : State) (structp : Nat) : List Field :=
  ((s.types[structp]?).map (·.fields)).getD []

def State.complete (s : State) : FieldType → Bool
  | .sized _ _ => true
  | .tagged tp => s.defined tp

def addfield (structp : Nat) (name : String) (tp : FieldType) (s : State) : State :=
  if (s.fields structp).length = NR_FIELDS then s.errorp .tooManyFields
  else { s with
    types := s.types.modify structp fun type =>
      { type with fields := type.fields ++ [{ name, ctx := s.curctx, type := tp }] } }

/-- A member with a name, of the type of the last specifier if it has no other. -/
def field (structp : Nat) (name : String) (type : Option FieldType) (s : State) : State :=
  if (s.fields structp).any fun f => f.name = name && f.ctx = s.curctx && !f.freed then
    s.errorp .duplicatedMember
  else
    let tp := type.getD (.tagged s.last)
    if s.complete tp then addfield structp name tp s
    else addfield structp name inttype (s.errorp .incompleteType)

/-- The specifiers of a translation unit, in their scopes; what stands between the brackets of
a specifier with a list is executed for the type that it completes. -/
inductive Dcl where
  | skip
  | seq (first rest : Dcl)
  | scope (body : Dcl)
  | refer (tag : Tag) (name : Option String)
  | define (tag : Tag) (name : Option String) (members : Dcl)
  | field (name : String) (type : Option FieldType)
  deriving Repr

/-- The type that members belong to. -/
def parent (tag : Tag) (tp : Nat) : Option Nat := if tag = .ENUM then none else some tp

def exec : Dcl → Option Nat → Nat → State → Except Message State
  | .skip, _, _, s => .ok s
  | .seq first rest, structp, nested, s => do exec rest structp nested (← exec first structp nested s)
  | .scope body, _, nested, s => do .ok (popctx (← exec body none nested (← pushctx s)))
  | .refer tag name, _, _, s => do
    let (sym, s) ← newtag tag name s
    .ok { s with last := sym.type }
  | .define tag name members, _, nested, s => do
    let (tp, s) ← opens tag name nested s
    let s ← exec members (parent tag tp) (if tag = .ENUM then nested else nested + 1) s
    .ok (closes tag tp s)
  | .field name type, structp, _, s =>
    match structp with
    | some structp => .ok (Tags.field structp name type s)
    | none => .ok s

end Scc.Cc1.Tags
