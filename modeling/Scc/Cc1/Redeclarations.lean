import Scc.Cc1.Compatible

set_option linter.all false

/-! The declarations of an identifier at file scope: `identifier`, `redcl` and `funbody` (decl.c), with
`initializer` (init.c). -/
namespace Scc.Cc1.Types

inductive Sclass where
  | NOSCLASS
  | AUTO
  | REGISTER
  | EXTERN
  | STATIC
  | TYPEDEF
  deriving DecidableEq

/-- What follows a declarator: nothing, a constant initializer, which has so many elements for an array
without a size, or the body of a function. A body follows the declarator of a function or only a type
name, there are so many names in an identifier list, and `noargs` is where `mktype` puts or finds the
type without parameters. -/
inductive Rest where
  | end_
  | init (elems : Int)
  | body (declarator : Bool) (names : Nat) (noargs : Nat)

/-- `prop` says of a type that is not derived whether it is defined. -/
structure Declaration where
  sclass : Sclass
  type : Ty
  prop : Bool
  rest : Rest

inductive Error where
  | conflictingTypes
  | redeclaration
  | nonStatic
  | static
  | badStorage
  | incompleteType
  | mainType
  | reservedFunc
  | functionInitialized
  | externInitialized
  | typedefBody
  | typedefFunction
  | redefinition
  | syntax_
  deriving DecidableEq

/-- A declared symbol, with its flags; its token is TYPEIDEN or IDEN. -/
structure Sym where
  type : Ty
  typeiden : Bool
  extern_ : Bool
  global : Bool
  private_ : Bool
  typedef_ : Bool
  defined : Bool

def Ty.isAry : Ty → Bool
  | .mk _ (.ary ..) => true
  | _ => false

/-- `prop & TDEFINED` -/
def Declaration.defined (d : Declaration) : Bool :=
  match d.type with
  | .mk _ (.ary _ nelem) => nelem ≠ 0
  | .mk _ (.ptr _) | .mk _ (.ftn ..) => true
  | _ => d.prop

def Declaration.hasinit (d : Declaration) : Bool :=
  match d.rest with
  | .init _ => true
  | _ => false

/-- The initializer of an array without a size sets it. -/
def Ty.sized (elems : Int) : Ty → Ty
  | .mk addr (.ary type 0) => .mk addr (.ary type elems)
  | tp => tp

section
variable (arch : Promotion) (name : String)

def redcl (sym : Sym) (tp : Ty) (sclass : Sclass) : Option (Sym × List Error) := do
  if !(← equiv arch sym.type tp) then
    return (sym, [.conflictingTypes])
  let sym := if !sym.type.kr && tp.kr then { sym with type := tp } else sym
  if sym.typeiden && sclass ≠ .TYPEDEF || !sym.typeiden && sclass = .TYPEDEF then
    return (sym, [.redeclaration])
  match sclass with
  | .REGISTER | .AUTO => return (sym, [.badStorage])
  | .NOSCLASS =>
    if !sym.private_ then return ({ sym with extern_ := false, global := true }, [])
    else return (sym, [.nonStatic])
  | .TYPEDEF => return (sym, [.redeclaration])
  | .EXTERN => return (sym, [])
  | .STATIC =>
    if !sym.global && !sym.extern_ then return ({ sym with private_ := true }, [])
    else return (sym, [.static])

/-- The first declaration, for which no flag is set. -/
def newdcl (tp : Ty) (sclass : Sclass) : Sym × List Error :=
  let sym : Sym := ⟨tp, false, false, false, false, false, false⟩
  let nosclass := if tp.isFtn then { sym with extern_ := true } else { sym with global := true }
  match sclass with
  | .REGISTER | .AUTO => (nosclass, [.badStorage])
  | .NOSCLASS => (nosclass, [])
  | .EXTERN => ({ sym with extern_ := true }, [])
  | .STATIC => ({ sym with private_ := true }, [])
  | .TYPEDEF => ({ sym with typedef_ := true, typeiden := true }, [])

/-- The type of the symbol is sized in its place. -/
def initializer (sym : Sym) (elems : Int) : Sym × List Error :=
  let e := if sym.type.isFtn then [Error.functionInitialized] else []
  let sym := { sym with type := sym.type.sized elems }
  if sym.defined then (sym, e ++ [.redeclaration])
  else if sym.global || sym.private_ then ({ sym with defined := true }, e)
  else if sym.extern_ || sym.typedef_ then (sym, e ++ [.externInitialized])
  else (sym, e)

/-- Where the type of functions has storage class EXTERN. -/
def Declaration.linked (d : Declaration) : Sclass :=
  if d.type.isFtn && d.sclass = .NOSCLASS then .EXTERN else d.sclass

def retaddr : Ty → Option Nat
  | .mk _ (.ftn type _ _) => some type.addr
  | _ => none

/-- The errors in a declaration by itself. -/
def Declaration.checks (d : Declaration) : List Error :=
  (if !d.defined && d.sclass ≠ .EXTERN && d.sclass ≠ .TYPEDEF && !(d.type.isAry && d.hasinit) then
    [.incompleteType] else []) ++
  (if d.type.isFtn && name = "main" && retaddr d.type ≠ some arch.inttype then [.mainType] else []) ++
  (if name = "__func__" then [.reservedFunc] else [])

def identifier (sym : Option Sym) (d : Declaration) : Option (Sym × List Error) := do
  let (sym, e) ←
    match sym with
    | some sym => redcl arch sym d.type d.linked
    | none => some (newdcl d.type d.linked)
  let (sym, e') :=
    match d.rest with
    | .init elems => initializer sym elems
    | _ => (sym, [])
  let sym := if !(sym.global || sym.extern_) && !d.type.isFtn then { sym with defined := true } else sym
  return (sym, d.checks arch name ++ e ++ e')

/-- A body where there is no function is an error of the parser. -/
def funbody (sym : Sym) (rest : Rest) : Sym × List Error :=
  match rest with
  | .body declarator names noargs =>
    if !sym.type.isFtn then (sym, [.syntax_])
    else
      let e := (if declarator then [] else [Error.typedefFunction]) ++
        (if sym.typedef_ then [.typedefBody] else []) ++ (if sym.defined then [.redefinition] else [])
      let sym := if sym.extern_ then { sym with extern_ := false, global := true } else sym
      let sym := { sym with defined := true }
      match sym.type with
      | .mk _ (.ftn type true _) =>
        (if names = 0 then { sym with type := .mk noargs (.ftn type false .nil) } else sym, e)
      | _ => (sym, e)
  | _ => (sym, [])

def declare (sym : Option Sym) (d : Declaration) : Option (Sym × List Error) := do
  let (sym, e) ← identifier arch name sym d
  let (sym, e') := funbody sym d.rest
  return (sym, e ++ e')

/-- A sequence of declarations, with all its errors. -/
def declares : Option Sym → List Declaration → Option (Option Sym × List Error)
  | sym, [] => some (sym, [])
  | sym, d :: ds => do
    let (sym, e) ← declare arch name sym d
    let (sym, e') ← declares (some sym) ds
    return (sym, e ++ e')

def Accepted (ds : List Declaration) : Prop :=
  ∃ sym, declares arch name none ds = some (sym, [])

end

section
attribute [local simp] funbody redcl identifier
end

end Scc.Cc1.Types
